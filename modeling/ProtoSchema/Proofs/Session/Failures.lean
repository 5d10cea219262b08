import ProtoSchema.Proofs.Session.Cycles

/-!
No failure goes unreported. Whatever parser and linker a workshop has, and whatever the
ledger holds, a walk that obtains no file adds an error, at the import statement that asked
for the file or at the file itself. Diagnostics are only added, so each edge without a file
that the linker is handed has its error among the diagnostics of the call.
-/

namespace ProtoSchema

open Linked (File Import)

structure Diagnostic.Tells (site : Option ImportSite) (path : VirtualPath) (d : Diagnostic) :
    Prop where
  isError : d.IsError
  place : (∃ s, site = some s ∧ d.path = s.file ∧ d.position = s.position) ∨ d.path = path

theorem ImportFault.tells_diagnostic (path : VirtualPath) (site : Option ImportSite)
    (fault : ImportFault) : (fault.diagnostic path site).Tells site path := by
  cases site with
  | none => exact ⟨rfl, .inr rfl⟩
  | some s => exact ⟨rfl, .inl ⟨s, rfl, rfl, rfl⟩⟩

namespace Walk

/-- A rejected file has an error even when its parser gives none. -/
theorem exists_tells_syntaxDiagnostics (path : VirtualPath) (site : Option ImportSite)
    (errors : List SyntaxError) : ∃ d ∈ syntaxDiagnostics path errors, d.Tells site path := by
  unfold syntaxDiagnostics
  by_cases hnone : errors = []
  · rw [if_pos hnone]
    exact ⟨_, List.mem_singleton.mpr rfl, rfl, .inr rfl⟩
  · rw [if_neg hnone]
    obtain ⟨e, rest, rfl⟩ := List.exists_cons_of_ne_nil hnone
    exact ⟨_, List.mem_cons_self, rfl, .inr rfl⟩

/-- A file that its linker rejects has an error, be it for warnings only or for nothing. -/
theorem exists_tells_linkDiagnostics (path : VirtualPath) (site : Option ImportSite)
    (problems : List Linked.Problem) : ∃ d ∈ linkDiagnostics path problems, d.Tells site path := by
  unfold linkDiagnostics
  by_cases herror : ∃ p ∈ problems, p.IsError
  · rw [if_pos herror]
    obtain ⟨p, hp, hbad⟩ := herror
    exact ⟨_, List.mem_map_of_mem hp, hbad, .inr rfl⟩
  · rw [if_neg herror]
    exact ⟨_, List.mem_map_of_mem (List.mem_append_right _ (List.mem_singleton.mpr rfl)), rfl,
      .inr rfl⟩

end Walk

theorem Loss.exists_tells (loss : Loss) (path : VirtualPath) (site : Option ImportSite) :
    ∃ d ∈ loss.diagnostics path site, d.Tells site path := by
  cases loss with
  | missing why => exact ⟨_, List.mem_singleton.mpr rfl, ImportFault.tells_diagnostic path site _⟩
  | unreadable why =>
    exact ⟨_, List.mem_singleton.mpr rfl, ImportFault.tells_diagnostic path site _⟩
  | unparsed physical errors => exact Walk.exists_tells_syntaxDiagnostics path site errors

theorem Workshop.exists_tells_verdict {shop : Workshop} {path : VirtualPath} {tree : Schema.File}
    {imports : EdgeList} (site : Option ImportSite)
    (h : (shop.verdict path tree imports).2.file? = none) :
    ∃ d ∈ (shop.verdict path tree imports).1, d.Tells site path := by
  unfold verdict at h ⊢
  split
  · exact Walk.exists_tells_linkDiagnostics path site _
  · next outcome hlink =>
    rw [hlink] at h
    cases h

/-- The later call has the diagnostics of the earlier one and others behind them, with an
error about the file if none was obtained. -/
structure Call.Accounts (call : Call) (site : Option ImportSite) (path : VirtualPath)
    (file : Option File) (after : Call) (ds : List Diagnostic) : Prop where
  diagnostics_eq : after.diagnostics = call.diagnostics ++ ds
  tells : file = none → ∃ d ∈ ds, d.Tells site path

def Call.TellsMissing (call : Call) (path : VirtualPath) (edges : List Import) : Prop :=
  ∀ edge ∈ edges, edge.target = none →
    ∃ d ∈ call.diagnostics, d.Tells (some ⟨path, edge.position⟩) edge.path

theorem Call.TellsMissing.of_prefix {call after : Call} {path : VirtualPath} {edges : List Import}
    (h : call.TellsMissing path edges) (hearlier : call.diagnostics <+: after.diagnostics) :
    after.TellsMissing path edges := by
  intro edge hedge hmissing
  obtain ⟨d, hd, htells⟩ := h edge hedge hmissing
  exact ⟨d, hearlier.subset hd, htells⟩

namespace Walk

variable {shop : Workshop} {path : VirtualPath} {call : Call}

def Speaks (resolve : Resolver) : Prop :=
  ∀ path site (call : Call), ∃ ds,
    call.Accounts site path ((resolve path site).run call).1 ((resolve path site).run call).2 ds

/-- Following a statement adds diagnostics, and tells of the edge that it adds. -/
theorem Speaks.followImport {resolve : Resolver} (hspeaks : Speaks resolve) (path : VirtualPath)
    (soFar : EdgeList) (statement : Schema.Import) (h : call.TellsMissing path soFar.edges) :
    call.diagnostics <+: ((followImport resolve path soFar statement).run call).2.diagnostics ∧
      ((followImport resolve path soFar statement).run call).2.TellsMissing path
        ((followImport resolve path soFar statement).run call).1.edges := by
  cases hread : VirtualPath.read statement.path with
  | error why =>
    rw [run_followImport_of_invalid hread]
    exact ⟨List.prefix_append _ _, h.of_prefix (List.prefix_append _ _)⟩
  | ok target =>
    by_cases hseen : target ∈ soFar.edges.map (·.path)
    · rw [run_followImport_of_repeated hread hseen]
      exact ⟨List.prefix_append _ _, h.of_prefix (List.prefix_append _ _)⟩
    · obtain ⟨ds, haccounts⟩ := hspeaks target (some ⟨path, statement.position⟩) call
      generalize hrun : (resolve target (some ⟨path, statement.position⟩)).run call = found
        at haccounts
      obtain ⟨file, after⟩ := found
      rw [run_followImport_of_new hread hseen hrun]
      have hearlier : call.diagnostics <+: after.diagnostics :=
        haccounts.diagnostics_eq ▸ List.prefix_append _ _
      refine ⟨hearlier, ?_⟩
      intro edge hedge hmissing
      rcases List.mem_append.mp hedge with hedge | hedge
      · exact h.of_prefix hearlier edge hedge hmissing
      · cases List.mem_singleton.mp hedge
        obtain ⟨d, hd, htells⟩ := haccounts.tells hmissing
        exact ⟨d, haccounts.diagnostics_eq ▸ List.mem_append_right _ hd, htells⟩

theorem Speaks.foldlM_followImport {resolve : Resolver} (hspeaks : Speaks resolve)
    (path : VirtualPath) (statements : List Schema.Import) (soFar : EdgeList)
    (h : call.TellsMissing path soFar.edges) :
    call.diagnostics <+:
        ((statements.foldlM (Walk.followImport resolve path) soFar).run call).2.diagnostics ∧
      ((statements.foldlM (Walk.followImport resolve path) soFar).run call).2.TellsMissing path
        ((statements.foldlM (Walk.followImport resolve path) soFar).run call).1.edges := by
  induction statements generalizing soFar call with
  | nil => exact ⟨List.prefix_refl _, h⟩
  | cons statement rest ih =>
    obtain ⟨hfirst, htold⟩ := hspeaks.followImport path soFar statement h
    generalize hstep : (Walk.followImport resolve path soFar statement).run call = found
      at hfirst htold
    obtain ⟨next, between⟩ := found
    rw [run_followImports_cons resolve statement rest hstep]
    obtain ⟨hothers, htold⟩ := ih next htold
    exact ⟨hfirst.trans hothers, htold⟩

theorem Speaks.followImports {resolve : Resolver} (hspeaks : Speaks resolve) (path : VirtualPath)
    (statements : List Schema.Import) {imports : EdgeList} {after : Call}
    (hrun : (Walk.followImports resolve path statements).run call = (imports, after)) :
    call.diagnostics <+: after.diagnostics ∧ after.TellsMissing path imports.edges := by
  have hnone : call.TellsMissing path [] := fun edge hedge => nomatch hedge
  have hfold := hspeaks.foldlM_followImport path statements ⟨[], false⟩ hnone
  unfold Walk.followImports at hrun
  rwa [hrun] at hfold

/-- A walk that finds an entry reports what it is, unless it is a file. -/
theorem run_resolve_of_failed (depth : Nat) (site : Option ImportSite) {reason : Failure}
    (hentry : call.ledger.entry? path = some (.failed reason)) :
    (resolve shop depth path site).run call =
      (none, call.noting [ImportFault.diagnostic path site (.failedBefore reason)]) :=
  run_resolve_of_entry depth (run_request_of_failed hentry) (by simp)

/-- A claim that there is no depth left for is given up. -/
theorem run_resolve_of_exhausted (site : Option ImportSite)
    (habsent : call.ledger.entry? path = none) :
    (resolve shop 0 path site).run call = (none, finishing
      (Call.noting { call with ledger := call.ledger.put path (.pending call.worker) }
        [ImportFault.diagnostic path site (.failedBefore .abandoned)])
      path (.failed .abandoned)) := by
  unfold resolve
  rw [run_bind (run_request_of_absent habsent)]
  rfl

private theorem accounts_noting (call : Call) (path : VirtualPath) (site : Option ImportSite)
    (fault : ImportFault) :
    call.Accounts site path none (call.noting [fault.diagnostic path site])
      [fault.diagnostic path site] :=
  ⟨rfl, fun _ => ⟨_, List.mem_singleton.mpr rfl, fault.tells_diagnostic path site⟩⟩

private theorem accounts_of_entry (shop : Workshop) (depth : Nat) (site : Option ImportSite)
    {entry : Ledger.Entry} (hentry : call.ledger.entry? path = some entry) :
    ∃ ds, call.Accounts site path ((resolve shop depth path site).run call).1
      ((resolve shop depth path site).run call).2 ds := by
  cases entry with
  | pending owner =>
    rw [run_resolve_of_entry depth (run_request_of_pending hentry) (by simp)]
    exact ⟨_, accounts_noting call path site _⟩
  | compiled file =>
    rw [run_resolve_of_entry depth (run_request_of_compiled hentry) (by simp)]
    exact ⟨[], by simp, fun h => nomatch h⟩
  | failed reason =>
    rw [run_resolve_of_failed depth site hentry]
    exact ⟨_, accounts_noting call path site _⟩

/-- The induction is on the depth: the files below a claimed one are walked one level down. -/
theorem speaks_resolve (shop : Workshop) (depth : Nat) : Speaks (resolve shop depth) := by
  induction depth with
  | zero =>
    intro path site call
    cases hentry : call.ledger.entry? path with
    | some entry => exact accounts_of_entry shop 0 site hentry
    | none =>
      rw [run_resolve_of_exhausted site hentry]
      exact ⟨_, rfl, (accounts_noting call path site _).tells⟩
  | succ depth ih =>
    intro path site call
    cases hentry : call.ledger.entry? path with
    | some entry => exact accounts_of_entry shop (depth + 1) site hentry
    | none =>
      cases hread : shop.read path with
      | error loss =>
        rw [run_resolve_of_lost depth site hentry hread]
        exact ⟨loss.diagnostics path site, rfl, fun _ => loss.exists_tells path site⟩
      | ok found =>
        obtain ⟨physical, tree⟩ := found
        generalize hrun : (Walk.followImports (resolve shop depth) path tree.imports).run
          ((call.claiming path).loading [(path, physical)]) = found
        obtain ⟨imports, between⟩ := found
        obtain ⟨⟨below, hbelow⟩, _⟩ := ih.followImports path tree.imports hrun
        rw [run_resolve_of_read depth site hentry hread hrun]
        refine ⟨below ++ (shop.verdict path tree imports).1, ?_, ?_⟩
        · simp [← hbelow, List.append_assoc]
        · intro hnone
          obtain ⟨d, hd, htells⟩ := shop.exists_tells_verdict site hnone
          exact ⟨d, List.mem_append_right _ hd, htells⟩

/-- In the course of a walk the linker is handed the edges, for the file at `other`: for the
file that is walked, or for one inside an import statement of it. -/
inductive Hands (shop : Workshop) : Nat → VirtualPath → Option ImportSite → Call →
    VirtualPath → EdgeList → Prop
  | itself {depth path site call} (physical : PhysicalPath) (tree : Schema.File)
      (imports : EdgeList) (between : Call) (habsent : call.ledger.entry? path = none)
      (hread : shop.read path = .ok (physical, tree))
      (hfollow : (followImports (resolve shop depth) path tree.imports).run
        ((call.claiming path).loading [(path, physical)]) = (imports, between)) :
      Hands shop (depth + 1) path site call path imports
  | inside {depth path site call other handed} (physical : PhysicalPath) (tree : Schema.File)
      (first : List Schema.Import) (statement : Schema.Import) (rest : List Schema.Import)
      (soFar : EdgeList) (between : Call) (target : VirtualPath)
      (habsent : call.ledger.entry? path = none)
      (hread : shop.read path = .ok (physical, tree))
      (hstatements : tree.imports = first ++ statement :: rest)
      (hfollow : (followImports (resolve shop depth) path first).run
        ((call.claiming path).loading [(path, physical)]) = (soFar, between))
      (htarget : VirtualPath.read statement.path = .ok target)
      (hnew : target ∉ soFar.edges.map (·.path))
      (hinside : Hands shop depth target (some ⟨path, statement.position⟩) between other handed) :
      Hands shop (depth + 1) path site call other handed

/-- What following all statements reports is reported in the end. -/
private theorem prefix_resolve (depth : Nat) (site : Option ImportSite) {physical : PhysicalPath}
    {tree : Schema.File} {imports : EdgeList} {between : Call}
    (habsent : call.ledger.entry? path = none) (hread : shop.read path = .ok (physical, tree))
    (hfollow : (Walk.followImports (resolve shop depth) path tree.imports).run
      ((call.claiming path).loading [(path, physical)]) = (imports, between)) :
    between.diagnostics <+: ((resolve shop (depth + 1) path site).run call).2.diagnostics := by
  rw [run_resolve_of_read depth site habsent hread hfollow]
  exact Call.prefix_linked between

/-- Statements are followed up to one that names a new path, through it, and behind it. -/
theorem run_followImports_split {resolve : Resolver} {first : List Schema.Import}
    (rest : List Schema.Import) {statement : Schema.Import} {soFar : EdgeList}
    {between after : Call} {target : VirtualPath} {file : Option File}
    (hfollow : (Walk.followImports resolve path first).run call = (soFar, between))
    (htarget : VirtualPath.read statement.path = .ok target)
    (hnew : target ∉ soFar.edges.map (·.path))
    (hrun : (resolve target (some ⟨path, statement.position⟩)).run between = (file, after)) :
    (Walk.followImports resolve path (first ++ statement :: rest)).run call =
      (rest.foldlM (Walk.followImport resolve path) { soFar with
        edges := soFar.edges ++ [⟨target, statement.kind, statement.position, file⟩] }).run
          after := by
  unfold Walk.followImports at hfollow ⊢
  rw [List.foldlM_append, run_bind hfollow,
    run_followImports_cons _ statement rest (run_followImport_of_new htarget hnew hrun)]

/-- A statement that names a new path has the file at the path obtained. -/
private theorem prefix_followImports (depth : Nat) {first : List Schema.Import}
    (rest : List Schema.Import) {statement : Schema.Import} {soFar : EdgeList} {between : Call}
    {target : VirtualPath}
    (hfollow : (Walk.followImports (resolve shop depth) path first).run call = (soFar, between))
    (htarget : VirtualPath.read statement.path = .ok target)
    (hnew : target ∉ soFar.edges.map (·.path)) :
    ((resolve shop depth target (some ⟨path, statement.position⟩)).run between).2.diagnostics <+:
      ((Walk.followImports (resolve shop depth) path (first ++ statement :: rest)).run
        call).2.diagnostics := by
  generalize hrun : (resolve shop depth target (some ⟨path, statement.position⟩)).run between =
    found
  obtain ⟨file, after⟩ := found
  have hspeaks := speaks_resolve shop depth
  obtain ⟨_, htold⟩ := hspeaks.followImports path first hfollow
  obtain ⟨_, htold⟩ := hspeaks.followImport path soFar statement htold
  rw [run_followImport_of_new htarget hnew hrun] at htold
  rw [run_followImports_split rest hfollow htarget hnew hrun]
  exact (hspeaks.foldlM_followImport path rest _ htold).1

/-- The errors about the edges that the linker is handed are there in the end. -/
theorem Hands.tellsMissing {depth site other handed}
    (h : Hands shop depth path site call other handed) :
    ((resolve shop depth path site).run call).2.TellsMissing other handed.edges := by
  induction h with
  | @itself depth path site call physical tree imports between habsent hread hfollow =>
    obtain ⟨_, htold⟩ := (speaks_resolve shop depth).followImports path tree.imports hfollow
    exact htold.of_prefix (prefix_resolve depth site habsent hread hfollow)
  | @inside depth path site call other handed physical tree first statement rest soFar between
      target habsent hread hstatements hfollow htarget hnew _ ih =>
    generalize hrun : (Walk.followImports (resolve shop depth) path tree.imports).run
      ((call.claiming path).loading [(path, physical)]) = found
    obtain ⟨imports, after⟩ := found
    have hearlier := prefix_followImports depth rest hfollow htarget hnew
    rw [← hstatements, hrun] at hearlier
    exact ih.of_prefix (hearlier.trans (prefix_resolve depth site habsent hread hrun))

end Walk

namespace Session

/-- Whatever the parser, the linker, the files and the ledger: a walk that gives no file adds
an error; an edge that the linker is handed without a file has an error among what the call
reports, at its statement or about its path; and for a file that failed before that is one
diagnostic at the statement, of the kind that the recorded reason calls for. -/
theorem failures_are_reported (shop : Workshop) :
    (∀ depth path site (call : Call), ((Walk.resolve shop depth path site).run call).1 = none →
      ∃ ds, ((Walk.resolve shop depth path site).run call).2.diagnostics = call.diagnostics ++ ds ∧
        ∃ d ∈ ds, d.IsError) ∧
    (∀ (session : Session) root path imports,
      Walk.Hands shop (depthBound shop) root none session.opening path imports →
      ∀ edge ∈ imports.edges, edge.target = none → ∃ d ∈ session.reported shop root,
        d.IsError ∧ (d.path = path ∧ d.position = edge.position ∨ d.path = edge.path)) ∧
    (∀ depth path (site : ImportSite) (call : Call) reason,
      call.ledger.entry? path = some (.failed reason) →
      ∃ d, (Walk.resolve shop depth path (some site)).run call = (none, call.noting [d]) ∧
        d.IsError ∧ d.path = site.file ∧ d.position = site.position ∧
        d.kind = if reason = .notFound then .pathNotFound else .bindFailure) := by
  refine ⟨?_, ?_, ?_⟩
  · intro depth path site call hnone
    obtain ⟨ds, haccounts⟩ := Walk.speaks_resolve shop depth path site call
    obtain ⟨d, hd, htells⟩ := haccounts.tells hnone
    exact ⟨ds, haccounts.diagnostics_eq, d, hd, htells.isError⟩
  · intro session root path imports hhands edge hedge hmissing
    obtain ⟨d, hd, htells⟩ := hhands.tellsMissing edge hedge hmissing
    refine ⟨d, mem_reported_of_mem_course hd, htells.isError, ?_⟩
    rcases htells.place with ⟨s, hs, hplace⟩ | habout
    · cases hs
      exact .inl hplace
    · exact .inr habout
  · intro depth path site call reason hentry
    refine ⟨_, Walk.run_resolve_of_failed depth (some site) hentry, rfl, rfl, rfl, ?_⟩
    cases reason <;> rfl

/-- A file that was not found before, imported by one that a linker rejects for nothing. -/
theorem failures_are_reported_cached : ∃ (shop : Workshop) (session : Session)
    (a b : VirtualPath) (imports : EdgeList), ∃ edge ∈ imports.edges,
    session.ledger.entry? b = some (.failed .notFound) ∧
    Walk.Hands shop (depthBound shop) a none session.opening a imports ∧
    edge.path = b ∧ edge.target = none ∧
    ∃ d ∈ session.reported shop a,
      d.IsError ∧ (d.path = a ∧ d.position = edge.position ∨ d.path = edge.path) := by
  let bytes (text : String) : List UInt8 := text.toList.map fun c => UInt8.ofNat c.toNat
  let a : VirtualPath := ⟨⟨false, ["a.proto"], by decide⟩, by decide⟩
  let b : VirtualPath := ⟨⟨false, ["b.proto"], by decide⟩, by decide⟩
  let overlay : Overlay := ⟨[⟨⟨false, [], by decide⟩, ⟨"/r"⟩⟩]⟩
  let files : MemoryFiles := ⟨[(⟨"/r/a.proto"⟩, bytes "import \"b.proto\";")]⟩
  let shop : Workshop :=
    { workshop .standard overlay files.store with link := fun _ _ _ => .error [] }
  let session : Session := ((start .silent).compile shop b).2
  have hfailed : session.ledger.entry? b = some (.failed .notFound) := by
    have hreason : (session.ledger.entry? b).bind Ledger.Entry.reason? = some .notFound := by
      decide +kernel
    obtain ⟨entry, hentry, hfound⟩ := Option.bind_eq_some_iff.mp hreason
    cases entry with
    | pending owner => cases hfound
    | compiled file => cases hfound
    | failed reason =>
      cases hfound
      exact hentry
  have habsent : session.opening.ledger.entry? a = none :=
    Option.isNone_iff_eq_none.mp (by decide +kernel)
  let followed (found : PhysicalPath × Schema.File) : EdgeList :=
    ((Walk.followImports (Walk.resolve shop (overlay.mappings.length * files.store.size)) a
      found.2.imports).run ((session.opening.claiming a).loading [(a, found.1)])).1
  have hedges : (shop.read a).toOption.any (fun found => (followed found).edges.any fun edge =>
      decide (edge.path = b) && edge.target.isNone) = true := by
    decide +kernel
  obtain ⟨⟨physical, tree⟩, hfound, hany⟩ := (Option.any_eq_true _ _).mp hedges
  have hread : shop.read a = .ok (physical, tree) := Workshop.read_eq_ok_of_toOption hfound
  obtain ⟨edge, hedge, hmissing⟩ := List.any_eq_true.mp hany
  rw [Bool.and_eq_true, decide_eq_true_eq, Option.isNone_iff_eq_none] at hmissing
  have hhands : Walk.Hands shop (depthBound shop) a none session.opening a
      (followed (physical, tree)) :=
    .itself physical tree _ _ habsent hread rfl
  exact ⟨shop, session, a, b, _, edge, hedge, hfailed, hhands, hmissing.1, hmissing.2,
    (failures_are_reported shop).2.1 session a a _ hhands edge hedge hmissing.2⟩

end Session

end ProtoSchema
