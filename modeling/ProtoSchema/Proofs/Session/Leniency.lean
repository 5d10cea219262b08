import ProtoSchema.Proofs.Session.Failures

/-!
When a name is told to be unknown. Only linking a file tells so, and only of that file; and a
file is linked where its path has no entry, so that nothing is told of it before, and leaves
an entry, so that nothing is told of it behind. What a call tells of a file is therefore told
on the one occasion on which its edges are handed to the linker, and there an edge that did
not reach a complete file is an excuse. A statement whose path is not valid gives no edge,
and is no excuse.
-/

namespace ProtoSchema

open Linked (File Import)

namespace Call

def Spares (call : Call) (path : VirtualPath) : Prop :=
  ∀ d ∈ call.diagnostics, d.path = path → d.kind ≠ .unresolvedReference

structure Passes (call after : Call) (path : VirtualPath) : Prop where
  stays : call.ledger.entry? path ≠ none → after.ledger.entry? path ≠ none
  spares : call.Spares path →
    call.ledger.entry? path ≠ none ∨ after.ledger.entry? path = none → after.Spares path

variable {call between after : Call} {path other : VirtualPath}

theorem Passes.refl (call : Call) (path : VirtualPath) : call.Passes call path :=
  ⟨id, fun hspares _ => hspares⟩

theorem Passes.trans (h : call.Passes between path) (h' : between.Passes after path) :
    call.Passes after path := by
  refine ⟨fun hpresent => h'.stays (h.stays hpresent), ?_⟩
  rintro hspares (hpresent | habsent)
  · exact h'.spares (h.spares hspares (.inl hpresent)) (.inl (h.stays hpresent))
  · have hbefore : between.ledger.entry? path = none := by
      by_contra hpresent
      exact h'.stays hpresent habsent
    exact h'.spares (h.spares hspares (.inr hbefore)) (.inr habsent)

/-- The path of a file that the step links. -/
theorem Passes.of_absent (habsent : call.ledger.entry? path = none)
    (hpresent : after.ledger.entry? path ≠ none) : call.Passes after path := by
  refine ⟨fun _ => hpresent, ?_⟩
  rintro _ (hbefore | hafter)
  · exact absurd habsent hbefore
  · exact absurd hafter hpresent

theorem Passes.noting {ds : List Diagnostic}
    (hds : ∀ d ∈ ds, d.path = path → d.kind ≠ .unresolvedReference) :
    call.Passes (call.noting ds) path := by
  refine ⟨id, fun hspares _ d hd => ?_⟩
  rcases List.mem_append.mp hd with hd | hd
  · exact hspares d hd
  · exact hds d hd

theorem Passes.recording {entry : Ledger.Entry}
    (hdiagnostics : after.diagnostics = call.diagnostics)
    (hledger : after.ledger = call.ledger.put other entry) : call.Passes after path := by
  refine ⟨fun hpresent => ?_, fun hspares _ d hd => hspares d (hdiagnostics ▸ hd)⟩
  rw [hledger, Ledger.entry?_put]
  split
  · exact nofun
  · exact hpresent

theorem Passes.obtaining (file : Option File) : call.Passes (call.obtaining file) path := by
  refine ⟨?_, fun hspares _ d hd => hspares d ?_⟩
  · rw [obtaining_ledger]
    exact id
  · rwa [obtaining_diagnostics] at hd

theorem Passes.claiming (loaded : List (VirtualPath × PhysicalPath)) :
    call.Passes ((call.claiming other).loading loaded) path := .recording rfl rfl

/-- What the linker tells of a file, and the file handed in and kept. -/
theorem Passes.linking {ds : List Diagnostic} {entry : Ledger.Entry} (file : Option File)
    (hds : ∀ d ∈ ds, d.path = path → d.kind ≠ .unresolvedReference) :
    call.Passes (((call.noting ds).closing other entry).obtaining file) path := by
  have hclosed : (call.noting ds).Passes ((call.noting ds).closing other entry) path :=
    .recording rfl rfl
  exact (Passes.noting hds).trans (hclosed.trans (.obtaining file))

theorem Passes.spared (h : call.Passes after path) (hpresent : call.ledger.entry? path ≠ none)
    (hspares : call.Spares path) : after.ledger.entry? path ≠ none ∧ after.Spares path :=
  ⟨h.stays hpresent, h.spares hspares (.inl hpresent)⟩

end Call

namespace Workshop

def Excuses (shop : Workshop) : Prop :=
  ∀ path tree imports, (∃ edge ∈ imports.edges, ¬edge.IsIntact) →
    ∀ d ∈ (shop.verdict path tree imports).1, d.kind ≠ .unresolvedReference

theorem path_of_mem_verdict {shop : Workshop} {path : VirtualPath} {tree : Schema.File}
    {imports : EdgeList} {d : Diagnostic} (h : d ∈ (shop.verdict path tree imports).1) :
    d.path = path := by
  unfold verdict at h
  split at h
  · obtain ⟨problem, _, rfl⟩ := List.mem_map.mp h
    rfl
  · obtain ⟨problem, _, rfl⟩ := List.mem_map.mp h
    rfl

end Workshop

/-- Faults of imports are not of names. -/
theorem ImportFault.kind_diagnostic_ne (path : VirtualPath) (site : Option ImportSite)
    (fault : ImportFault) : (fault.diagnostic path site).kind ≠ .unresolvedReference := by
  have hkind : fault.kind ≠ .unresolvedReference := by
    unfold kind
    split
    · exact nofun
    · split <;> exact nofun
    · exact nofun
    · exact nofun
    · exact nofun
  cases site with
  | none => exact hkind
  | some s => exact hkind

theorem Loss.kind_ne_unresolved {loss : Loss} {path : VirtualPath} {site : Option ImportSite}
    {d : Diagnostic} (h : d ∈ loss.diagnostics path site) : d.kind ≠ .unresolvedReference := by
  cases loss with
  | missing why =>
    rw [List.mem_singleton.mp h]
    exact ImportFault.kind_diagnostic_ne path site _
  | unreadable why =>
    rw [List.mem_singleton.mp h]
    exact ImportFault.kind_diagnostic_ne path site _
  | unparsed physical errors =>
    obtain ⟨error, _, rfl⟩ := List.mem_map.mp h
    exact nofun

namespace Walk

variable {shop : Workshop} {path : VirtualPath} {call : Call}

def Discreet (resolve : Resolver) : Prop :=
  ∀ path site (call : Call) other, call.Passes ((resolve path site).run call).2 other

theorem Discreet.foldlM_followImport {resolve : Resolver} (hdiscreet : Discreet resolve)
    (path : VirtualPath) (statements : List Schema.Import) (soFar : EdgeList)
    (other : VirtualPath) :
    call.Passes ((statements.foldlM (followImport resolve path) soFar).run call).2 other := by
  induction statements generalizing soFar call with
  | nil => exact .refl call other
  | cons statement rest ih =>
    cases hread : VirtualPath.read statement.path with
    | error why =>
      rw [run_followImports_cons resolve statement rest (run_followImport_of_invalid hread)]
      refine .trans (.noting ?_) (ih _)
      intro d hd _
      rw [List.mem_singleton.mp hd]
      exact nofun
    | ok target =>
      by_cases hseen : target ∈ soFar.edges.map (·.path)
      · rw [run_followImports_cons resolve statement rest
          (run_followImport_of_repeated hread hseen)]
        refine .trans (.noting ?_) (ih _)
        intro d hd _
        rw [List.mem_singleton.mp hd]
        exact nofun
      · have hpasses := hdiscreet target (some ⟨path, statement.position⟩) call other
        generalize hrun : (resolve target (some ⟨path, statement.position⟩)).run call = found
          at hpasses
        obtain ⟨file, between⟩ := found
        rw [run_followImports_cons resolve statement rest
          (run_followImport_of_new hread hseen hrun)]
        exact hpasses.trans (ih _)

theorem Discreet.followImports {resolve : Resolver} (hdiscreet : Discreet resolve)
    {statements : List Schema.Import} {imports : EdgeList} {after : Call}
    (hrun : (Walk.followImports resolve path statements).run call = (imports, after))
    (other : VirtualPath) : call.Passes after other := by
  have hfold : call.Passes
      ((statements.foldlM (followImport resolve path) ⟨[], false⟩).run call).2 other :=
    hdiscreet.foldlM_followImport path statements ⟨[], false⟩ other
  unfold Walk.followImports at hrun
  rwa [hrun] at hfold

private theorem passes_noting_fault (fault : ImportFault) (path other : VirtualPath)
    (site : Option ImportSite) : call.Passes (call.noting [fault.diagnostic path site]) other := by
  refine .noting fun d hd _ => ?_
  rw [List.mem_singleton.mp hd]
  exact fault.kind_diagnostic_ne path site

private theorem passes_of_entry (shop : Workshop) (depth : Nat) (site : Option ImportSite)
    (other : VirtualPath) {entry : Ledger.Entry} (hentry : call.ledger.entry? path = some entry) :
    call.Passes ((resolve shop depth path site).run call).2 other := by
  cases entry with
  | pending owner =>
    rw [run_resolve_of_entry depth (run_request_of_pending hentry) (by simp)]
    exact passes_noting_fault _ path other site
  | compiled file =>
    rw [run_resolve_of_entry depth (run_request_of_compiled hentry) (by simp)]
    exact .obtaining (some file)
  | failed reason =>
    rw [run_resolve_of_failed depth site hentry]
    exact passes_noting_fault _ path other site

/-- The claimed path comes to have an entry; of the others the walk of the imports tells, and
the linker does not. -/
private theorem passes_of_read {depth : Nat} (hdiscreet : Discreet (resolve shop depth))
    (site : Option ImportSite) (other : VirtualPath) {physical : PhysicalPath}
    {tree : Schema.File} (habsent : call.ledger.entry? path = none)
    (hread : shop.read path = .ok (physical, tree)) :
    call.Passes ((resolve shop (depth + 1) path site).run call).2 other := by
  generalize hrun : (Walk.followImports (resolve shop depth) path tree.imports).run
    ((call.claiming path).loading [(path, physical)]) = found
  obtain ⟨imports, between⟩ := found
  rw [run_resolve_of_read depth site habsent hread hrun]
  by_cases hother : other = path
  · subst hother
    refine .of_absent habsent ?_
    rw [Call.obtaining_ledger, Call.closing_ledger, Ledger.entry?_put_self]
    exact nofun
  · refine .trans (.claiming _) ((hdiscreet.followImports hrun other).trans (.linking _ ?_))
    intro d hd hpath
    exact absurd (hpath.symm.trans (Workshop.path_of_mem_verdict hd)) hother

/-- The induction is on the depth, as in `speaks_resolve`. -/
theorem discreet_resolve (shop : Workshop) (depth : Nat) : Discreet (resolve shop depth) := by
  induction depth with
  | zero =>
    intro path site call other
    cases hentry : call.ledger.entry? path with
    | some entry => exact passes_of_entry shop 0 site other hentry
    | none =>
      have hclaimed : call.Passes
          { call with ledger := call.ledger.put path (.pending call.worker) } other :=
        .recording rfl rfl
      have hnoted := hclaimed.trans (passes_noting_fault (.failedBefore .abandoned) path other site)
      rw [run_resolve_of_exhausted site hentry]
      exact hnoted.trans (.recording rfl rfl)
  | succ depth ih =>
    intro path site call other
    cases hentry : call.ledger.entry? path with
    | some entry => exact passes_of_entry shop (depth + 1) site other hentry
    | none =>
      cases hread : shop.read path with
      | error loss =>
        rw [run_resolve_of_lost depth site hentry hread]
        exact .trans (.claiming _) (.linking none fun d hd _ => Loss.kind_ne_unresolved hd)
      | ok found => exact passes_of_read ih site other hentry hread

/-- A file whose edges the linker is handed had no entry before the walk. -/
theorem Hands.absent {depth site other handed}
    (h : Hands shop depth path site call other handed) : call.ledger.entry? other = none := by
  induction h with
  | itself physical tree imports between habsent hread hfollow => exact habsent
  | @inside depth path site call other handed physical tree first statement rest soFar between
      target habsent hread hstatements hfollow htarget hnew _ ih =>
    have hpasses := (discreet_resolve shop depth).followImports hfollow other
    by_contra hpresent
    exact hpasses.stays ((Call.Passes.claiming _).stays hpresent) ih

/-- Where one of the edges that the linker is handed is not intact, no name in the file is told
to be unknown, behind the walk as before. With it goes that the file has an entry then, which
keeps the rest of the walk from telling. -/
theorem Hands.spared {depth site other handed}
    (h : Hands shop depth path site call other handed) (hexcuses : shop.Excuses)
    (hbroken : ∃ edge ∈ handed.edges, ¬edge.IsIntact) (hspares : call.Spares other) :
    ((resolve shop depth path site).run call).2.ledger.entry? other ≠ none ∧
      ((resolve shop depth path site).run call).2.Spares other := by
  induction h with
  | @itself depth path site call physical tree imports between habsent hread hfollow =>
    have hpending :
        ((call.claiming path).loading [(path, physical)]).ledger.entry? path ≠ none := by
      simp
    have hfollowed := (discreet_resolve shop depth).followImports hfollow path
    rw [run_resolve_of_read depth site habsent hread hfollow]
    refine (hfollowed.trans (.linking _ ?_)).spared hpending hspares
    intro d hd _
    exact hexcuses path tree imports hbroken d hd
  | @inside depth path site call other handed physical tree first statement rest soFar between
      target habsent hread hstatements hfollow htarget hnew hinside ih =>
    have hdiscreet := discreet_resolve shop depth
    have hbefore := hdiscreet.followImports hfollow other
    have hne : other ≠ path := by
      rintro rfl
      exact hbefore.stays (by simp) hinside.absent
    obtain ⟨hpresent, hspared⟩ := ih hbroken (hbefore.spares hspares (.inr hinside.absent))
    generalize hrun : (resolve shop depth target (some ⟨path, statement.position⟩)).run between =
      found at hpresent hspared
    obtain ⟨file, after⟩ := found
    generalize hall : (Walk.followImports (resolve shop depth) path tree.imports).run
      ((call.claiming path).loading [(path, physical)]) = found
    obtain ⟨imports, last⟩ := found
    have hrest : after.Passes ((rest.foldlM (followImport (resolve shop depth) path) { soFar with
        edges := soFar.edges ++ [⟨target, statement.kind, statement.position, file⟩] }).run
          after).2 other := hdiscreet.foldlM_followImport path rest _ other
    rw [← run_followImports_split rest hfollow htarget hnew hrun, ← hstatements, hall] at hrest
    rw [run_resolve_of_read depth site habsent hread hall]
    refine (hrest.trans (.linking _ ?_)).spared hpresent hspared
    intro d hd hpath
    exact absurd (hpath.symm.trans (Workshop.path_of_mem_verdict hd)) hne

theorem mem_edges_foldlM_followImport (resolve : Resolver) (path : VirtualPath)
    (statements : List Schema.Import) (soFar : EdgeList) (target : VirtualPath) :
    target ∈ ((statements.foldlM (followImport resolve path) soFar).run call).1.edges.map (·.path) ↔
      target ∈ soFar.edges.map (·.path) ∨
        ∃ statement ∈ statements, statement.target? = some target := by
  induction statements generalizing soFar call with
  | nil => exact (or_iff_left fun ⟨statement, hmem, _⟩ => nomatch hmem).symm
  | cons statement rest ih =>
    rw [List.exists_mem_cons_iff]
    cases hread : VirtualPath.read statement.path with
    | error why =>
      have hnone : ¬statement.target? = some target := by
        rw [Schema.Import.target?_of_read_error hread]
        exact nofun
      rw [run_followImports_cons resolve statement rest (run_followImport_of_invalid hread), ih,
        or_iff_right hnone]
    | ok named =>
      have hnamed : statement.target? = some target ↔ target = named := by
        rw [Schema.Import.target?_of_read_ok hread, Option.some.injEq, eq_comm]
      by_cases hseen : named ∈ soFar.edges.map (·.path)
      · rw [run_followImports_cons resolve statement rest
          (run_followImport_of_repeated hread hseen), ih, hnamed, ← or_assoc]
        refine or_congr_left (or_iff_left_of_imp ?_).symm
        rintro rfl
        exact hseen
      · generalize hrun : (resolve named (some ⟨path, statement.position⟩)).run call = found
        obtain ⟨file, between⟩ := found
        rw [run_followImports_cons resolve statement rest
          (run_followImport_of_new hread hseen hrun), ih, hnamed, List.map_append, List.mem_append,
          List.map_singleton, List.mem_singleton, or_assoc]

/-- The linker is handed an edge for each path that a statement of the file names. -/
theorem Hands.names {depth site other handed}
    (h : Hands shop depth path site call other handed) :
    ∃ tree, shop.Reads other tree ∧
      ∀ target, tree.Names target ↔ target ∈ handed.edges.map (·.path) := by
  induction h with
  | @itself depth path site call physical tree imports between habsent hread hfollow =>
    refine ⟨tree, Workshop.reads_iff.mpr ⟨physical, hread⟩, fun target => ?_⟩
    unfold followImports at hfollow
    have hedges : target ∈ imports.edges.map (·.path) ↔ _ :=
      hfollow ▸ mem_edges_foldlM_followImport (resolve shop depth) path tree.imports _ target
    exact (hedges.trans (or_iff_right List.not_mem_nil)).symm
  | inside physical tree first statement rest soFar between target habsent hread hstatements
      hfollow htarget hnew hinside ih => exact ih

end Walk

namespace Session

theorem workshop_excuses (settings : Settings) (overlay : Overlay) (store : Store) :
    (workshop settings overlay store).Excuses := by
  intro path tree imports hbroken d hd
  obtain ⟨problem, hmem, hkind⟩ := exists_problem_of_mem_verdict hd
  rw [hkind]
  exact Linked.linkProblems_excused hbroken problem hmem

/-- The linker is handed an edge for each path that the file names; where one of the edges did
not reach a complete file, the call tells of no unknown name in the file. -/
theorem unknown_names_excused_by_edges (settings : Settings) (overlay : Overlay) (store : Store)
    (session : Session) (root path : VirtualPath) (imports : EdgeList)
    (hhands : Walk.Hands (workshop settings overlay store)
      (depthBound (workshop settings overlay store)) root none session.opening path imports) :
    (∃ tree, (workshop settings overlay store).Reads path tree ∧
      ∀ target, tree.Names target ↔ ∃ edge ∈ imports.edges, edge.path = target) ∧
    ((∃ edge ∈ imports.edges, ¬edge.IsIntact) →
      ∀ d ∈ session.reported (workshop settings overlay store) root,
        d.path = path → d.kind ≠ .unresolvedReference) := by
  refine ⟨?_, fun hbroken d hd hpath => ?_⟩
  · obtain ⟨tree, hreads, hnames⟩ := hhands.names
    exact ⟨tree, hreads, fun target => (hnames target).trans List.mem_map⟩
  · obtain ⟨_, hspares⟩ := hhands.spared (workshop_excuses settings overlay store) hbroken
      fun d hd => nomatch hd
    rw [reported_eq] at hd
    rcases conclude_diagnostics root (session.course (workshop settings overlay store) root).1
      (session.course (workshop settings overlay store) root).2 with heq | heq
    · rw [heq] at hd
      exact hspares d hd hpath
    · rw [heq] at hd
      rcases List.mem_append.mp hd with hd | hd
      · exact hspares d hd hpath
      · rw [List.mem_singleton.mp hd]
        exact nofun

/-- The field of the root has the type of a file that is not there. -/
theorem unknown_names_excused_by_edges_missing : ∃ (overlay : Overlay) (files : MemoryFiles)
    (root gone : VirtualPath) (imports : EdgeList),
    Walk.Hands (workshop .standard overlay files.store)
      (depthBound (workshop .standard overlay files.store)) root none (start .silent).opening root
      imports ∧
    (∃ edge ∈ imports.edges, edge.path = gone ∧ ¬edge.IsIntact) ∧
    ((start .silent).reported (workshop .standard overlay files.store) root).map (·.kind) =
      [.pathNotFound] ∧
    ∀ d ∈ (start .silent).reported (workshop .standard overlay files.store) root,
      d.path = root → d.kind ≠ .unresolvedReference := by
  let bytes (text : String) : List UInt8 := text.toList.map fun c => UInt8.ofNat c.toNat
  let root : VirtualPath := ⟨⟨false, ["a.proto"], by decide⟩, by decide⟩
  let gone : VirtualPath := ⟨⟨false, ["b.proto"], by decide⟩, by decide⟩
  let overlay : Overlay := ⟨[⟨⟨false, [], by decide⟩, ⟨"/r"⟩⟩]⟩
  let files : MemoryFiles := ⟨[(⟨"/r/a.proto"⟩,
    bytes "import \"b.proto\"; message A \x7b optional Gone g = 1; \x7d")]⟩
  let shop := workshop .standard overlay files.store
  let followed (found : PhysicalPath × Schema.File) : EdgeList :=
    ((Walk.followImports (Walk.resolve shop (overlay.mappings.length * files.store.size)) root
      found.2.imports).run
        (((start .silent).opening.claiming root).loading [(root, found.1)])).1
  have hedges : (shop.read root).toOption.any (fun found => (followed found).edges.any fun edge =>
      decide (edge.path = gone) && edge.target.isNone) = true := by
    decide +kernel
  obtain ⟨⟨physical, tree⟩, hfound, hany⟩ := (Option.any_eq_true _ _).mp hedges
  have hread : shop.read root = .ok (physical, tree) := Workshop.read_eq_ok_of_toOption hfound
  obtain ⟨edge, hedge, hmissing⟩ := List.any_eq_true.mp hany
  rw [Bool.and_eq_true, decide_eq_true_eq, Option.isNone_iff_eq_none] at hmissing
  have hbroken : ¬edge.IsIntact := by
    rintro ⟨target, htarget, _⟩
    rw [hmissing.2] at htarget
    cases htarget
  have hhands : Walk.Hands shop (depthBound shop) root none (start .silent).opening root
      (followed (physical, tree)) :=
    .itself physical tree _ _ rfl hread rfl
  exact ⟨overlay, files, root, gone, _, hhands, ⟨edge, hedge, hmissing.1, hbroken⟩,
    by decide +kernel,
    (unknown_names_excused_by_edges .standard overlay files.store (start .silent) root root _
      hhands).2 ⟨edge, hedge, hbroken⟩⟩

/-- A statement whose path is not valid yields no file, and yet a name is told to be unknown. -/
theorem unknown_name_told_beside_invalid_path : ∃ (overlay : Overlay) (files : MemoryFiles)
    (root : VirtualPath) (tree : Schema.File),
    (workshop .standard overlay files.store).Reads root tree ∧
    (∃ statement ∈ tree.imports, statement.target? = none) ∧
    ∃ d ∈ (start .silent).reported (workshop .standard overlay files.store) root,
      d.path = root ∧ d.kind = .unresolvedReference := by
  let bytes (text : String) : List UInt8 := text.toList.map fun c => UInt8.ofNat c.toNat
  let root : VirtualPath := ⟨⟨false, ["main.proto"], by decide⟩, by decide⟩
  let overlay : Overlay := ⟨[⟨⟨false, [], by decide⟩, ⟨"/src"⟩⟩]⟩
  let files : MemoryFiles := ⟨[(⟨"/src/main.proto"⟩,
    bytes "import \"../gone.proto\";\nmessage A \x7b optional Gone g = 1; \x7d")]⟩
  let shop := workshop .standard overlay files.store
  have hinvalid : (shop.read root).toOption.any
      (fun found => found.2.imports.any fun statement => statement.target?.isNone) = true := by
    decide +kernel
  obtain ⟨⟨physical, tree⟩, hfound, hany⟩ := (Option.any_eq_true _ _).mp hinvalid
  have hread : shop.read root = .ok (physical, tree) := Workshop.read_eq_ok_of_toOption hfound
  obtain ⟨statement, hstatement, hnone⟩ := List.any_eq_true.mp hany
  exact ⟨overlay, files, root, tree, Workshop.reads_iff.mpr ⟨physical, hread⟩,
    ⟨statement, hstatement, Option.isNone_iff_eq_none.mp hnone⟩, by decide +kernel⟩

end Session

end ProtoSchema
