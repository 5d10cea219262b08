import ProtoSchema.Proofs.Overlay.Serving
import ProtoSchema.Proofs.Session.Course

/-!
Walks take their course. The files in progress are distinct and have a place
each, so there are never more of them than the depth that a session allows; what
a call computes is then told by the course of its walk alone.
-/

namespace ProtoSchema

open Linked (File Import)

namespace Walk

variable {shop : Workshop} {path : VirtualPath} {site : Option ImportSite} {call : Call}

theorem run_bind {α β : Type} {x : Walk α} {f : α → Walk β} {after : Call} {a : α}
    (h : x.run call = (a, after)) : (x >>= f).run call = (f a).run after := by
  rw [StateT.run_bind, h]
  rfl

theorem run_reportAll (ds : List Diagnostic) :
    (reportAll ds).run call = ((), call.noting ds) := rfl

theorem run_request (path : VirtualPath) (call : Call) :
    (request path).run call =
      match call.ledger.request path call.worker with
      | (.blocked, _) => (.cycle, call)
      | (answer, ledger) => (answer, { call with ledger }) := by
  have hget : (get : Walk Call).run call = (call, call) := rfl
  unfold request
  rw [run_bind hget]
  generalize call.ledger.request path call.worker = found
  obtain ⟨answer, ledger⟩ := found
  cases answer <;> rfl

theorem run_request_of_absent (habsent : call.ledger.entry? path = none) :
    (request path).run call =
      (.claimed, { call with ledger := call.ledger.put path (.pending call.worker) }) := by
  rw [run_request, Ledger.request, habsent]

theorem run_request_of_compiled {file : File}
    (hentry : call.ledger.entry? path = some (.compiled file)) :
    (request path).run call = (.compiled file, call) := by
  rw [run_request, Ledger.request, hentry]

theorem run_request_of_failed {reason : Failure}
    (hentry : call.ledger.entry? path = some (.failed reason)) :
    (request path).run call = (.failed reason, call) := by
  rw [run_request, Ledger.request, hentry]

/-- A pending path is a cycle to a walk, whether or not another worker owns it. -/
theorem run_request_of_pending {owner : Worker}
    (hentry : call.ledger.entry? path = some (.pending owner)) :
    (request path).run call = (.cycle, call) := by
  rw [run_request, Ledger.request, hentry]
  by_cases hstuck : owner = call.worker ∨ call.ledger.isStuckOn owner call.worker = true
  · simp only [hstuck, if_true]
  · simp only [hstuck, if_false]

theorem run_obtain (file : File) :
    (obtain file).run call = ((), call.obtaining (some file)) := by
  have hrun : (obtain file).run call = ((),
      if call.obtained.any (·.path = file.path) then call
      else { call with obtained := call.obtained ++ [file] }) := rfl
  rw [hrun]
  unfold Call.obtaining
  by_cases h : call.obtained.any (·.path = file.path) = true
  · simp only [h, if_true]
  · simp only [h, if_false, Bool.false_eq_true]

def finishing (call : Call) (path : VirtualPath) (entry : Ledger.Entry) : Call :=
  { call with ledger := call.ledger.put path entry }

theorem run_finish (entry : Ledger.Entry) :
    (finish path entry).run call = ((), finishing call path entry) := rfl

theorem run_giveUp (reason : Failure) :
    (giveUp path reason).run call = (none, finishing call path (.failed reason)) := rfl

theorem run_leave (entry : Ledger.Entry) (file : Option File) :
    leave.run ((finishing call path entry).obtaining file) =
      ((), (call.closing path entry).obtaining file) := by
  cases file <;> rfl

theorem run_linkFile (tree : Schema.File) (imports : EdgeList) :
    (linkFile shop path tree imports).run call =
      ((shop.verdict path tree imports).2.file?,
        (finishing (call.noting (shop.verdict path tree imports).1) path
          (shop.verdict path tree imports).2).obtaining
            (shop.verdict path tree imports).2.file?) := by
  unfold linkFile Workshop.verdict
  cases shop.link path tree imports.edges with
  | error problems => rw [run_bind (run_reportAll _), run_giveUp]; rfl
  | ok outcome =>
    rw [run_bind (run_reportAll _), run_bind (run_finish _), run_bind (run_obtain _)]
    rfl

theorem run_compileClaimed_of_lost (call : Call) (site : Option ImportSite)
    (resolve : Resolver) {loss : Loss}
    (hread : shop.read path = .error loss) :
    (compileClaimed shop resolve path site).run call =
      (none, finishing ((call.loading (loss.loaded path)).noting (loss.diagnostics path site))
        path (.failed loss.reason)) := by
  have hnothing : call.loading [] = call := by simp [Call.loading]
  unfold Workshop.read at hread
  unfold compileClaimed
  cases hresolve : shop.overlay.resolve shop.store path with
  | error why =>
    simp only [hresolve] at hread
    cases hread
    have hloaded : Loss.loaded path (.missing why) = [] := rfl
    rw [hloaded, hnothing]
    rfl
  | ok physical =>
    cases hload : shop.store.load physical with
    | error why =>
      simp only [hresolve, hload] at hread
      cases hread
      have hloaded : Loss.loaded path (.unreadable why) = [] := rfl
      simp only [hload]
      rw [hloaded, hnothing]
      rfl
    | ok text =>
      cases hparse : shop.parse path text with
      | error errors =>
        simp only [hresolve, hload, hparse] at hread
        cases hread
        simp only [hload, readFile, hparse]
        rfl
      | ok tree =>
        simp only [hresolve, hload, hparse] at hread
        cases hread

theorem run_compileClaimed_of_read (call : Call) (site : Option ImportSite)
    (resolve : Resolver) {physical : PhysicalPath} {tree : Schema.File}
    (hread : shop.read path = .ok (physical, tree)) :
    (compileClaimed shop resolve path site).run call =
      (do
        let imports ← followImports resolve path tree.imports
        linkFile shop path tree imports).run (call.loading [(path, physical)]) := by
  obtain ⟨physical', text, hresolve, hload, hparse⟩ :=
    Workshop.reads_iff.mpr ⟨physical, hread⟩
  have hsame : physical' = physical := by
    simp only [Workshop.read, hresolve, hload, hparse] at hread
    cases hread
    rfl
  subst hsame
  unfold compileClaimed
  simp only [hresolve, hload, readFile, hparse]
  rfl

theorem run_followImports_cons (resolve : Resolver) (statement : Schema.Import)
    (rest : List Schema.Import) {soFar next : EdgeList} {between : Call}
    (hstep : (followImport resolve path soFar statement).run call = (next, between)) :
    ((statement :: rest).foldlM (followImport resolve path) soFar).run call =
      (rest.foldlM (followImport resolve path) next).run between := by
  rw [List.foldlM_cons, run_bind hstep]

section Following

variable {resolve : Resolver} {soFar : EdgeList} {statement : Schema.Import}
  {target : VirtualPath}

theorem run_followImport_of_invalid {why : PathFault}
    (hread : VirtualPath.read statement.path = .error why) :
    (followImport resolve path soFar statement).run call =
      ({ soFar with broken := true },
        call.noting [StatementFault.diagnostic ⟨path, statement.position⟩
          (.invalidPath statement.path why)]) := by
  unfold followImport
  simp only [hread]
  rfl

theorem run_followImport_of_repeated (hread : VirtualPath.read statement.path = .ok target)
    (hseen : target ∈ soFar.edges.map (·.path)) :
    (followImport resolve path soFar statement).run call =
      (soFar, call.noting [StatementFault.diagnostic ⟨path, statement.position⟩
        (.repeated target)]) := by
  have hany : soFar.edges.any (·.path = target) = true := by simpa using hseen
  unfold followImport
  simp only [hread, hany, if_true]
  rfl

theorem run_followImport_of_new {file : Option File} {after : Call}
    (hread : VirtualPath.read statement.path = .ok target)
    (hnew : target ∉ soFar.edges.map (·.path))
    (hrun : (resolve target (some ⟨path, statement.position⟩)).run call = (file, after)) :
    (followImport resolve path soFar statement).run call =
      ({ soFar with
        edges := soFar.edges ++ [⟨target, statement.kind, statement.position, file⟩] },
        after) := by
  have hfresh : ¬soFar.edges.any (·.path = target) = true := by simpa using hnew
  unfold followImport
  simp only [hread, hfresh, Bool.false_eq_true, if_false]
  rw [run_bind hrun]
  rfl

end Following

/-- Statements are followed in their course by a resolver that obtains files in
theirs. -/
theorem followImports_follows (path : VirtualPath) {resolve : Resolver} {stack : List VirtualPath}
    (hresolve : ∀ target site (call : Call), call.Standing → call.stack = stack →
      Obtains shop target site call ((resolve target site).run call).1
        ((resolve target site).run call).2)
    (statements : List Schema.Import) (soFar : EdgeList) (hs : call.Standing)
    (hstack : call.stack = stack) :
    Follows shop path statements soFar call
      ((statements.foldlM (followImport resolve path) soFar).run call).1
      ((statements.foldlM (followImport resolve path) soFar).run call).2 := by
  induction statements generalizing soFar call with
  | nil => exact .done
  | cons statement rest ih =>
    cases hread : VirtualPath.read statement.path with
    | error why =>
      rw [run_followImports_cons resolve statement rest (run_followImport_of_invalid hread)]
      exact .invalid why hread (ih _ (hs.noting _) hstack)
    | ok target =>
      by_cases hseen : target ∈ soFar.edges.map (·.path)
      · rw [run_followImports_cons resolve statement rest
          (run_followImport_of_repeated hread hseen)]
        exact .repeated target hread hseen (ih _ (hs.noting _) hstack)
      · have hobtain := hresolve target (some ⟨path, statement.position⟩) call hs hstack
        generalize hrun : (resolve target (some ⟨path, statement.position⟩)).run call = found
          at hobtain
        obtain ⟨file, between⟩ := found
        rw [run_followImports_cons resolve statement rest
          (run_followImport_of_new hread hseen hrun)]
        obtain ⟨hbetween, hstack', _⟩ := hobtain.standing hs
        exact .followed target file between hread hseen hobtain
          (ih _ hbetween (hstack'.trans hstack))

theorem run_resolve_of_entry (depth : Nat) {answer : Ledger.Answer}
    (hrequest : (request path).run call = (answer, call)) (hclaim : answer ≠ .claimed) :
    (resolve shop depth path site).run call =
      match answer with
      | .compiled file => (some file, call.obtaining (some file))
      | .failed reason =>
        (none, call.noting [ImportFault.diagnostic path site (.failedBefore reason)])
      | _ =>
        (none, call.noting
          [ImportFault.diagnostic path site (.cycle (cycleChain call.stack path))]) := by
  unfold resolve
  rw [run_bind hrequest]
  cases answer with
  | compiled file =>
    simp only
    rw [run_bind (run_obtain file)]
    rfl
  | claimed => exact absurd rfl hclaim
  | failed reason => rfl
  | cycle => rfl
  | blocked => rfl

theorem run_resolve_of_absent (depth : Nat) (file : Option File)
    (habsent : call.ledger.entry? path = none) {between : Call} {entry : Ledger.Entry}
    (hcompile : (compileClaimed shop (resolve shop depth) path site).run (call.claiming path) =
      (file, (finishing between path entry).obtaining file)) :
    (resolve shop (depth + 1) path site).run call =
      (file, (between.closing path entry).obtaining file) := by
  unfold resolve
  rw [run_bind (run_request_of_absent habsent)]
  have henter : (enter path).run
      { call with ledger := call.ledger.put path (.pending call.worker) } =
        ((), call.claiming path) := rfl
  simp only
  rw [run_bind henter, run_bind hcompile, run_bind (run_leave entry file)]
  rfl

theorem run_resolve_of_lost (depth : Nat) (site : Option ImportSite)
    (habsent : call.ledger.entry? path = none) {loss : Loss}
    (hread : shop.read path = .error loss) :
    (resolve shop (depth + 1) path site).run call =
      (none, (((call.claiming path).loading (loss.loaded path)).noting
        (loss.diagnostics path site)).closing path (.failed loss.reason)) :=
  run_resolve_of_absent depth none habsent
    (run_compileClaimed_of_lost (call.claiming path) site (resolve shop depth) hread)

theorem run_resolve_of_read (depth : Nat) (site : Option ImportSite)
    (habsent : call.ledger.entry? path = none) {physical : PhysicalPath} {tree : Schema.File}
    (hread : shop.read path = .ok (physical, tree)) {imports : EdgeList} {between : Call}
    (hfollow : (followImports (resolve shop depth) path tree.imports).run
      ((call.claiming path).loading [(path, physical)]) = (imports, between)) :
    (resolve shop (depth + 1) path site).run call =
      ((shop.verdict path tree imports).2.file?,
        ((between.noting (shop.verdict path tree imports).1).closing path
          (shop.verdict path tree imports).2).obtaining
            (shop.verdict path tree imports).2.file?) := by
  have hcompile := run_compileClaimed_of_read (call.claiming path) site (resolve shop depth) hread
  rw [run_bind hfollow, run_linkFile] at hcompile
  exact run_resolve_of_absent depth _ habsent hcompile

private theorem resolve_obtains_of_entry (depth : Nat) (site : Option ImportSite)
    {entry : Ledger.Entry} (hentry : call.ledger.entry? path = some entry) :
    Obtains shop path site call ((resolve shop depth path site).run call).1
      ((resolve shop depth path site).run call).2 := by
  cases entry with
  | pending owner =>
    rw [run_resolve_of_entry _ (run_request_of_pending hentry) (by simp)]
    exact .cycle owner hentry
  | compiled file =>
    rw [run_resolve_of_entry _ (run_request_of_compiled hentry) (by simp)]
    exact .compiled file hentry
  | failed reason =>
    rw [run_resolve_of_entry _ (run_request_of_failed hentry) (by simp)]
    exact .failed reason hentry

/-- A claimed file takes its course when the files that it names do. -/
private theorem resolve_obtains_of_absent (depth : Nat) (site : Option ImportSite)
    (hs : call.Standing) (hentry : call.ledger.entry? path = none)
    (hbelow : shop.overlay.HasFile shop.store path → ∀ target site (inner : Call),
      inner.Standing → inner.stack = call.stack ++ [path] →
      Obtains shop target site inner ((resolve shop depth target site).run inner).1
        ((resolve shop depth target site).run inner).2) :
    Obtains shop path site call ((resolve shop (depth + 1) path site).run call).1
      ((resolve shop (depth + 1) path site).run call).2 := by
  cases hread : shop.read path with
  | error loss =>
    rw [run_resolve_of_lost depth site hentry hread]
    exact .lost loss hentry hread
  | ok found =>
    obtain ⟨physical, tree⟩ := found
    obtain ⟨place, _, hplace, _⟩ := Workshop.reads_iff.mpr ⟨physical, hread⟩
    have hfollow := followImports_follows path (hbelow ⟨place, hplace⟩) tree.imports ⟨[], false⟩
      ((hs.claiming hentry).loading [(path, physical)]) rfl
    generalize hrun : (tree.imports.foldlM (followImport (resolve shop depth) path)
      ⟨[], false⟩).run ((call.claiming path).loading [(path, physical)]) = found at hfollow
    obtain ⟨imports, between⟩ := found
    rw [run_resolve_of_read depth site hentry hread hrun]
    exact .linked physical tree imports between hentry hread hfollow

/-- A walk takes its course when as many more files can be entered as there may be
files with a place. -/
theorem resolve_obtains (hfinite : shop.store.IsFinite) (depth : Nat) (path : VirtualPath)
    (site : Option ImportSite) (hs : call.Standing)
    (hfile : ∀ p ∈ call.stack, shop.overlay.HasFile shop.store p)
    (hdepth : shop.overlay.mappings.length * shop.store.size < depth + call.stack.length) :
    Obtains shop path site call ((resolve shop depth path site).run call).1
      ((resolve shop depth path site).run call).2 := by
  induction depth generalizing path site call with
  | zero =>
    have := Overlay.length_le_of_hasFile hfinite call.stack hs.nodup hfile
    omega
  | succ depth ih =>
    cases hentry : call.ledger.entry? path with
    | some entry => exact resolve_obtains_of_entry _ site hentry
    | none =>
      refine resolve_obtains_of_absent depth site hs hentry ?_
      intro hplace target site inner hinner hstack
      refine ih target site hinner ?_ ?_
      · intro p hp
        rw [hstack] at hp
        rcases List.mem_append.mp hp with hp | hp
        · exact hfile p hp
        · rw [List.mem_singleton.mp hp]
          exact hplace
      · rw [hstack, List.length_append, List.length_singleton]
        omega

end Walk

end ProtoSchema
