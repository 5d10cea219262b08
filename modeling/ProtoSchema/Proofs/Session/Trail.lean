import ProtoSchema.Proofs.Session.Failures

/-!
The trail of diagnostics that the calls of a session leave. The walk of a call is told again
with the outlet of the session beside it: what it reports, it reports to both. They take the
same diagnostics in the same order, so that a buffer holds what the calls since it was last
drained have reported, one call behind the other. A walk that obtains no file has reported an
error, and the one error that a call adds at its end is for a root that is there, incomplete,
and of which nothing else was said.
-/

namespace ProtoSchema

open Linked (File)

structure Relay where
  call : Call
  outlet : Outlet

namespace Relay

def noting (relay : Relay) (ds : List Diagnostic) : Relay :=
  ⟨relay.call.noting ds, relay.outlet.takeAll ds⟩

def doing (relay : Relay) (step : Call → Call) : Relay :=
  { relay with call := step relay.call }

structure Grows (relay after : Relay) (ds : List Diagnostic) : Prop where
  diagnostics_eq : after.call.diagnostics = relay.call.diagnostics ++ ds
  outlet_eq : after.outlet = relay.outlet.takeAll ds

namespace Grows

variable {relay between after : Relay} {ds more : List Diagnostic}

theorem noting (relay : Relay) (ds : List Diagnostic) : relay.Grows (relay.noting ds) ds :=
  ⟨rfl, rfl⟩

theorem doing {step : Call → Call}
    (h : (step relay.call).diagnostics = relay.call.diagnostics) :
    relay.Grows (relay.doing step) [] :=
  ⟨h.trans (List.append_nil _).symm, rfl⟩

theorem trans (h : relay.Grows between ds) (hmore : between.Grows after more) :
    relay.Grows after (ds ++ more) where
  diagnostics_eq := by rw [hmore.diagnostics_eq, h.diagnostics_eq, List.append_assoc]
  outlet_eq := by rw [hmore.outlet_eq, h.outlet_eq, Outlet.takeAll, Outlet.takeAll,
    Outlet.takeAll, List.foldl_append]

end Grows

end Relay

namespace Walk

mutual

/-- How the file at a path is obtained by a walk that may nest to the depth. -/
inductive Relays (shop : Workshop) :
    Nat → VirtualPath → Option ImportSite → Relay → Option File → Relay → Prop
  | compiled {depth path site relay} (file : File)
      (hentry : relay.call.ledger.entry? path = some (.compiled file)) :
      Relays shop depth path site relay (some file) (relay.doing (·.obtaining (some file)))
  | failed {depth path site relay} (reason : Failure)
      (hentry : relay.call.ledger.entry? path = some (.failed reason)) :
      Relays shop depth path site relay none
        (relay.noting [ImportFault.diagnostic path site (.failedBefore reason)])
  | cycle {depth path site relay} (owner : Worker)
      (hentry : relay.call.ledger.entry? path = some (.pending owner)) :
      Relays shop depth path site relay none
        (relay.noting
          [ImportFault.diagnostic path site (.cycle (cycleChain relay.call.stack path))])
  | abandoned {path site relay} (habsent : relay.call.ledger.entry? path = none) :
      Relays shop 0 path site relay none
        (((relay.doing fun call =>
            { call with ledger := call.ledger.put path (.pending call.worker) }).noting
          [ImportFault.diagnostic path site (.failedBefore .abandoned)]).doing
            (finishing · path (.failed .abandoned)))
  | lost {depth path site relay} (loss : Loss)
      (habsent : relay.call.ledger.entry? path = none) (hread : shop.read path = .error loss) :
      Relays shop (depth + 1) path site relay none
        (((relay.doing fun call => (call.claiming path).loading (loss.loaded path)).noting
          (loss.diagnostics path site)).doing (·.closing path (.failed loss.reason)))
  | linked {depth path site relay} (physical : PhysicalPath) (tree : Schema.File)
      (imports : EdgeList) (between : Relay) (habsent : relay.call.ledger.entry? path = none)
      (hread : shop.read path = .ok (physical, tree))
      (hfollow : RelaysBelow shop depth path tree.imports ⟨[], false⟩
        (relay.doing fun call => (call.claiming path).loading [(path, physical)])
        imports between) :
      Relays shop (depth + 1) path site relay (shop.verdict path tree imports).2.file?
        ((between.noting (shop.verdict path tree imports).1).doing fun call =>
          (call.closing path (shop.verdict path tree imports).2).obtaining
            (shop.verdict path tree imports).2.file?)

inductive RelaysBelow (shop : Workshop) :
    Nat → VirtualPath → List Schema.Import → EdgeList → Relay → EdgeList → Relay → Prop
  | done {depth path soFar relay} : RelaysBelow shop depth path [] soFar relay soFar relay
  | invalid {depth path statement rest soFar relay imports after} (why : PathFault)
      (hread : VirtualPath.read statement.path = .error why)
      (hrest : RelaysBelow shop depth path rest { soFar with broken := true }
        (relay.noting [StatementFault.diagnostic ⟨path, statement.position⟩
          (.invalidPath statement.path why)]) imports after) :
      RelaysBelow shop depth path (statement :: rest) soFar relay imports after
  | repeated {depth path statement rest soFar relay imports after} (target : VirtualPath)
      (hread : VirtualPath.read statement.path = .ok target)
      (hseen : target ∈ soFar.edges.map (·.path))
      (hrest : RelaysBelow shop depth path rest soFar
        (relay.noting [StatementFault.diagnostic ⟨path, statement.position⟩
          (.repeated target)]) imports after) :
      RelaysBelow shop depth path (statement :: rest) soFar relay imports after
  | followed {depth path statement rest soFar relay imports after} (target : VirtualPath)
      (file : Option File) (between : Relay)
      (hread : VirtualPath.read statement.path = .ok target)
      (hnew : target ∉ soFar.edges.map (·.path))
      (hrelay : Relays shop depth target (some ⟨path, statement.position⟩) relay file between)
      (hrest : RelaysBelow shop depth path rest
        { soFar with
          edges := soFar.edges ++ [⟨target, statement.kind, statement.position, file⟩] }
        between imports after) :
      RelaysBelow shop depth path (statement :: rest) soFar relay imports after

end

variable {shop : Workshop}

mutual

/-- Nothing is reported to one and not to the other. -/
theorem Relays.grows {depth path site relay file after}
    (h : Relays shop depth path site relay file after) : ∃ ds, relay.Grows after ds := by
  match h with
  | .compiled file _ => exact ⟨_, .doing (Call.obtaining_diagnostics _)⟩
  | .failed _ _ => exact ⟨_, .noting _ _⟩
  | .cycle _ _ => exact ⟨_, .noting _ _⟩
  | .abandoned _ => exact ⟨_, ((Relay.Grows.doing rfl).trans (.noting _ _)).trans (.doing rfl)⟩
  | .lost _ _ _ => exact ⟨_, ((Relay.Grows.doing rfl).trans (.noting _ _)).trans (.doing rfl)⟩
  | .linked _ _ _ between _ _ hfollow =>
    obtain ⟨ds, hbelow⟩ := hfollow.grows
    exact ⟨_, (((Relay.Grows.doing rfl).trans hbelow).trans (.noting _ _)).trans
      (.doing (Call.obtaining_diagnostics _))⟩

theorem RelaysBelow.grows {depth path statements soFar relay imports after}
    (h : RelaysBelow shop depth path statements soFar relay imports after) :
    ∃ ds, relay.Grows after ds := by
  match h with
  | .done => exact ⟨[], (List.append_nil _).symm, rfl⟩
  | .invalid _ _ hrest =>
    obtain ⟨ds, hgrows⟩ := hrest.grows
    exact ⟨_, (Relay.Grows.noting _ _).trans hgrows⟩
  | .repeated _ _ _ hrest =>
    obtain ⟨ds, hgrows⟩ := hrest.grows
    exact ⟨_, (Relay.Grows.noting _ _).trans hgrows⟩
  | .followed _ _ _ _ _ hrelay hrest =>
    obtain ⟨ds, hgrows⟩ := hrelay.grows
    obtain ⟨more, hmore⟩ := hrest.grows
    exact ⟨_, hgrows.trans hmore⟩

end

/-- The file that is obtained is the one that is published in the end. -/
theorem Relays.file_eq {depth path site relay file after}
    (h : Relays shop depth path site relay file after) :
    file = (after.call.ledger.entry? path).bind Ledger.Entry.file? := by
  cases h with
  | compiled file hentry =>
    simp only [Relay.doing, Call.obtaining_ledger, hentry]
    rfl
  | failed reason hentry =>
    simp only [Relay.noting, Call.noting_ledger, hentry]
    rfl
  | cycle owner hentry =>
    simp only [Relay.noting, Call.noting_ledger, hentry]
    rfl
  | abandoned habsent =>
    simp only [Relay.doing, Relay.noting, finishing, Ledger.entry?_put_self]
    rfl
  | lost loss habsent hread =>
    simp only [Relay.doing, Relay.noting, Call.closing_ledger, Ledger.entry?_put_self]
    rfl
  | linked physical tree imports between habsent hread hfollow =>
    simp only [Relay.doing, Call.obtaining_ledger, Call.closing_ledger, Ledger.entry?_put_self]
    rfl

/-- Statements are followed in this way by a resolver that obtains files in it. -/
theorem followImports_relays {depth : Nat} {resolve : Resolver} (path : VirtualPath)
    (hresolve : ∀ target site (relay : Relay), ∃ outlet,
      Relays shop depth target site relay ((resolve target site).run relay.call).1
        ⟨((resolve target site).run relay.call).2, outlet⟩)
    (statements : List Schema.Import) (soFar : EdgeList) (relay : Relay) :
    ∃ outlet, RelaysBelow shop depth path statements soFar relay
      ((statements.foldlM (followImport resolve path) soFar).run relay.call).1
      ⟨((statements.foldlM (followImport resolve path) soFar).run relay.call).2, outlet⟩ := by
  induction statements generalizing soFar relay with
  | nil => exact ⟨relay.outlet, .done⟩
  | cons statement rest ih =>
    cases hread : VirtualPath.read statement.path with
    | error why =>
      rw [run_followImports_cons resolve statement rest (run_followImport_of_invalid hread)]
      obtain ⟨outlet, hrest⟩ := ih { soFar with broken := true } (relay.noting
        [StatementFault.diagnostic ⟨path, statement.position⟩ (.invalidPath statement.path why)])
      exact ⟨outlet, .invalid why hread hrest⟩
    | ok target =>
      by_cases hseen : target ∈ soFar.edges.map (·.path)
      · rw [run_followImports_cons resolve statement rest
          (run_followImport_of_repeated hread hseen)]
        obtain ⟨outlet, hrest⟩ := ih soFar (relay.noting
          [StatementFault.diagnostic ⟨path, statement.position⟩ (.repeated target)])
        exact ⟨outlet, .repeated target hread hseen hrest⟩
      · obtain ⟨between, hrelay⟩ := hresolve target (some ⟨path, statement.position⟩) relay
        generalize hrun : (resolve target (some ⟨path, statement.position⟩)).run relay.call = found
          at hrelay
        obtain ⟨file, call⟩ := found
        rw [run_followImports_cons resolve statement rest
          (run_followImport_of_new hread hseen hrun)]
        obtain ⟨outlet, hrest⟩ := ih _ ⟨call, between⟩
        exact ⟨outlet, .followed target file _ hread hseen hrelay hrest⟩

private theorem resolve_relays_of_entry (depth : Nat) (path : VirtualPath)
    (site : Option ImportSite) (relay : Relay) {entry : Ledger.Entry}
    (hentry : relay.call.ledger.entry? path = some entry) :
    ∃ outlet, Relays shop depth path site relay
      ((resolve shop depth path site).run relay.call).1
      ⟨((resolve shop depth path site).run relay.call).2, outlet⟩ := by
  cases entry with
  | pending owner =>
    rw [run_resolve_of_entry _ (run_request_of_pending hentry) (by simp)]
    exact ⟨_, .cycle owner hentry⟩
  | compiled file =>
    rw [run_resolve_of_entry _ (run_request_of_compiled hentry) (by simp)]
    exact ⟨_, .compiled file hentry⟩
  | failed reason =>
    rw [run_resolve_of_failed depth site hentry]
    exact ⟨_, .failed reason hentry⟩

/-- Every walk goes in this way, whatever its depth. -/
theorem resolve_relays (shop : Workshop) (depth : Nat) (path : VirtualPath)
    (site : Option ImportSite) (relay : Relay) :
    ∃ outlet, Relays shop depth path site relay
      ((resolve shop depth path site).run relay.call).1
      ⟨((resolve shop depth path site).run relay.call).2, outlet⟩ := by
  induction depth generalizing path site relay with
  | zero =>
    cases hentry : relay.call.ledger.entry? path with
    | some entry => exact resolve_relays_of_entry 0 path site relay hentry
    | none =>
      rw [run_resolve_of_exhausted site hentry]
      exact ⟨_, .abandoned hentry⟩
  | succ depth ih =>
    cases hentry : relay.call.ledger.entry? path with
    | some entry => exact resolve_relays_of_entry (depth + 1) path site relay hentry
    | none =>
      cases hread : shop.read path with
      | error loss =>
        rw [run_resolve_of_lost depth site hentry hread]
        exact ⟨_, .lost loss hentry hread⟩
      | ok found =>
        obtain ⟨physical, tree⟩ := found
        obtain ⟨outlet, hfollow⟩ := followImports_relays path ih tree.imports ⟨[], false⟩
          (relay.doing fun call => (call.claiming path).loading [(path, physical)])
        generalize hrun : (tree.imports.foldlM (followImport (resolve shop depth) path)
          ⟨[], false⟩).run (relay.doing fun call =>
            (call.claiming path).loading [(path, physical)]).call = found at hfollow
        obtain ⟨imports, call⟩ := found
        rw [run_resolve_of_read depth site hentry hread hrun]
        exact ⟨_, .linked physical tree imports ⟨call, outlet⟩ hentry hread hfollow⟩

end Walk

namespace Session

variable {shop : Workshop} {root : VirtualPath} {session : Session}
  {segments : List (List Diagnostic)}

def reportedAll (shop : Workshop) : List VirtualPath → Session → List (List Diagnostic)
  | [], _ => []
  | root :: rest, session =>
    session.reported shop root :: reportedAll shop rest (session.compile shop root).2

/-- The session began with an empty buffer, and the calls since it was last drained have
reported these diagnostics, call by call. Parser, linker and files are any, for each call. -/
inductive Trail : List (List Diagnostic) → Session → Prop
  | start : Trail [] (start (.buffer []))
  | compiled {segments : List (List Diagnostic)} {session : Session} (shop : Workshop)
      (root : VirtualPath) (htrail : Trail segments session) :
      Trail (segments ++ [session.reported shop root]) (session.compile shop root).2
  | compiledAll {segments : List (List Diagnostic)} {session : Session} (shop : Workshop)
      (roots : List VirtualPath) (htrail : Trail segments session) :
      Trail (segments ++ reportedAll shop roots session) (session.compileAll shop roots).2
  | drained {segments : List (List Diagnostic)} {session : Session}
      (htrail : Trail segments session) : Trail [] session.drain.2

theorem compileAll_outlet (roots : List VirtualPath) (session : Session) :
    (session.compileAll shop roots).2.outlet =
      session.outlet.takeAll (reportedAll shop roots session).flatten := by
  induction roots generalizing session with
  | nil => rfl
  | cons root rest ih =>
    refine (ih (session.compile shop root).2).trans ?_
    rw [compile_outlet, reportedAll, List.flatten_cons, Outlet.takeAll, Outlet.takeAll,
      Outlet.takeAll, List.foldl_append]

/-- The buffer holds what was reported, one call behind the other. -/
theorem Trail.outlet_eq (h : Trail segments session) :
    session.outlet = .buffer segments.flatten := by
  induction h with
  | start => rfl
  | compiled shop root _ ih =>
    rw [compile_outlet, ih, Outlet.takeAll_buffer, List.flatten_append, List.flatten_singleton]
  | compiledAll shop roots _ ih =>
    rw [compileAll_outlet, ih, Outlet.takeAll_buffer, List.flatten_append]
  | @drained segments session _ ih =>
    have hdrained : session.drain.2.outlet = session.outlet.drained := rfl
    rw [hdrained, ih]
    rfl

theorem conclude_eq_append_iff {file : Option File} {call : Call} :
    (conclude root file call).2 = call.diagnostics ++ [incompleteRoot root] ↔
      (∀ d ∈ call.diagnostics, ¬d.IsError) ∧
        ∀ linked, file = some linked → linked.complete = false := by
  have hlonger : call.diagnostics ≠ call.diagnostics ++ [incompleteRoot root] := by simp
  unfold conclude
  by_cases herror : ∃ d ∈ call.diagnostics, d.IsError
  · rw [if_pos herror]
    obtain ⟨d, hd, hbad⟩ := herror
    exact ⟨fun h => absurd h hlonger, fun h => absurd hbad (h.1 d hd)⟩
  · rw [if_neg herror]
    have hnone : ∀ d ∈ call.diagnostics, ¬d.IsError := fun d hd hbad => herror ⟨d, hd, hbad⟩
    cases file with
    | none => exact ⟨fun _ => ⟨hnone, nofun⟩, fun _ => rfl⟩
    | some linked =>
      by_cases hcomplete : linked.complete = true
      · simp only [hcomplete, if_true]
        refine ⟨fun h => absurd h hlonger, fun h => ?_⟩
        rw [h.2 linked rfl] at hcomplete
        cases hcomplete
      · simp only [hcomplete, Bool.false_eq_true, if_false, true_iff]
        refine ⟨hnone, ?_⟩
        rintro _ ⟨⟩
        exact Bool.eq_false_iff.mpr hcomplete

/-- A call obtains the file that its root is published as. -/
theorem course_eq_some_iff {linked : File} : (session.course shop root).1 = some linked ↔
    (session.compile shop root).2.ledger.entry? root = some (.compiled linked) := by
  obtain ⟨outlet, hrelays⟩ := Walk.resolve_relays shop (depthBound shop) root none
    ⟨session.opening, session.outlet⟩
  have hfile : (session.course shop root).1 =
      ((session.compile shop root).2.ledger.entry? root).bind Ledger.Entry.file? :=
    hrelays.file_eq
  rw [hfile]
  cases (session.compile shop root).2.ledger.entry? root with
  | none => simp
  | some entry => cases entry <;> simp [Ledger.Entry.file?]

theorem exists_isError_of_course_eq_none (h : (session.course shop root).1 = none) :
    ∃ d ∈ (session.course shop root).2.diagnostics, d.IsError := by
  obtain ⟨ds, haccounts⟩ :=
    Walk.speaks_resolve shop (depthBound shop) root none session.opening
  obtain ⟨d, hd, htells⟩ := haccounts.tells h
  have heq : (session.course shop root).2.diagnostics = session.opening.diagnostics ++ ds :=
    haccounts.diagnostics_eq
  exact ⟨d, heq ▸ List.mem_append_right _ hd, htells.isError⟩

/-- A call reports what its walk has met, and at most one error more. -/
theorem reported_eq_or (shop : Workshop) (root : VirtualPath) (session : Session) :
    session.reported shop root = (session.course shop root).2.diagnostics ∨
    session.reported shop root =
      (session.course shop root).2.diagnostics ++ [incompleteRoot root] := by
  rw [reported_eq]
  exact conclude_diagnostics _ _ _

/-- The error at the end is for a root that is there and incomplete, when nothing else tells of
it. -/
theorem reported_eq_append_iff : session.reported shop root =
      (session.course shop root).2.diagnostics ++ [incompleteRoot root] ↔
    (∃ linked, (session.compile shop root).2.ledger.entry? root = some (.compiled linked) ∧
      linked.complete = false) ∧
    ∀ d ∈ (session.course shop root).2.diagnostics, ¬d.IsError := by
  rw [reported_eq, conclude_eq_append_iff]
  constructor
  · rintro ⟨hclean, hbroken⟩
    refine ⟨?_, hclean⟩
    cases hfile : (session.course shop root).1 with
    | none =>
      obtain ⟨d, hd, hbad⟩ := exists_isError_of_course_eq_none hfile
      exact absurd hbad (hclean d hd)
    | some linked => exact ⟨linked, course_eq_some_iff.mp hfile, hbroken linked hfile⟩
  · rintro ⟨⟨linked, hentry, hbroken⟩, hclean⟩
    refine ⟨hclean, fun other hother => ?_⟩
    rw [course_eq_some_iff.mpr hentry] at hother
    cases hother
    exact hbroken

/-- A call succeeds with a root that is there and complete, if it has no error to report. -/
theorem compile_eq_ok_iff {linked : File} : (session.compile shop root).1 = .ok linked ↔
    (session.compile shop root).2.ledger.entry? root = some (.compiled linked) ∧
      linked.complete = true ∧ ∀ d ∈ session.reported shop root, ¬d.IsError := by
  have hreported := reported_eq_or shop root session
  rw [compile_eq, conclude_eq_ok, course_eq_some_iff]
  constructor
  · rintro ⟨hclean, hentry, hcomplete⟩
    refine ⟨hentry, hcomplete, ?_⟩
    rw [hreported.resolve_right fun hlonger => ?_]
    · exact hclean
    · obtain ⟨⟨other, hother, hbroken⟩, _⟩ := reported_eq_append_iff.mp hlonger
      rw [hentry] at hother
      cases hother
      rw [hcomplete] at hbroken
      cases hbroken
  · rintro ⟨hentry, hcomplete, hclean⟩
    refine ⟨fun d hd => hclean d ?_, hentry, hcomplete⟩
    rcases hreported with heq | heq
    · exact heq ▸ hd
    · exact heq ▸ List.mem_append_left _ hd

/-- What a call has to say in the end, when its walk has met the diagnostics. -/
structure Concludes (shop : Workshop) (root : VirtualPath) (session : Session)
    (met : List Diagnostic) : Prop where
  reported : session.reported shop root = met ∨
    session.reported shop root = met ++ [incompleteRoot root]
  incomplete_iff : session.reported shop root = met ++ [incompleteRoot root] ↔
    (∃ linked, (session.compile shop root).2.ledger.entry? root = some (.compiled linked) ∧
      linked.complete = false) ∧ ∀ d ∈ met, ¬d.IsError
  lost : (∀ linked, (session.compile shop root).2.ledger.entry? root ≠
    some (.compiled linked)) → session.reported shop root = met ∧ ∃ d ∈ met, d.IsError
  failure : ∀ failure, (session.compile shop root).1 = .error failure →
    failure.diagnostics = session.reported shop root
  ok_iff : ∀ linked, (session.compile shop root).1 = .ok linked ↔
    (session.compile shop root).2.ledger.entry? root = some (.compiled linked) ∧
      linked.complete = true ∧ ∀ d ∈ session.reported shop root, ¬d.IsError

theorem concludes (shop : Workshop) (root : VirtualPath) (session : Session) :
    session.Concludes shop root (session.course shop root).2.diagnostics where
  reported := reported_eq_or shop root session
  incomplete_iff := reported_eq_append_iff
  lost hlost := by
    refine ⟨(reported_eq_or shop root session).resolve_right fun hlonger => ?_,
      exists_isError_of_course_eq_none ?_⟩
    · obtain ⟨⟨linked, hentry, _⟩, _⟩ := reported_eq_append_iff.mp hlonger
      exact hlost linked hentry
    · exact Option.eq_none_iff_forall_ne_some.mpr fun linked hfile =>
        hlost linked (course_eq_some_iff.mp hfile)
  failure _ := diagnostics_of_compile_eq_error
  ok_iff _ := compile_eq_ok_iff

/-- Draining gives what the calls since the last time have reported, call by call. A walk
reports to the call and to the buffer alike, in the order in which it comes upon things; the
answer of a call goes by the diagnostics of that call alone, and these end with the error about
an incomplete root just when nothing else tells of it. -/
theorem drain_gives_trail (h : Trail segments session) :
    session.drain.1 = segments.flatten ∧
    ∀ shop root, ∃ outlet,
      Walk.Relays shop (depthBound shop) root none ⟨session.opening, session.outlet⟩
        (session.course shop root).1 ⟨(session.course shop root).2, outlet⟩ ∧
      outlet.items = segments.flatten ++ (session.course shop root).2.diagnostics ∧
      session.Concludes shop root (session.course shop root).2.diagnostics := by
  have houtlet := h.outlet_eq
  refine ⟨?_, fun shop root => ?_⟩
  · rw [drain, houtlet]
    rfl
  · obtain ⟨outlet, hrelays⟩ := Walk.resolve_relays shop (depthBound shop) root none
      ⟨session.opening, session.outlet⟩
    refine ⟨outlet, hrelays, ?_, concludes shop root session⟩
    obtain ⟨ds, hdiagnostics, htaken⟩ := hrelays.grows
    have hmet : (session.course shop root).2.diagnostics = ds := hdiagnostics
    have hbuffer : outlet = (Outlet.buffer segments.flatten).takeAll ds := houtlet ▸ htaken
    rw [hmet, hbuffer, Outlet.takeAll_buffer]
    rfl

/-- A file with a missing import, asked for twice: the second call meets nothing new. -/
theorem drain_gives_trail_incomplete : ∃ (shop : Workshop) (root : VirtualPath),
    let first := start (.buffer [])
    let second := (first.compile shop root).2
    (first.reported shop root).map (·.kind) = [.pathNotFound] ∧
      second.reported shop root = [incompleteRoot root] ∧
      (second.compile shop root).2.drain.1 =
        [first.reported shop root, second.reported shop root].flatten := by
  let bytes (text : String) : List UInt8 := text.toList.map fun c => UInt8.ofNat c.toNat
  let root : VirtualPath := ⟨⟨false, ["a.proto"], by decide⟩, by decide⟩
  let overlay : Overlay := ⟨[⟨⟨false, [], by decide⟩, ⟨"/r"⟩⟩]⟩
  let files : MemoryFiles := ⟨[(⟨"/r/a.proto"⟩, bytes "import \"b.proto\"; message A {}")]⟩
  let shop : Workshop := workshop .standard overlay files.store
  exact ⟨shop, root, by decide +kernel, by decide +kernel,
    (drain_gives_trail (.compiled shop root (.compiled shop root .start))).1⟩

end Session

end ProtoSchema
