import ProtoSchema.Proofs.Session.Depth

/-!
Calls of a session, one after the other. Between calls no file is in progress.
From there a call takes the course of its walk over a finite store, and what it
answers and reports is read off the end of that course.
-/

namespace ProtoSchema

open Linked (File)

namespace Session

def Idle (session : Session) : Prop :=
  ∀ path owner, session.ledger.entry? path ≠ some (.pending owner)

def opening (session : Session) : Call :=
  ⟨session.nextWorker, session.ledger, session.loaded, [], [], []⟩

/-- The file that a call obtains for its root, and the call when it has. -/
def course (shop : Workshop) (root : VirtualPath) (session : Session) : Option File × Call :=
  (Walk.resolve shop (depthBound shop) root none).run session.opening

def reported (shop : Workshop) (root : VirtualPath) (session : Session) : List Diagnostic :=
  (({ session with outlet := .buffer [] } : Session).compile shop root).2.drain.1

variable {shop : Workshop} {root : VirtualPath} {session : Session}

theorem compile_eq (shop : Workshop) (root : VirtualPath) (session : Session) :
    session.compile shop root =
      ((conclude root (session.course shop root).1 (session.course shop root).2).1, {
        ledger := (session.course shop root).2.ledger
        loaded := (session.course shop root).2.loaded
        outlet := session.outlet.takeAll
          (conclude root (session.course shop root).1 (session.course shop root).2).2
        nextWorker := session.nextWorker + 1 }) := rfl

theorem reported_eq (shop : Workshop) (root : VirtualPath) (session : Session) :
    session.reported shop root =
      (conclude root (session.course shop root).1 (session.course shop root).2).2 := by
  have houtlet : session.reported shop root = (Outlet.takeAll (.buffer [])
      (conclude root (session.course shop root).1 (session.course shop root).2).2).items := rfl
  rw [houtlet, Outlet.takeAll_buffer]
  rfl

/-- Every outlet takes what is reported. -/
theorem compile_outlet (shop : Workshop) (root : VirtualPath) (session : Session) :
    (session.compile shop root).2.outlet =
      session.outlet.takeAll (session.reported shop root) := by
  rw [reported_eq, compile_eq]

/-- A call ends with the diagnostics of its walk and at most one behind them. -/
theorem conclude_diagnostics (root : VirtualPath) (file : Option File) (call : Call) :
    (conclude root file call).2 = call.diagnostics ∨
      (conclude root file call).2 = call.diagnostics ++ [incompleteRoot root] := by
  unfold conclude
  split
  · exact .inl rfl
  · cases file with
    | none => exact .inr rfl
    | some linked =>
      by_cases hcomplete : linked.complete = true
      · exact .inl (by simp only [hcomplete, if_true])
      · exact .inr (by simp only [hcomplete, Bool.false_eq_true, if_false])

/-- A failure carries all that the call came to and has to say. -/
theorem eq_of_conclude_eq_error {file : Option File} {call : Call} {failure : ImportFailure}
    (h : (conclude root file call).1 = .error failure) :
    failure = ⟨root, file, call.obtained, (conclude root file call).2⟩ := by
  unfold conclude at h ⊢
  split at h
  · next herror =>
    rw [if_pos herror]
    cases h
    rfl
  · next hnone =>
    rw [if_neg hnone]
    split at h
    · next linked =>
      split at h
      · cases h
      · next hcomplete =>
        simp only [hcomplete, Bool.false_eq_true, if_false]
        cases h
        rfl
    · cases h
      rfl

/-- The failure of a call carries everything that the call reported. -/
theorem diagnostics_of_compile_eq_error {failure : ImportFailure}
    (h : (session.compile shop root).1 = .error failure) :
    failure.diagnostics = session.reported shop root := by
  rw [reported_eq]
  rw [compile_eq] at h
  exact congrArg ImportFailure.diagnostics (eq_of_conclude_eq_error h)

theorem conclude_eq_ok {file : Option File} {call : Call} {linked : File} :
    (conclude root file call).1 = .ok linked ↔
      (∀ d ∈ call.diagnostics, ¬d.IsError) ∧ file = some linked ∧ linked.complete = true := by
  unfold conclude
  by_cases herror : ∃ d ∈ call.diagnostics, d.IsError
  · rw [if_pos herror]
    obtain ⟨d, hd, hbad⟩ := herror
    constructor
    · intro h
      cases h
    · intro h
      exact absurd hbad (h.1 d hd)
  · rw [if_neg herror]
    have hnone : ∀ d ∈ call.diagnostics, ¬d.IsError := fun d hd hbad => herror ⟨d, hd, hbad⟩
    cases file with
    | none =>
      constructor
      · intro h
        cases h
      · intro h
        cases h.2.1
    | some found =>
      by_cases hcomplete : found.complete = true
      · simp only [hcomplete, if_true, Except.ok.injEq, Option.some.injEq]
        constructor
        · intro h
          subst h
          exact ⟨hnone, rfl, hcomplete⟩
        · intro h
          exact h.2.1
      · simp only [hcomplete, Bool.false_eq_true, if_false, Option.some.injEq]
        constructor
        · intro h
          cases h
        · intro h
          obtain ⟨_, rfl, h⟩ := h
          exact absurd h hcomplete

theorem Idle.opening_standing (h : session.Idle) : session.opening.Standing where
  pending_iff path owner := by
    constructor
    · intro hpending
      exact absurd hpending (h path owner)
    · intro hmem
      cases hmem.2
  nodup := List.nodup_nil

/-- A call takes its course, since no walk comes to the end of its depth. -/
theorem Idle.course_obtains (h : session.Idle) (hfinite : shop.store.IsFinite)
    (root : VirtualPath) :
    Walk.Obtains shop root none session.opening (session.course shop root).1
      (session.course shop root).2 := by
  refine Walk.resolve_obtains hfinite (depthBound shop) root none h.opening_standing ?_ ?_
  · intro path hpath
    cases hpath
  · simp [depthBound, opening]

theorem Idle.compile (h : session.Idle) (hfinite : shop.store.IsFinite) (root : VirtualPath) :
    (session.compile shop root).2.Idle := by
  obtain ⟨hstanding, hstack, _⟩ := (h.course_obtains hfinite root).standing h.opening_standing
  intro path owner hpending
  have hmem := (hstanding.pending_iff path owner).mp hpending
  rw [hstack] at hmem
  cases hmem.2

theorem start_idle (outlet : Outlet) : (start outlet).Idle := by
  intro path owner h
  cases h

/-- The sessions that come about when one call follows the other. Files, settings
and mappings may change in between. -/
inductive Sequential : Session → Prop
  | start (outlet : Outlet) : Sequential (start outlet)
  | compiled {session : Session} (settings : Settings) (overlay : Overlay) (store : Store)
      (root : VirtualPath) (hfinite : store.IsFinite) (hsession : Sequential session) :
      Sequential (session.compile (workshop settings overlay store) root).2
  | drained {session : Session} (hsession : Sequential session) : Sequential session.drain.2

theorem Sequential.idle (h : session.Sequential) : session.Idle := by
  induction h with
  | start outlet => exact start_idle outlet
  | compiled settings overlay store root hfinite _ ih => exact ih.compile hfinite root
  | drained _ ih => exact ih

end Session

end ProtoSchema
