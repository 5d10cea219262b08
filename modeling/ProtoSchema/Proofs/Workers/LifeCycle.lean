import ProtoSchema.Proofs.Workers.Run

/-!
The life of an entry. A path is given to one worker and to no other, its entry
is pending exactly as long as that claim is open, and the result handed in for
it stays and is what every worker is told from then on.
-/

namespace ProtoSchema.Workers

open Ledger (Answer Entry)

variable {s t : Workers} {event : Event} {events : List Event}

def known (s : Workers) (path : VirtualPath) : Nat :=
  match s.ledger.entry? path with
  | none => 0
  | some _ => 1

theorem known_le_one (s : Workers) (path : VirtualPath) : s.known path ≤ 1 := by
  unfold known
  split <;> omega

/-- What a request does to the entries: it claims an absent path or does nothing. -/
theorem request_entry (s : Workers) (path : VirtualPath) (worker : Worker) :
    ((s.request path worker).1.isClaim = true ∧ s.ledger.entry? path = none ∧
      ∀ other, Ledger.entry? (s.request path worker).2.ledger other =
        if other = path then some (.pending worker) else s.ledger.entry? other) ∨
    ((s.request path worker).1.isClaim = false ∧
      ∀ other, Ledger.entry? (s.request path worker).2.ledger other =
        s.ledger.entry? other) := by
  obtain ⟨answer, ledger, hreply, heq⟩ := request_spec s path worker
  rw [heq]
  cases hreply with
  | claimed habsent => exact .inl ⟨rfl, habsent, fun other => Ledger.entry?_put _ _ _ _⟩
  | compiled file hentry => exact .inr ⟨rfl, fun _ => rfl⟩
  | failed reason hentry => exact .inr ⟨rfl, fun _ => rfl⟩
  | cycle owner hentry hstuck => exact .inr ⟨rfl, fun _ => rfl⟩
  | blocked owner hentry hother hfree => exact .inr ⟨rfl, fun _ => rfl⟩

/-- A finished path gives every worker the answer of its entry. -/
theorem request_final {path : VirtualPath} {entry : Entry}
    (hentry : s.ledger.entry? path = some entry) (hfinal : entry.IsFinal) (worker : Worker) :
    entry.answer? = some (s.request path worker).1 := by
  obtain ⟨answer, ledger, hreply, heq⟩ := request_spec s path worker
  rw [heq]
  exact (hreply.of_isFinal hentry hfinal).1

theorem wake_final {path : VirtualPath} {entry : Entry} {worker : Worker}
    (hentry : s.ledger.entry? path = some entry) (hfinal : entry.IsFinal)
    (hwaits : s.ledger.awaited? worker = some path) :
    (s.wake worker).1 = entry.answer? := by
  rw [wake_eq hwaits]
  have hreleased : Ledger.entry? (s.ledger.release worker) path = some entry := hentry
  exact (request_final (s := { s with ledger := s.ledger.release worker }) hreleased hfinal
    worker).symm

/-- What a step does to the entries: it gives out an absent path, it hands in a
result for a claimed one, or it does nothing. -/
theorem Step.entry_cases (hstep : Step s event t) :
    (∃ worker path, (∀ other, event.handsOut other = decide (path = other)) ∧
      event.result? = none ∧ s.ledger.entry? path = none ∧
      ∀ other, t.ledger.entry? other =
        if other = path then some (.pending worker) else s.ledger.entry? other) ∨
    (∃ path result, (∀ other, event.handsOut other = false) ∧
      event.result? = some (path, result) ∧ result.IsFinal ∧ path ∈ s.claims ∧
      ∀ other, t.ledger.entry? other =
        if other = path then some result else s.ledger.entry? other) ∨
    ((∀ other, event.handsOut other = false) ∧ event.result? = none ∧
      ∀ other, t.ledger.entry? other = s.ledger.entry? other) := by
  rcases hstep.cases_request with
    ⟨r, worker, asked, answer, _, hr, hrequest, hevent⟩ | ⟨named, result, hresult, hfinal, hhand⟩
  · have hsame : ∀ other, r.ledger.entry? other = s.ledger.entry? other := by
      intro other
      rcases hr with rfl | rfl
      · rfl
      · rfl
    have hhands : ∀ other, event.handsOut other = (decide (asked = other) && answer.isClaim) := by
      intro other
      rcases hevent with rfl | rfl
      · rfl
      · rfl
    have hnone : event.result? = none := by
      rcases hevent with rfl | rfl
      · rfl
      · rfl
    have hcases := request_entry r asked worker
    rw [hrequest] at hcases
    rcases hcases with ⟨hclaim, habsent, hafter⟩ | ⟨hclaim, hafter⟩
    · refine .inl ⟨worker, asked, ?_, hnone, (hsame asked).symm.trans habsent, ?_⟩
      · intro other
        rw [hhands, show answer.isClaim = true from hclaim, Bool.and_true]
      · intro other
        rw [hafter, hsame]
    · refine .inr (.inr ⟨?_, hnone, ?_⟩)
      · intro other
        rw [hhands, show answer.isClaim = false from hclaim, Bool.and_false]
      · intro other
        rw [hafter, hsame]
  · obtain ⟨hclaim, rfl⟩ := handIn_spec hhand
    refine .inr (.inl ⟨named, result, ?_, hresult, hfinal, hclaim, ?_⟩)
    · intro other
      cases event with
      | asked worker path answer => cases hresult
      | woken worker path answer => cases hresult
      | published path file => rfl
      | failed path reason => rfl
      | dropped path => rfl
    · intro other
      exact Ledger.entry?_put _ _ _ _

/-- How one step changes the entry of a path. -/
theorem Step.moves (hstep : Step s event t) (hs : Sound s) (path : VirtualPath) :
    Entry.Moves (s.ledger.entry? path) (t.ledger.entry? path) := by
  rcases hstep.entry_cases with ⟨worker, named, _, _, habsent, hafter⟩ |
    ⟨named, result, _, _, hfinal, hclaim, hafter⟩ | ⟨_, _, hafter⟩
  · rw [hafter]
    split
    · next heq =>
      rw [heq, habsent]
      exact .begins worker
    · exact .stays _
  · rw [hafter]
    split
    · next heq =>
      obtain ⟨owner, howner⟩ := (hs.mem_claims_iff named).mp hclaim
      rw [heq, howner]
      exact .finishes owner hfinal
    · exact .stays _
  · rw [hafter]
    exact .stays _

/-- A path is given out by the step that makes it known, and by no other. -/
theorem Step.known_eq (hstep : Step s event t) (hs : Sound s) (path : VirtualPath) :
    t.known path = s.known path + if event.handsOut path then 1 else 0 := by
  unfold known
  rcases hstep.entry_cases with ⟨worker, named, hhands, _, habsent, hafter⟩ |
    ⟨named, result, hhands, _, _, hclaim, hafter⟩ | ⟨hhands, _, hafter⟩
  · rw [hafter, hhands]
    by_cases heq : path = named
    · simp [heq, habsent]
    · have hne : named ≠ path := Ne.symm heq
      simp [heq, hne]
  · obtain ⟨owner, howner⟩ := (hs.mem_claims_iff named).mp hclaim
    rw [hafter, hhands]
    by_cases heq : path = named
    · simp [heq, howner]
    · simp [heq]
  · rw [hafter, hhands]
    simp

/-- An entry that a step leaves final was so before or is the one handed in. -/
theorem Step.final_origin (hstep : Step s event t) {path : VirtualPath} {entry : Entry}
    (hentry : t.ledger.entry? path = some entry) (hfinal : entry.IsFinal) :
    s.ledger.entry? path = some entry ∨ event.result? = some (path, entry) := by
  rcases hstep.entry_cases with ⟨worker, named, _, _, _, hafter⟩ |
    ⟨named, result, _, hresult, _, _, hafter⟩ | ⟨_, _, hafter⟩
  · rw [hafter] at hentry
    split at hentry
    · cases hentry
      exact absurd hfinal (Entry.not_isFinal_pending worker)
    · exact .inl hentry
  · rw [hafter] at hentry
    split at hentry
    · next heq =>
      cases hentry
      rw [heq]
      exact .inr hresult
    · exact .inl hentry
  · rw [hafter] at hentry
    exact .inl hentry

/-- A step that hands in a result makes it the entry of its path. -/
theorem Step.handed_in (hstep : Step s event t) {path : VirtualPath} {result : Entry}
    (hresult : event.result? = some (path, result)) :
    result.IsFinal ∧ t.ledger.entry? path = some result := by
  rcases hstep.entry_cases with ⟨_, _, _, hnone, _, _⟩ |
    ⟨named, found, _, hfound, hfinal, _, hafter⟩ | ⟨_, hnone, _⟩
  · rw [hnone] at hresult
    cases hresult
  · rw [hfound] at hresult
    cases hresult
    exact ⟨hfinal, by rw [hafter, if_pos rfl]⟩
  · rw [hnone] at hresult
    cases hresult

/-- A path is given out as often as it becomes known. -/
theorem Run.known_eq (hrun : Run s events t) (hs : Sound s) (path : VirtualPath) :
    t.known path = s.known path + events.countP (·.handsOut path) := by
  induction hrun with
  | nil => simp
  | cons hstep _ ih =>
    rw [ih (hstep.sound hs), hstep.known_eq hs path, List.countP_cons]
    omega

theorem Run.final_stays (hrun : Run s events t) (hs : Sound s) {path : VirtualPath}
    {entry : Entry} (hentry : s.ledger.entry? path = some entry) (hfinal : entry.IsFinal) :
    t.ledger.entry? path = some entry := by
  induction hrun with
  | nil => exact hentry
  | cons hstep _ ih =>
    have hmove := hstep.moves hs path
    rw [hentry] at hmove
    exact ih (hstep.sound hs) (hmove.eq_of_isFinal hfinal)

/-- A result that was handed in is the entry of its path from then on. -/
theorem Run.handed_in (hrun : Run s events t) (hs : Sound s) (hevent : event ∈ events)
    {path : VirtualPath} {result : Entry} (hresult : event.result? = some (path, result)) :
    result.IsFinal ∧ t.ledger.entry? path = some result := by
  induction hrun with
  | nil => cases hevent
  | @cons s m t first rest hstep hrest ih =>
    rcases List.mem_cons.mp hevent with rfl | hlater
    · obtain ⟨hfinal, hentry⟩ := hstep.handed_in hresult
      exact ⟨hfinal, hrest.final_stays (hstep.sound hs) hentry hfinal⟩
    · exact ih (hstep.sound hs) hlater

theorem Run.final_origin (hrun : Run s events t) {path : VirtualPath} {entry : Entry}
    (hentry : t.ledger.entry? path = some entry) (hfinal : entry.IsFinal) :
    s.ledger.entry? path = some entry ∨
      ∃ event ∈ events, event.result? = some (path, entry) := by
  induction hrun with
  | nil => exact .inl hentry
  | cons hstep _ ih =>
    rcases ih hentry with hbefore | ⟨event, hmem, hresult⟩
    · rcases hstep.final_origin hbefore hfinal with hfirst | hresult
      · exact .inl hfirst
      · exact .inr ⟨_, List.mem_cons_self, hresult⟩
    · exact .inr ⟨event, List.mem_cons_of_mem _ hmem, hresult⟩

/-- Open claims and pending entries agree; a path is given out at most once; an
entry moves from absent to pending to its final form, which was handed in; and
what was handed in for a path is the answer to every later request for it. -/
theorem entry_life_cycle {events : List Event} {s : Workers} (hrun : Run .start events s) :
    (∀ path, s.claims.count path =
      match s.ledger.entry? path with
      | some (.pending _) => 1
      | _ => 0) ∧
    (∀ path, events.countP (·.handsOut path) ≤ 1) ∧
    (∀ event t, Step s event t → ∀ path,
      Entry.Moves (s.ledger.entry? path) (t.ledger.entry? path)) ∧
    (∀ path entry, s.ledger.entry? path = some entry → entry.IsFinal →
      ∃ event ∈ events, event.result? = some (path, entry)) ∧
    ∀ event ∈ events, ∀ path result, event.result? = some (path, result) →
      s.ledger.entry? path = some result ∧
      (∀ worker, some (s.request path worker).1 = result.answer?) ∧
      ∀ worker, s.ledger.awaited? worker = some path → (s.wake worker).1 = result.answer? := by
  have hsound := hrun.sound .start
  refine ⟨?_, ?_, ?_, ?_, ?_⟩
  · intro path
    split
    · next owner hentry =>
      exact List.count_eq_one_of_mem hsound.claims_nodup
        ((hsound.mem_claims_iff path).mpr ⟨owner, hentry⟩)
    · next hother =>
      apply List.count_eq_zero_of_not_mem
      intro hclaim
      obtain ⟨owner, hentry⟩ := (hsound.mem_claims_iff path).mp hclaim
      exact hother owner hentry
  · intro path
    have hcount := hrun.known_eq .start path
    have hbound := s.known_le_one path
    omega
  · intro event t hstep path
    exact hstep.moves hsound path
  · intro path entry hentry hfinal
    rcases hrun.final_origin hentry hfinal with hstart | horigin
    · cases hstart
    · exact horigin
  · intro event hevent path result hresult
    obtain ⟨hfinal, hentry⟩ := hrun.handed_in .start hevent hresult
    refine ⟨hentry, ?_, ?_⟩
    · intro worker
      exact (request_final hentry hfinal worker).symm
    · intro worker hwaits
      exact wake_final hentry hfinal hwaits

/-- The first worker drops its claim while the second waits for it; the second is
still noted as waiting and will be told of the failure. -/
theorem entry_life_cycle_dropped : ∃ (path : VirtualPath) (s : Workers),
    Run .start [.asked 1 path .claimed, .asked 2 path .blocked, .dropped path] s ∧
    s.ledger.entry? path = some (.failed .abandoned) ∧
    (s.wake 2).1 = some (.failed .abandoned) := by
  let path : VirtualPath := ⟨⟨false, ["a.proto"], by decide⟩, by decide⟩
  have hrun : Run .start [.asked 1 path .claimed, .asked 2 path .blocked, .dropped path] _ :=
    .cons (.ask 1 path rfl) <| .cons (.ask 2 path rfl) <| .cons (.drop path rfl) (.nil _)
  have hlife := (entry_life_cycle hrun).2.2.2.2 (.dropped path) (by simp) path _ rfl
  exact ⟨path, _, hrun, hlife.1, hlife.2.2 2 rfl⟩

end ProtoSchema.Workers
