import ProtoSchema.Proofs.Workers.LifeCycle

/-!
What becomes of a call that blocked. Other workers' steps leave its note alone, and the
worker itself asks for nothing until the call returns. A wake-up before the result of the
path is handed in finds the path still pending under its owner, which cannot have come to
wait for the worker since then, so that the worker waits again. The first wake-up after
that returns the result.
-/

namespace ProtoSchema.Workers

open Ledger (Answer Entry)
open Relation

variable {s t : Workers} {event : Event} {events : List Event} {worker : Worker}
  {path : VirtualPath} {answer : Answer} {result : Entry}

def Event.worker? : Event → Option Worker
  | .asked worker _ _ | .woken worker _ _ => some worker
  | _ => none

/-- In these steps the worker does nothing but ask again for the path and stay blocked. -/
def StaysBlocked (worker : Worker) (path : VirtualPath) (events : List Event) : Prop :=
  ∀ event ∈ events, event.worker? = some worker → event = .woken worker path .blocked

def HandsIn (events : List Event) (path : VirtualPath) (result : Entry) : Prop :=
  ∃ event ∈ events, event.result? = some (path, result)

theorem StaysBlocked.cons
    (hfirst : event.worker? = some worker → event = .woken worker path .blocked)
    (h : StaysBlocked worker path events) : StaysBlocked worker path (event :: events) :=
  List.forall_mem_cons.mpr ⟨hfirst, h⟩

theorem Run.append_iff {more : List Event} :
    Run s (events ++ more) t ↔ ∃ m, Run s events m ∧ Run m more t := by
  constructor
  · intro hrun
    induction events generalizing s with
    | nil => exact ⟨s, .nil s, hrun⟩
    | cons first rest ih =>
      cases hrun with
      | cons hstep hrest =>
        obtain ⟨m, hfront, hback⟩ := ih hrest
        exact ⟨m, .cons hstep hfront, hback⟩
  · rintro ⟨m, hfront, hback⟩
    induction hfront with
    | nil => exact hback
    | cons hstep _ ih => exact .cons hstep (ih hback)

/-- A request leaves the notes of the other workers alone. -/
theorem request_awaited? (s : Workers) (path : VirtualPath) {asking : Worker}
    (hother : worker ≠ asking) :
    (s.request path asking).2.ledger.awaited? worker = s.ledger.awaited? worker := by
  obtain ⟨answer, ledger, hreply, heq⟩ := request_spec s path asking
  rw [heq]
  cases hreply with
  | claimed habsent => rfl
  | compiled file hentry => rfl
  | failed reason hentry => rfl
  | cycle owner hentry hstuck => rfl
  | blocked owner hentry hne hfree => rw [Ledger.awaited?_await, if_neg hother]

/-- Only its own steps change what a worker waits for. -/
theorem Step.awaited?_eq (hstep : Step s event t) (hother : event.worker? ≠ some worker) :
    t.ledger.awaited? worker = s.ledger.awaited? worker := by
  rcases hstep.cases_request with
    ⟨r, asking, named, answer, _, hr, hrequest, hevent⟩ | ⟨named, result, _, _, hhand⟩
  · have hne : worker ≠ asking := by
      rintro rfl
      rcases hevent with rfl | rfl
      · exact hother rfl
      · exact hother rfl
    have hkept := request_awaited? r named hne
    rw [hrequest] at hkept
    rw [hkept]
    rcases hr with rfl | rfl
    · rfl
    · rw [Ledger.awaited?_release, if_neg hne]
  · obtain ⟨_, rfl⟩ := handIn_spec hhand
    rfl

/-- A worker that waits is woken, and nothing else, until its call returns. -/
theorem Step.eq_woken (hstep : Step s event t) (hwaits : s.ledger.awaited? worker = some path)
    (hworker : event.worker? = some worker) :
    ∃ answer, event = .woken worker path answer ∧ s.wake worker = (some answer, t) := by
  cases hstep with
  | ask asking named hidle =>
    cases hworker
    rw [hwaits] at hidle
    cases hidle
  | wake asking named answer hnamed hwake =>
    cases hworker
    rw [hwaits] at hnamed
    cases hnamed
    exact ⟨answer, rfl, hwake⟩
  | publish named file hpublish => cases hworker
  | fail named reason hfail => cases hworker
  | drop named hdrop => cases hworker

/-- Woken while its path is pending, a worker blocks again: a cycle would be one of waits
that was there before. -/
theorem wake_of_pending (hs : Sound s) (hwaits : s.ledger.awaited? worker = some path)
    {owner : Worker} (hentry : s.ledger.entry? path = some (.pending owner)) :
    (s.wake worker).1 = some .blocked ∧
      (s.wake worker).2.ledger.awaited? worker = some path := by
  have hreleased : Sound { s with ledger := s.ledger.release worker } := hs.release worker
  have hcircle : ¬ReflTransGen (s.ledger.release worker).WaitsFor owner worker := by
    intro hback
    have hmono : ReflTransGen s.ledger.WaitsFor owner worker :=
      ReflTransGen.mono (fun _ _ => Ledger.WaitsFor.of_release) _ _ hback
    exact hs.acyclic worker (.head' ⟨path, hwaits, hentry⟩ hmono)
  rw [wake_eq hwaits]
  obtain ⟨answer, ledger, hreply, heq⟩ :=
    request_spec { s with ledger := s.ledger.release worker } path worker
  rw [heq]
  have hpending : Ledger.entry? (s.ledger.release worker) path = some (.pending owner) := hentry
  rcases hreply.of_pending hpending with ⟨hcycle, _⟩ | ⟨rfl, rfl⟩
  · obtain ⟨other, hfound, hback⟩ := (hreply.eq_cycle_iff hreleased.acyclic).mp hcycle
    rw [hpending] at hfound
    cases hfound
    exact absurd hback hcircle
  · refine ⟨rfl, ?_⟩
    rw [Ledger.awaited?_await, if_pos rfl]

theorem wake_of_final (hwaits : s.ledger.awaited? worker = some path)
    (hentry : s.ledger.entry? path = some result) (hfinal : result.IsFinal) :
    (s.wake worker).1 = result.answer? ∧ (s.wake worker).2.ledger.awaited? worker = none := by
  refine ⟨wake_final hentry hfinal hwaits, ?_⟩
  have hfound : Ledger.entry? (s.ledger.release worker) path = some result := hentry
  rw [wake_eq hwaits]
  obtain ⟨answer, ledger, hreply, heq⟩ :=
    request_spec { s with ledger := s.ledger.release worker } path worker
  obtain ⟨_, rfl⟩ := hreply.of_isFinal hfound hfinal
  rw [heq, Ledger.awaited?_release_self]

/-- What a wake-up finds, and what it leaves behind. -/
theorem Step.woken_cases (hstep : Step s (.woken worker path answer) t) (hs : Sound s) :
    (answer = .blocked ∧ (∃ owner, s.ledger.entry? path = some (.pending owner)) ∧
      t.ledger.awaited? worker = some path) ∨
    ∃ result, result.answer? = some answer ∧ result.IsFinal ∧
      s.ledger.entry? path = some result ∧ t.ledger.awaited? worker = none := by
  cases hstep with
  | wake _ _ _ hwaits hwake =>
    cases hentry : s.ledger.entry? path with
    | none => exact absurd hentry (hs.awaited_known worker path hwaits)
    | some found =>
      by_cases hfinal : found.IsFinal
      · obtain ⟨hanswer, hnone⟩ := wake_of_final hwaits hentry hfinal
        rw [hwake] at hanswer hnone
        exact .inr ⟨found, hanswer.symm, hfinal, rfl, hnone⟩
      · cases found with
        | pending owner =>
          obtain ⟨hanswer, hawaited⟩ := wake_of_pending hs hwaits hentry
          rw [hwake] at hanswer hawaited
          exact .inl ⟨Option.some.inj hanswer, ⟨owner, rfl⟩, hawaited⟩
        | compiled file => exact absurd trivial hfinal
        | failed reason => exact absurd trivial hfinal

/-- A request that blocks leaves the worker waiting for a pending path. -/
theorem Step.of_blocked (hstep : Step s (.asked worker path .blocked) t) :
    t.ledger.awaited? worker = some path ∧
      ∃ owner, t.ledger.entry? path = some (.pending owner) := by
  rcases hstep.cases_request with
    ⟨r, asking, named, answer, _, _, hrequest, hevent⟩ | ⟨named, result, hresult, _, _⟩
  · rcases hevent with hevent | hevent
    · cases hevent
      obtain ⟨answer, ledger, hreply, heq⟩ := request_spec r path worker
      rw [hrequest, Prod.mk.injEq] at heq
      obtain ⟨rfl, rfl⟩ := heq
      cases hreply with
      | blocked owner hentry hne hfree =>
        refine ⟨?_, owner, hentry⟩
        rw [Ledger.awaited?_await, if_pos rfl]
    · cases hevent
  · cases hresult

/-- From a state in which the path has no result, what is handed in is its entry. -/
theorem Run.handsIn_iff (hrun : Run s events t) (hs : Sound s)
    (hopen : ∀ entry, s.ledger.entry? path = some entry → ¬entry.IsFinal) :
    HandsIn events path result ↔ result.IsFinal ∧ t.ledger.entry? path = some result := by
  constructor
  · rintro ⟨event, hevent, hresult⟩
    exact hrun.handed_in hs hevent hresult
  · rintro ⟨hfinal, hentry⟩
    rcases hrun.final_origin hentry hfinal with hbefore | horigin
    · exact absurd hfinal (hopen result hbefore)
    · exact horigin

/-- A step of its own either blocks a waiting worker again or tells it the result. -/
theorem Step.stays_blocked_or_returns (hstep : Step s event t) (hs : Sound s)
    (hwaits : s.ledger.awaited? worker = some path) :
    ((event.worker? = some worker → event = .woken worker path .blocked) ∧
      t.ledger.awaited? worker = some path) ∨
    ∃ answer result, event = .woken worker path answer ∧ result.IsFinal ∧
      s.ledger.entry? path = some result ∧ result.answer? = some answer := by
  by_cases hworker : event.worker? = some worker
  · obtain ⟨answer, rfl, _⟩ := hstep.eq_woken hwaits hworker
    rcases hstep.woken_cases hs with ⟨rfl, _, hawaited⟩ | ⟨result, hanswer, hfinal, hentry, _⟩
    · exact .inl ⟨fun _ => rfl, hawaited⟩
    · exact .inr ⟨answer, result, rfl, hfinal, hentry, hanswer⟩
  · exact .inl ⟨fun h => absurd h hworker, (hstep.awaited?_eq hworker).trans hwaits⟩

/-- The induction is on the steps from where the worker waits; it ends at the first wake-up
that finds a result. -/
theorem Run.stays_blocked_or_returns (hrun : Run s events t) (hs : Sound s)
    (hwaits : s.ledger.awaited? worker = some path) :
    (StaysBlocked worker path events ∧ t.ledger.awaited? worker = some path) ∨
    ∃ front answer back m result, events = front ++ Event.woken worker path answer :: back ∧
      StaysBlocked worker path front ∧ Run s front m ∧ result.IsFinal ∧
      m.ledger.entry? path = some result ∧ result.answer? = some answer := by
  induction hrun with
  | nil s => exact .inl ⟨by simp [StaysBlocked], hwaits⟩
  | @cons s m t event rest hstep hrest ih =>
    rcases hstep.stays_blocked_or_returns hs hwaits with
      ⟨hfirst, hawaited⟩ | ⟨answer, result, rfl, hreturns⟩
    · rcases ih (hstep.sound hs) hawaited with
        ⟨hblocked, hend⟩ | ⟨front, answer, back, u, result, rfl, hblocked, hfront, hreturns⟩
      · exact .inl ⟨hblocked.cons hfirst, hend⟩
      · exact .inr ⟨event :: front, answer, back, u, result, rfl, hblocked.cons hfirst,
          .cons hstep hfront, hreturns⟩
    · exact .inr ⟨[], answer, rest, s, result, rfl, by simp [StaysBlocked], .nil s, hreturns⟩

/-- What any worker that waits for the path is told when it is woken. -/
theorem Run.woken_answer {front back : List Event}
    (hrun : Run .start (front ++ .woken worker path answer :: back) s) :
    (answer = .blocked ∧ ∀ result, ¬HandsIn front path result) ∨
      ∃ result, HandsIn front path result ∧ result.answer? = some answer := by
  obtain ⟨m, hfront, hrest⟩ := Run.append_iff.mp hrun
  have hiff (result : Entry) : HandsIn front path result ↔ _ :=
    hfront.handsIn_iff .start fun entry hentry => by cases hentry
  cases hrest with
  | cons hstep _ =>
    rcases hstep.woken_cases (hfront.sound .start) with
      ⟨hblocked, ⟨owner, hpending⟩, _⟩ | ⟨result, hanswer, hfinal, hentry, _⟩
    · refine .inl ⟨hblocked, fun result hhanded => ?_⟩
      obtain ⟨hfinal, hentry⟩ := (hiff result).mp hhanded
      rw [hpending] at hentry
      cases hentry
      exact Entry.not_isFinal_pending owner hfinal
    · exact .inr ⟨result, (hiff result).mpr ⟨hfinal, hentry⟩, hanswer⟩

/-- A call that blocked on a path stays blocked whatever wakes it, until the result of the
path was handed in, and then returns that. Every wake-up of whoever waits for the path is
in vain before that and tells the result after it; there is one result only. As long as a
worker waits it can be woken. -/
theorem blocked_call_returns_result {before later : List Event}
    (hrun : Run .start (before ++ .asked worker path .blocked :: later) s) :
    ((StaysBlocked worker path later ∧ s.ledger.awaited? worker = some path) ∨
      ∃ front answer back result, later = front ++ .woken worker path answer :: back ∧
        StaysBlocked worker path front ∧ HandsIn front path result ∧
        result.answer? = some answer) ∧
    (∀ front waiter answer back,
      before ++ .asked worker path .blocked :: later =
        front ++ .woken waiter path answer :: back →
      (answer = .blocked ∧ ∀ result, ¬HandsIn front path result) ∨
        ∃ result, HandsIn front path result ∧ result.answer? = some answer) ∧
    (∀ result other, HandsIn (before ++ .asked worker path .blocked :: later) path result →
      HandsIn (before ++ .asked worker path .blocked :: later) path other → result = other) ∧
    ∀ waiter, s.ledger.awaited? waiter = some path →
      ∃ answer t, Step s (.woken waiter path answer) t := by
  have hiff (result : Entry) : HandsIn _ path result ↔ _ :=
    hrun.handsIn_iff .start fun entry hentry => by cases hentry
  refine ⟨?_, ?_, ?_, ?_⟩
  · obtain ⟨m, hbefore, hrest⟩ := Run.append_iff.mp hrun
    cases hrest with
    | cons hstep hlater =>
      obtain ⟨hwaits, owner, hpending⟩ := hstep.of_blocked
      have hsound := hstep.sound (hbefore.sound .start)
      rcases hlater.stays_blocked_or_returns hsound hwaits with hstays |
        ⟨front, answer, back, u, result, rfl, hstays, hfront, hfinal, hentry, hanswer⟩
      · exact .inl hstays
      · refine .inr ⟨front, answer, back, result, rfl, hstays, ?_, hanswer⟩
        refine (hfront.handsIn_iff hsound fun entry hfound => ?_).mpr ⟨hfinal, hentry⟩
        rw [hpending] at hfound
        cases hfound
        exact Entry.not_isFinal_pending owner
  · intro front waiter answer back heq
    rw [heq] at hrun
    exact hrun.woken_answer
  · intro result other hresult hother
    have hentry := ((hiff result).mp hresult).2
    rw [((hiff other).mp hother).2] at hentry
    exact (Option.some.inj hentry).symm
  · intro waiter hwaits
    exact ⟨_, _, .wake waiter path _ hwaits (wake_eq hwaits)⟩

/-- The second worker is woken once in vain, when another path fails, and once when its own
does. -/
theorem blocked_call_returns_result_dropped : ∃ (a b : VirtualPath) (later : List Event)
    (s : Workers), Run .start ([.asked 1 a .claimed, .asked 3 b .claimed] ++
      .asked 2 a .blocked :: later) s ∧
    later = [.failed b .notFound, .woken 2 a .blocked, .dropped a,
      .woken 2 a (.failed .abandoned)] ∧
    ∃ front answer back result, later = front ++ .woken 2 a answer :: back ∧
      StaysBlocked 2 a front ∧ HandsIn front a result ∧ result.answer? = some answer := by
  let a : VirtualPath := ⟨⟨false, ["a.proto"], by decide⟩, by decide⟩
  let b : VirtualPath := ⟨⟨false, ["b.proto"], by decide⟩, by decide⟩
  let first : Workers := ⟨⟨[(a, .pending 1)], []⟩, [a]⟩
  let second (waiting : List (Worker × VirtualPath)) : Workers :=
    ⟨⟨[(a, .pending 1), (b, .pending 3)], waiting⟩, [b, a]⟩
  let third : Workers := ⟨⟨[(a, .pending 1), (b, .failed .notFound)], [(2, a)]⟩, [a]⟩
  let last (waiting : List (Worker × VirtualPath)) : Workers :=
    ⟨⟨[(a, .failed .abandoned), (b, .failed .notFound)], waiting⟩, []⟩
  have ha : Step .start (.asked 1 a .claimed) first := .ask 1 a rfl
  have hb : Step first (.asked 3 b .claimed) (second []) := .ask 3 b rfl
  have hblock : Step (second []) (.asked 2 a .blocked) (second [(2, a)]) := .ask 2 a rfl
  have hfail : Step (second [(2, a)]) (.failed b .notFound) third := .fail b .notFound rfl
  have hvain : Step third (.woken 2 a .blocked) third := .wake 2 a .blocked rfl rfl
  have hdrop : Step third (.dropped a) (last [(2, a)]) := .drop a rfl
  have hwake : Step (last [(2, a)]) (.woken 2 a (.failed .abandoned)) (last []) :=
    .wake 2 a (.failed .abandoned) rfl rfl
  have hrun : Run .start ([.asked 1 a .claimed, .asked 3 b .claimed] ++
      .asked 2 a .blocked :: [.failed b .notFound, .woken 2 a .blocked, .dropped a,
        .woken 2 a (.failed .abandoned)]) (last []) :=
    .cons ha <| .cons hb <| .cons hblock <| .cons hfail <| .cons hvain <| .cons hdrop <|
      .cons hwake (.nil _)
  refine ⟨a, b, _, _, hrun, rfl, ?_⟩
  rcases (blocked_call_returns_result hrun).1 with ⟨_, hwaits⟩ | hreturns
  · cases hwaits
  · exact hreturns

end ProtoSchema.Workers
