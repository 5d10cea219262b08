import ProtoSchema.Ledger.Workers
import ProtoSchema.Proofs.Ledger.Waiting
import Mathlib.Data.List.Nodup

/-!
Runs of any number of workers in any order of steps. A worker that is not noted
as waiting may ask for a path; one that is may be woken at any time, also when
its path is still pending; an open claim may be handed in at any time, also
while its owner waits. Every state on the way is sound: the open claims are the
pending entries, each once, a path that is waited for has an entry, and no
workers wait in a circle.
-/

namespace ProtoSchema

open Linked (File)
open Ledger (Answer Entry Reply)
open Relation

def Ledger.Answer.isClaim : Ledger.Answer → Bool
  | .claimed => true
  | _ => false

namespace Workers

inductive Event where
  | asked (worker : Worker) (path : VirtualPath) (answer : Answer)
  | woken (worker : Worker) (path : VirtualPath) (answer : Answer)
  | published (path : VirtualPath) (file : File)
  | failed (path : VirtualPath) (reason : Failure)
  | dropped (path : VirtualPath)

namespace Event

def result? : Event → Option (VirtualPath × Entry)
  | .published path file => some (path, .compiled file)
  | .failed path reason => some (path, .failed reason)
  | .dropped path => some (path, .failed .abandoned)
  | _ => none

def handsOut (path : VirtualPath) : Event → Bool
  | asked _ named answer | woken _ named answer => decide (named = path) && answer.isClaim
  | _ => false

end Event

inductive Step : Workers → Event → Workers → Prop
  | ask {s : Workers} (worker : Worker) (path : VirtualPath)
      (hidle : s.ledger.awaited? worker = none) :
      Step s (.asked worker path (s.request path worker).1) (s.request path worker).2
  | wake {s t : Workers} (worker : Worker) (path : VirtualPath) (answer : Answer)
      (hwaits : s.ledger.awaited? worker = some path)
      (hwake : s.wake worker = (some answer, t)) : Step s (.woken worker path answer) t
  | publish {s t : Workers} (path : VirtualPath) (file : File)
      (hpublish : s.publish path file = some t) : Step s (.published path file) t
  | fail {s t : Workers} (path : VirtualPath) (reason : Failure)
      (hfail : s.fail path reason = some t) : Step s (.failed path reason) t
  | drop {s t : Workers} (path : VirtualPath)
      (hdrop : s.abandon path = some t) : Step s (.dropped path) t

inductive Run : Workers → List Event → Workers → Prop
  | nil (s : Workers) : Run s [] s
  | cons {s t u : Workers} {event : Event} {events : List Event} :
      Step s event t → Run t events u → Run s (event :: events) u

structure Sound (s : Workers) : Prop where
  mem_claims_iff : ∀ path, path ∈ s.claims ↔
    ∃ owner, s.ledger.entry? path = some (.pending owner)
  claims_nodup : s.claims.Nodup
  awaited_known : ∀ worker path, s.ledger.awaited? worker = some path →
    s.ledger.entry? path ≠ none
  acyclic : s.ledger.Acyclic

variable {s t : Workers} {event : Event} {events : List Event}

theorem request_spec (s : Workers) (path : VirtualPath) (worker : Worker) :
    ∃ answer ledger, Reply s.ledger path worker answer ledger ∧
      s.request path worker =
        (answer, ⟨ledger, if answer.isClaim then path :: s.claims else s.claims⟩) := by
  have hreply := Ledger.request_reply s.ledger path worker
  refine ⟨_, _, hreply, ?_⟩
  unfold request
  generalize s.ledger.request path worker = found
  obtain ⟨answer, ledger⟩ := found
  cases answer <;> rfl

theorem wake_eq {worker : Worker} {path : VirtualPath}
    (hwaits : s.ledger.awaited? worker = some path) :
    s.wake worker =
      (some ({ s with ledger := s.ledger.release worker }.request path worker).1,
        ({ s with ledger := s.ledger.release worker }.request path worker).2) := by
  rw [wake, hwaits]

/-- What a hand-in finds and what it leaves. -/
theorem handIn_spec {path : VirtualPath} {result : Entry} (h : s.handIn path result = some t) :
    path ∈ s.claims ∧ t = ⟨s.ledger.put path result, s.claims.erase path⟩ := by
  unfold handIn at h
  split at h
  · next hmem => exact ⟨hmem, (Option.some.inj h).symm⟩
  · cases h

/-- A step is a request of a worker that does not wait, or a hand-in. -/
theorem Step.cases_request (hstep : Step s event t) :
    (∃ r worker path answer, r.ledger.awaited? worker = none ∧
      (r = s ∨ r = { s with ledger := s.ledger.release worker }) ∧
      r.request path worker = (answer, t) ∧
      (event = .asked worker path answer ∨ event = .woken worker path answer)) ∨
    ∃ path result, event.result? = some (path, result) ∧ result.IsFinal ∧
      s.handIn path result = some t := by
  cases hstep with
  | ask worker path hidle => exact .inl ⟨s, worker, path, _, hidle, .inl rfl, rfl, .inl rfl⟩
  | wake worker path answer hwaits hwake =>
    rw [wake_eq hwaits, Prod.mk.injEq, Option.some.injEq] at hwake
    obtain ⟨rfl, rfl⟩ := hwake
    refine .inl ⟨_, worker, path, _, ?_, .inr rfl, rfl, .inr rfl⟩
    exact Ledger.awaited?_release_self _ worker
  | publish path file hpublish => exact .inr ⟨path, .compiled file, rfl, trivial, hpublish⟩
  | fail path reason hfail => exact .inr ⟨path, .failed reason, rfl, trivial, hfail⟩
  | drop path hdrop => exact .inr ⟨path, .failed .abandoned, rfl, trivial, hdrop⟩

theorem Sound.start : Sound Workers.start where
  mem_claims_iff path := by simp [Workers.start]
  claims_nodup := List.nodup_nil
  awaited_known worker path h := by simp [Workers.start] at h
  acyclic worker hcircle := by
    obtain ⟨next, ⟨path, hpath, _⟩, _⟩ := TransGen.head'_iff.mp hcircle
    simp [Workers.start] at hpath

theorem Sound.release (hs : Sound s) (worker : Worker) :
    Sound { s with ledger := s.ledger.release worker } where
  mem_claims_iff := hs.mem_claims_iff
  claims_nodup := hs.claims_nodup
  awaited_known asking path h := hs.awaited_known asking path (Ledger.awaited?_of_release h)
  acyclic := hs.acyclic.mono fun _ _ => Ledger.WaitsFor.of_release

/-- A claim adds no wait: nobody waits for a path that has no entry. -/
theorem Sound.claim (hs : Sound s) {path : VirtualPath} (worker : Worker)
    (habsent : s.ledger.entry? path = none) :
    Sound ⟨s.ledger.put path (.pending worker), path :: s.claims⟩ where
  mem_claims_iff other := by
    rw [List.mem_cons, Ledger.entry?_put, hs.mem_claims_iff]
    by_cases hother : other = path
    · simp [hother]
    · simp [hother]
  claims_nodup := by
    refine List.nodup_cons.mpr ⟨?_, hs.claims_nodup⟩
    rw [hs.mem_claims_iff, habsent]
    simp
  awaited_known asking other h := by
    rw [Ledger.entry?_put]
    split
    · simp
    · exact hs.awaited_known asking other h
  acyclic := by
    apply hs.acyclic.mono
    rintro a b ⟨other, hother, hentry⟩
    have hknown := hs.awaited_known a other hother
    have hne : other ≠ path := by
      intro h
      exact hknown (h ▸ habsent)
    rw [Ledger.entry?_put_of_ne _ _ _ _ hne] at hentry
    exact ⟨other, hother, hentry⟩

/-- A worker is blocked only where its wait closes no circle. -/
theorem Sound.block (hs : Sound s) {path : VirtualPath} {worker owner : Worker}
    (hentry : s.ledger.entry? path = some (.pending owner)) (hother : owner ≠ worker)
    (hfree : s.ledger.isStuckOn owner worker = false) :
    Sound ⟨s.ledger.await worker path, s.claims⟩ where
  mem_claims_iff := hs.mem_claims_iff
  claims_nodup := hs.claims_nodup
  awaited_known asking other h := by
    rw [Ledger.awaited?_await] at h
    split at h
    · cases h
      rw [Ledger.entry?_await, hentry]
      simp
    · exact hs.awaited_known asking other h
  acyclic := by
    refine @Ledger.Acyclic.insert _ worker owner _ hs.acyclic ?_ ?_
    · rintro a b ⟨other, hpath, hpending⟩
      rw [Ledger.awaited?_await] at hpath
      rw [Ledger.entry?_await] at hpending
      split at hpath
      · next hsame =>
        cases hpath
        rw [hentry] at hpending
        cases hpending
        exact .inr ⟨hsame, rfl⟩
      · exact .inl ⟨other, hpath, hpending⟩
    · intro hreach
      rcases reflTransGen_iff_eq_or_transGen.mp hreach with hsame | hwaits
      · exact hother hsame.symm
      · rw [← Ledger.isStuckOn_iff hs.acyclic, hfree] at hwaits
        cases hwaits

theorem Sound.request (hs : Sound s) (path : VirtualPath) (worker : Worker) :
    Sound (s.request path worker).2 := by
  obtain ⟨answer, ledger, hreply, heq⟩ := request_spec s path worker
  rw [heq]
  cases hreply with
  | claimed habsent => exact hs.claim worker habsent
  | compiled file hentry => exact hs
  | failed reason hentry => exact hs
  | cycle owner hentry hstuck => exact hs
  | blocked owner hentry hother hfree => exact hs.block hentry hother hfree

/-- Handing in only takes waits away. -/
theorem Sound.handIn (hs : Sound s) {path : VirtualPath} {result : Entry}
    (hfinal : result.IsFinal) (h : s.handIn path result = some t) : Sound t := by
  obtain ⟨_, rfl⟩ := handIn_spec h
  have hpending : ∀ owner, some result ≠ some (Entry.pending owner) := by
    rintro owner heq
    cases heq
    exact Entry.not_isFinal_pending owner hfinal
  refine ⟨?_, hs.claims_nodup.erase path, ?_, ?_⟩
  · intro other
    rw [hs.claims_nodup.mem_erase_iff, hs.mem_claims_iff, Ledger.entry?_put]
    by_cases hother : other = path
    · simpa [hother] using hpending
    · simp [hother]
  · intro asking other hwaits
    rw [Ledger.entry?_put]
    split
    · simp
    · exact hs.awaited_known asking other hwaits
  · apply hs.acyclic.mono
    rintro a b ⟨other, hother, hentry⟩
    rw [Ledger.entry?_put] at hentry
    split at hentry
    · exact absurd hentry (hpending b)
    · exact ⟨other, hother, hentry⟩

theorem Step.sound (hstep : Step s event t) (hs : Sound s) : Sound t := by
  rcases hstep.cases_request with
    ⟨r, worker, path, answer, hidle, hr, hrequest, _⟩ | ⟨path, result, _, hfinal, hhand⟩
  · have hsound : Sound r := by
      rcases hr with rfl | rfl
      · exact hs
      · exact hs.release worker
    have := hsound.request path worker
    rwa [hrequest] at this
  · exact hs.handIn hfinal hhand

theorem Run.sound (hrun : Run s events t) (hs : Sound s) : Sound t := by
  induction hrun with
  | nil => exact hs
  | cons hstep _ ih => exact ih (hstep.sound hs)

end Workers

end ProtoSchema
