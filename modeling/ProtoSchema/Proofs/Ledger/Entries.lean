import ProtoSchema.Ledger
import Mathlib.Data.List.Basic

/-!
What each operation does to the entries and to the waiting workers. A request
has one of five outcomes, told apart by the entry of its path; only a claim
changes an entry, and only a blocked worker is noted as waiting. An entry moves
from absent to pending and from pending to its final form.
-/

namespace ProtoSchema.Ledger

open Linked (File)

variable (ledger : Ledger) (path other : VirtualPath) (worker owner : Worker)

def Entry.IsFinal : Entry → Prop
  | .pending _ => False
  | .compiled _ => True
  | .failed _ => True

def Entry.answer? : Entry → Option Answer
  | .pending _ => none
  | .compiled file => some (.compiled file)
  | .failed reason => some (.failed reason)

inductive Entry.Moves : Option Entry → Option Entry → Prop
  | stays (entry : Option Entry) : Moves entry entry
  | begins (owner : Worker) : Moves none (some (.pending owner))
  | compiles (owner : Worker) (file : File) :
      Moves (some (.pending owner)) (some (.compiled file))
  | fails (owner : Worker) (reason : Failure) :
      Moves (some (.pending owner)) (some (.failed reason))

theorem Entry.not_isFinal_pending : ¬ (Entry.pending owner).IsFinal := id

theorem Entry.Moves.finishes {entry : Entry} (owner : Worker) (hfinal : entry.IsFinal) :
    Entry.Moves (some (.pending owner)) (some entry) := by
  cases entry with
  | pending other => exact absurd hfinal (Entry.not_isFinal_pending other)
  | compiled file => exact .compiles owner file
  | failed reason => exact .fails owner reason

/-- A final entry never changes again. -/
theorem Entry.Moves.eq_of_isFinal {entry : Entry} {after : Option Entry}
    (hmove : Entry.Moves (some entry) after) (hfinal : entry.IsFinal) :
    after = some entry := by
  cases hmove with
  | stays => rfl
  | compiles owner file => exact absurd hfinal (Entry.not_isFinal_pending owner)
  | fails owner reason => exact absurd hfinal (Entry.not_isFinal_pending owner)

@[simp] theorem entry?_empty : empty.entry? path = none := rfl

@[simp] theorem awaited?_empty : empty.awaited? worker = none := rfl

private theorem any_iff_isSome :
    ledger.entries.any (·.1 = path) = true ↔ ∃ entry, ledger.entry? path = some entry := by
  simp only [← Option.isSome_iff_exists, entry?, Option.isSome_map, List.find?_isSome,
    List.any_eq_true]

private theorem find?_replaced (entries : List (VirtualPath × Entry)) (entry : Entry) :
    (entries.map fun e => if e.1 = path then (path, entry) else e).find? (·.1 = other) =
      (entries.find? (·.1 = other)).map fun e => if e.1 = path then (path, entry) else e := by
  induction entries with
  | nil => rfl
  | cons e rest ih =>
    by_cases hother : e.1 = other
    · by_cases hpath : e.1 = path
      · have hsame : path = other := hpath.symm.trans hother
        simp [hsame, hother]
      · have hne : other ≠ path := fun h => hpath (hother.trans h)
        simp [hother, hne]
    · by_cases hpath : e.1 = path
      · have hne : path ≠ other := fun h => hother (hpath.trans h)
        simpa [hpath, hne] using ih
      · simpa [hpath, hother] using ih

theorem entry?_put (entry : Entry) :
    Ledger.entry? (ledger.put path entry) other =
      if other = path then some entry else ledger.entry? other := by
  by_cases hany : ledger.entries.any (·.1 = path) = true
  · have hsome := (any_iff_isSome ledger path).mp hany
    simp only [put, entry?, hany, if_true, find?_replaced]
    by_cases hother : other = path
    · subst hother
      obtain ⟨entry', hentry⟩ := hsome
      obtain ⟨found, hfound, _⟩ := Option.map_eq_some_iff.mp hentry
      have heq : found.1 = other := by simpa using List.find?_some hfound
      simp [hfound, heq]
    · cases hfound : ledger.entries.find? (·.1 = other) with
      | none => simp [hother]
      | some found =>
        have heq : found.1 = other := by simpa using List.find?_some hfound
        simp [heq, hother]
  · have hnone : ledger.entry? path = none := by
      have hno := (any_iff_isSome ledger path).not.mp hany
      exact Option.eq_none_iff_forall_ne_some.mpr fun entry h => hno ⟨entry, h⟩
    simp only [put, entry?, hany, if_false, List.find?_append, Bool.false_eq_true]
    by_cases hother : other = path
    · subst hother
      have hfind : ledger.entries.find? (·.1 = other) = none := by
        exact Option.map_eq_none_iff.mp hnone
      simp [hfind]
    · have hne : path ≠ other := Ne.symm hother
      simp [hother, hne]

@[simp] theorem entry?_put_self (entry : Entry) :
    Ledger.entry? (ledger.put path entry) path = some entry := by
  rw [entry?_put, if_pos rfl]

theorem entry?_put_of_ne (entry : Entry) (hne : other ≠ path) :
    Ledger.entry? (ledger.put path entry) other = ledger.entry? other := by
  rw [entry?_put, if_neg hne]

@[simp] theorem entry?_await :
    Ledger.entry? (ledger.await worker path) other = ledger.entry? other := rfl

@[simp] theorem entry?_release :
    Ledger.entry? (ledger.release worker) other = ledger.entry? other := rfl

@[simp] theorem awaited?_put (entry : Entry) :
    (ledger.put path entry).awaited? worker = ledger.awaited? worker := rfl

private theorem find?_without (waiting : List (Worker × VirtualPath)) (asking : Worker) :
    (waiting.filter (·.1 ≠ worker)).find? (·.1 = asking) =
      if asking = worker then none else waiting.find? (·.1 = asking) := by
  induction waiting with
  | nil => simp
  | cons e rest ih =>
    by_cases hworker : e.1 = worker
    · rw [List.filter_cons_of_neg (by simpa using hworker), ih]
      by_cases hasking : asking = worker
      · rw [if_pos hasking, if_pos hasking]
      · have hne : e.1 ≠ asking := fun h => hasking (h.symm.trans hworker)
        rw [if_neg hasking, if_neg hasking, List.find?_cons_of_neg (by simpa using hne)]
    · rw [List.filter_cons_of_pos (by simpa using hworker)]
      by_cases hasking : e.1 = asking
      · have hne : asking ≠ worker := fun h => hworker (hasking.trans h)
        rw [if_neg hne, List.find?_cons_of_pos (by simpa using hasking),
          List.find?_cons_of_pos (by simpa using hasking)]
      · rw [List.find?_cons_of_neg (by simpa using hasking),
          List.find?_cons_of_neg (by simpa using hasking), ih]

theorem awaited?_release (asking : Worker) :
    (ledger.release worker).awaited? asking =
      if asking = worker then none else ledger.awaited? asking := by
  simp only [awaited?, release, find?_without]
  split <;> rfl

@[simp] theorem awaited?_release_self : (ledger.release worker).awaited? worker = none := by
  rw [awaited?_release, if_pos rfl]

/-- A wait that is left after a release was there before. -/
theorem awaited?_of_release {ledger : Ledger} {path : VirtualPath} {worker asking : Worker}
    (h : (ledger.release worker).awaited? asking = some path) :
    ledger.awaited? asking = some path := by
  rw [awaited?_release] at h
  split at h
  · cases h
  · exact h

theorem awaited?_await (asking : Worker) :
    (ledger.await worker path).awaited? asking =
      if asking = worker then some path else ledger.awaited? asking := by
  simp only [awaited?, await, List.find?_append, find?_without]
  by_cases hsame : asking = worker
  · subst hsame
    simp
  · have hne : worker ≠ asking := Ne.symm hsame
    simp [hsame, hne]

theorem mem_waiting_of_awaited? {ledger : Ledger} {path : VirtualPath} {worker : Worker}
    (h : ledger.awaited? worker = some path) : worker ∈ ledger.waiting.map (·.1) := by
  obtain ⟨found, hfound, _⟩ := Option.map_eq_some_iff.mp h
  have heq : found.1 = worker := by simpa using List.find?_some hfound
  exact List.mem_map.mpr ⟨found, List.mem_of_find?_eq_some hfound, heq⟩

inductive Reply : Answer → Ledger → Prop
  | claimed (habsent : ledger.entry? path = none) :
      Reply .claimed (ledger.put path (.pending worker))
  | compiled (file : File) (hentry : ledger.entry? path = some (.compiled file)) :
      Reply (.compiled file) ledger
  | failed (reason : Failure) (hentry : ledger.entry? path = some (.failed reason)) :
      Reply (.failed reason) ledger
  | cycle (owner : Worker) (hentry : ledger.entry? path = some (.pending owner))
      (hstuck : owner = worker ∨ ledger.isStuckOn owner worker = true) :
      Reply .cycle ledger
  | blocked (owner : Worker) (hentry : ledger.entry? path = some (.pending owner))
      (hother : owner ≠ worker) (hfree : ledger.isStuckOn owner worker = false) :
      Reply .blocked (ledger.await worker path)

theorem request_reply :
    Reply ledger path worker (ledger.request path worker).1 (ledger.request path worker).2 := by
  unfold request
  split
  · next habsent => exact .claimed habsent
  · next file hentry => exact .compiled file hentry
  · next reason hentry => exact .failed reason hentry
  · next owner hentry =>
    split
    · next hstuck => exact .cycle owner hentry hstuck
    · next hfree =>
      rw [not_or, Bool.not_eq_true] at hfree
      exact .blocked owner hentry hfree.1 hfree.2

variable {ledger path worker owner} {answer : Answer} {after : Ledger} {entry : Entry}

/-- A finished path is told as it is. -/
theorem Reply.of_isFinal (h : Reply ledger path worker answer after)
    (hentry : ledger.entry? path = some entry) (hfinal : entry.IsFinal) :
    entry.answer? = some answer ∧ after = ledger := by
  cases h with
  | claimed habsent =>
    rw [hentry] at habsent
    cases habsent
  | compiled file hfound =>
    rw [hentry] at hfound
    cases hfound
    exact ⟨rfl, rfl⟩
  | failed reason hfound =>
    rw [hentry] at hfound
    cases hfound
    exact ⟨rfl, rfl⟩
  | cycle owner hfound hstuck =>
    rw [hentry] at hfound
    cases hfound
    exact absurd hfinal (Entry.not_isFinal_pending owner)
  | blocked owner hfound hother hfree =>
    rw [hentry] at hfound
    cases hfound
    exact absurd hfinal (Entry.not_isFinal_pending owner)

/-- A pending path is either a cycle or waited for. -/
theorem Reply.of_pending (h : Reply ledger path worker answer after)
    (hentry : ledger.entry? path = some (.pending owner)) :
    answer = .cycle ∧ after = ledger ∨ answer = .blocked ∧ after = ledger.await worker path := by
  cases h with
  | claimed habsent =>
    rw [hentry] at habsent
    cases habsent
  | compiled file hfound =>
    rw [hentry] at hfound
    cases hfound
  | failed reason hfound =>
    rw [hentry] at hfound
    cases hfound
  | cycle other hfound hstuck => exact .inl ⟨rfl, rfl⟩
  | blocked other hfound hother hfree => exact .inr ⟨rfl, rfl⟩

end ProtoSchema.Ledger
