import ProtoSchema.Proofs.Ledger.Entries
import Mathlib.Data.List.Chain
import Mathlib.Logic.Relation

/-!
Who waits for whom. A worker waits for the owner of the pending path that it is
noted for, so each worker waits for at most one other. As long as nobody waits
in a circle, a chain of waiting workers passes none of them twice. Hence it is
no longer than the number of waiting workers, the search along it finds every
worker that it leads to, and it ends at a worker that can go on.
-/

namespace ProtoSchema.Ledger

open Relation

/-- The worker is blocked on a path that is still pending under the owner. -/
def WaitsFor (ledger : Ledger) (worker owner : Worker) : Prop :=
  ∃ path, ledger.awaited? worker = some path ∧ ledger.entry? path = some (.pending owner)

def Acyclic (ledger : Ledger) : Prop := ∀ worker, ¬TransGen ledger.WaitsFor worker worker

def IsBlocked (ledger : Ledger) (worker : Worker) : Prop := ∃ owner, ledger.WaitsFor worker owner

def Owns (ledger : Ledger) (worker : Worker) : Prop :=
  ∃ path, ledger.entry? path = some (.pending worker)

variable {ledger : Ledger} {worker owner : Worker}

theorem waitsFor?_eq_some_iff :
    ledger.waitsFor? worker = some owner ↔ ledger.WaitsFor worker owner := by
  simp only [waitsFor?, Option.bind_eq_some_iff, WaitsFor]
  constructor
  · rintro ⟨entry, ⟨path, hpath, hentry⟩, howner⟩
    cases entry with
    | pending found =>
      cases howner
      exact ⟨path, hpath, hentry⟩
    | compiled file => cases howner
    | failed reason => cases howner
  · rintro ⟨path, hpath, hentry⟩
    exact ⟨.pending owner, ⟨path, hpath, hentry⟩, rfl⟩

theorem WaitsFor.owns (h : ledger.WaitsFor worker owner) : ledger.Owns owner := by
  obtain ⟨path, _, hentry⟩ := h
  exact ⟨path, hentry⟩

theorem WaitsFor.of_release {asking : Worker} (h : (ledger.release asking).WaitsFor worker owner) :
    ledger.WaitsFor worker owner := by
  obtain ⟨path, hpath, hentry⟩ := h
  exact ⟨path, awaited?_of_release hpath, hentry⟩

theorem owns_of_transGen (h : TransGen ledger.WaitsFor worker owner) : ledger.Owns owner := by
  cases h with
  | single hlast => exact hlast.owns
  | tail _ hlast => exact hlast.owns

private theorem dropLast_subset_waiting (chain : List Worker)
    (hchain : List.IsChain ledger.WaitsFor (worker :: chain)) :
    (worker :: chain).dropLast ⊆ ledger.waiting.map (·.1) := by
  induction chain generalizing worker with
  | nil => simp
  | cons next rest ih =>
    obtain ⟨⟨path, hpath, _⟩, hrest⟩ := List.isChain_cons_cons.mp hchain
    rw [List.dropLast_cons_of_ne_nil (List.cons_ne_nil _ _)]
    exact List.cons_subset.mpr ⟨mem_waiting_of_awaited? hpath, ih hrest⟩

/-- A chain of waiting workers has no more hops than there are waiting workers. -/
theorem Acyclic.length_le (hacyclic : ledger.Acyclic) (chain : List Worker)
    (hchain : List.IsChain ledger.WaitsFor (worker :: chain)) :
    chain.length ≤ ledger.waiting.length := by
  have hpairs : List.Pairwise (TransGen ledger.WaitsFor) (worker :: chain) :=
    List.isChain_iff_pairwise.mp (hchain.imp fun _ _ h => .single h)
  have hnodup : (worker :: chain).Nodup := by
    refine hpairs.imp ?_
    intro a b hab heq
    exact hacyclic a (heq ▸ hab)
  have hdrop := (hnodup.sublist (List.dropLast_sublist _)).length_le_of_subset
    (dropLast_subset_waiting chain hchain)
  simpa using hdrop

private theorem leadsTo_of_isChain (chain : List Worker) (hops : Nat)
    (hchain : List.IsChain ledger.WaitsFor (owner :: chain))
    (hlast : (owner :: chain).getLast? = some worker) (hne : chain ≠ [])
    (hlength : chain.length ≤ hops) : ledger.leadsTo worker hops owner = true := by
  induction chain generalizing owner hops with
  | nil => exact absurd rfl hne
  | cons next rest ih =>
    cases hops with
    | zero => simp at hlength
    | succ hops =>
      obtain ⟨hnext, hrest⟩ := List.isChain_cons_cons.mp hchain
      rw [leadsTo, waitsFor?_eq_some_iff.mpr hnext]
      cases rest with
      | nil =>
        have hend : next = worker := by simpa using hlast
        simp [hend]
      | cons after more =>
        have hfound := ih hops hrest (by simpa using hlast)
          (List.cons_ne_nil _ _) (by simpa using hlength)
        simp [hfound]

private theorem transGen_of_leadsTo (hops : Nat) (h : ledger.leadsTo worker hops owner = true) :
    TransGen ledger.WaitsFor owner worker := by
  induction hops generalizing owner with
  | zero => simp [leadsTo] at h
  | succ hops ih =>
    rw [leadsTo] at h
    cases hnext : ledger.waitsFor? owner with
    | none => simp [hnext] at h
    | some next =>
      have hwaits := waitsFor?_eq_some_iff.mp hnext
      rw [hnext] at h
      rcases Bool.or_eq_true_iff.mp h with hsame | hlater
      · have heq : next = worker := by simpa using hsame
        exact .single (heq ▸ hwaits)
      · exact .head hwaits (ih hlater)

/-- A chain of waits as a list of workers, each waiting for the next. -/
theorem reflTransGen_iff_exists_chain : ReflTransGen ledger.WaitsFor owner worker ↔
    ∃ chain, List.IsChain ledger.WaitsFor (owner :: chain) ∧
      (owner :: chain).getLast? = some worker := by
  constructor
  · intro hwaits
    obtain ⟨chain, hchain, hlast⟩ := List.exists_isChain_cons_of_relationReflTransGen hwaits
    refine ⟨chain, hchain, ?_⟩
    rw [List.getLast?_eq_some_getLast (List.cons_ne_nil _ _), hlast]
  · rintro ⟨chain, hchain, hlast⟩
    rw [List.getLast?_eq_some_getLast (List.cons_ne_nil _ _), Option.some.injEq] at hlast
    exact List.relationReflTransGen_of_exists_isChain_cons chain hchain hlast

/-- The bound on the hops never cuts a chain short. -/
theorem isStuckOn_iff (hacyclic : ledger.Acyclic) :
    ledger.isStuckOn owner worker = true ↔ TransGen ledger.WaitsFor owner worker := by
  constructor
  · exact transGen_of_leadsTo _
  · intro hwaits
    obtain ⟨next, hfirst, hrest⟩ := TransGen.head'_iff.mp hwaits
    obtain ⟨chain, hchain, hlast⟩ := reflTransGen_iff_exists_chain.mp hrest
    have hwhole : List.IsChain ledger.WaitsFor (owner :: next :: chain) :=
      List.isChain_cons_cons.mpr ⟨hfirst, hchain⟩
    have hbound := hacyclic.length_le _ hwhole
    apply leadsTo_of_isChain (next :: chain) _ hwhole
    · rw [List.getLast?_cons_cons, hlast]
    · exact List.cons_ne_nil _ _
    · omega

/-- What a search with any bound finds is found. -/
theorem isStuckOn_of_leadsTo (hacyclic : ledger.Acyclic) {hops : Nat}
    (h : ledger.leadsTo worker hops owner = true) : ledger.isStuckOn owner worker = true :=
  (isStuckOn_iff hacyclic).mpr (transGen_of_leadsTo hops h)

/-- A request meets a cycle just when the owner of its path waits for the worker. -/
theorem Reply.eq_cycle_iff {path : VirtualPath} {answer : Answer} {after : Ledger}
    (hreply : Reply ledger path worker answer after) (hacyclic : ledger.Acyclic) :
    answer = .cycle ↔ ∃ owner, ledger.entry? path = some (.pending owner) ∧
      ReflTransGen ledger.WaitsFor owner worker := by
  have hother {entry : Option Entry} (hentry : ledger.entry? path = entry)
      (hopen : ∀ owner, entry ≠ some (.pending owner)) :
      ¬∃ owner, ledger.entry? path = some (.pending owner) ∧
        ReflTransGen ledger.WaitsFor owner worker := by
    rintro ⟨owner, hpending, _⟩
    exact hopen owner (hentry.symm.trans hpending)
  cases hreply with
  | claimed habsent => exact iff_of_false (by simp) (hother habsent (by simp))
  | compiled file hentry => exact iff_of_false (by simp) (hother hentry (by simp))
  | failed reason hentry => exact iff_of_false (by simp) (hother hentry (by simp))
  | cycle owner hentry hstuck =>
    refine iff_of_true rfl ⟨owner, hentry, ?_⟩
    rcases hstuck with rfl | hstuck
    · exact .refl
    · exact ((isStuckOn_iff hacyclic).mp hstuck).to_reflTransGen
  | blocked owner hentry hne hfree =>
    refine iff_of_false (by simp) ?_
    rintro ⟨other, hpending, hwaits⟩
    rw [hentry, Option.some.injEq, Entry.pending.injEq] at hpending
    subst hpending
    rcases reflTransGen_iff_eq_or_transGen.mp hwaits with hsame | hwaits
    · exact hne hsame.symm
    · rw [← isStuckOn_iff hacyclic, hfree] at hwaits
      cases hwaits

private theorem exists_unblocked (hops : Nat) :
    ∀ worker, (∀ chain, List.IsChain ledger.WaitsFor (worker :: chain) → chain.length ≤ hops) →
      ∃ owner, ReflTransGen ledger.WaitsFor worker owner ∧ ¬ledger.IsBlocked owner := by
  induction hops with
  | zero =>
    intro worker hbound
    refine ⟨worker, .refl, ?_⟩
    rintro ⟨owner, hwaits⟩
    have := hbound [owner] (List.isChain_pair.mpr hwaits)
    simp at this
  | succ hops ih =>
    intro worker hbound
    by_cases hblocked : ledger.IsBlocked worker
    · obtain ⟨next, hwaits⟩ := hblocked
      obtain ⟨owner, hreach, hfree⟩ := ih next (by
        intro chain hchain
        have := hbound (next :: chain) (List.isChain_cons_cons.mpr ⟨hwaits, hchain⟩)
        simpa using this)
      exact ⟨owner, .head hwaits hreach, hfree⟩
    · exact ⟨worker, .refl, hblocked⟩

/-- Following owners from a blocked worker ends at one that can go on. -/
theorem Acyclic.exists_unblocked_owner (hacyclic : ledger.Acyclic)
    (hblocked : ledger.IsBlocked worker) :
    ∃ owner, TransGen ledger.WaitsFor worker owner ∧ ledger.Owns owner ∧
      ¬ledger.IsBlocked owner := by
  obtain ⟨next, hwaits⟩ := hblocked
  obtain ⟨owner, hreach, hfree⟩ :=
    exists_unblocked _ next (fun chain hchain => hacyclic.length_le chain hchain)
  have hall : TransGen ledger.WaitsFor worker owner := .head' hwaits hreach
  exact ⟨owner, hall, owns_of_transGen hall, hfree⟩

theorem Acyclic.mono {other : Ledger} (hacyclic : ledger.Acyclic)
    (hsub : ∀ a b, other.WaitsFor a b → ledger.WaitsFor a b) : other.Acyclic :=
  fun worker hcircle => hacyclic worker (TransGen.mono hsub worker worker hcircle)

/-- A new wait closes no circle when its owner does not wait for the worker. -/
theorem Acyclic.insert {other : Ledger} (hacyclic : ledger.Acyclic)
    (hsub : ∀ a b, other.WaitsFor a b → ledger.WaitsFor a b ∨ a = worker ∧ b = owner)
    (hfree : ¬ReflTransGen ledger.WaitsFor owner worker) : other.Acyclic := by
  have hsplit : ∀ a b, TransGen other.WaitsFor a b → TransGen ledger.WaitsFor a b ∨
      ReflTransGen ledger.WaitsFor a worker ∧ ReflTransGen ledger.WaitsFor owner b := by
    intro a b hab
    induction hab with
    | single h =>
      rcases hsub _ _ h with hold | ⟨rfl, rfl⟩
      · exact .inl (.single hold)
      · exact .inr ⟨.refl, .refl⟩
    | tail _ h ih =>
      rcases hsub _ _ h with hold | ⟨rfl, rfl⟩
      · rcases ih with hbefore | ⟨hto, hfrom⟩
        · exact .inl (hbefore.tail hold)
        · exact .inr ⟨hto, hfrom.tail hold⟩
      · rcases ih with hbefore | ⟨hto, hfrom⟩
        · exact .inr ⟨hbefore.to_reflTransGen, .refl⟩
        · exact absurd hfrom hfree
  intro a hcircle
  rcases hsplit a a hcircle with hold | ⟨hto, hfrom⟩
  · exact hacyclic a hold
  · exact hfree (hfrom.trans hto)

end ProtoSchema.Ledger
