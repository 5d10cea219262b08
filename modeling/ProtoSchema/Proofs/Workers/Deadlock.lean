import ProtoSchema.Proofs.Workers.Run

/-!
Workers never block each other for good. In every state of every run the waits
form no circle, so behind each blocked worker there is one that holds what the
others wait for and can go on by itself. A request is refused as a cycle where
waiting would close a circle, and nowhere else.
-/

namespace ProtoSchema.Workers

open Relation

/-- The waits of a reachable state form no circle, and following the owners from
a blocked worker comes to an owner that is not blocked. -/
theorem waits_form_no_circle {events : List Event} {s : Workers}
    (hrun : Run .start events s) :
    (∀ worker, ¬TransGen s.ledger.WaitsFor worker worker) ∧
    ∀ worker, s.ledger.IsBlocked worker →
      ∃ owner, TransGen s.ledger.WaitsFor worker owner ∧ s.ledger.Owns owner ∧
        ¬s.ledger.IsBlocked owner := by
  have hsound := hrun.sound .start
  refine ⟨hsound.acyclic, ?_⟩
  intro worker hblocked
  exact hsound.acyclic.exists_unblocked_owner hblocked

/-- Three files, each claimed by another worker: the first worker is blocked on
the second and the second on the third. -/
theorem waits_form_no_circle_three : ∃ (a b c : VirtualPath) (s : Workers),
    Run .start [.asked 1 a .claimed, .asked 2 b .claimed, .asked 3 c .claimed,
      .asked 1 b .blocked, .asked 2 c .blocked] s ∧
    s.ledger.IsBlocked 1 ∧
    ∃ owner, TransGen s.ledger.WaitsFor 1 owner ∧ s.ledger.Owns owner ∧
      ¬s.ledger.IsBlocked owner := by
  let a : VirtualPath := ⟨⟨false, ["a.proto"], by decide⟩, by decide⟩
  let b : VirtualPath := ⟨⟨false, ["b.proto"], by decide⟩, by decide⟩
  let c : VirtualPath := ⟨⟨false, ["c.proto"], by decide⟩, by decide⟩
  let first : Workers := ⟨⟨[(a, .pending 1)], []⟩, [a]⟩
  let second : Workers := ⟨⟨[(a, .pending 1), (b, .pending 2)], []⟩, [b, a]⟩
  let third (waiting : List (Worker × VirtualPath)) : Workers :=
    ⟨⟨[(a, .pending 1), (b, .pending 2), (c, .pending 3)], waiting⟩, [c, b, a]⟩
  have ha : Step .start (.asked 1 a .claimed) first := .ask 1 a rfl
  have hb : Step first (.asked 2 b .claimed) second := .ask 2 b rfl
  have hc : Step second (.asked 3 c .claimed) (third []) := .ask 3 c rfl
  have hab : Step (third []) (.asked 1 b .blocked) (third [(1, b)]) := .ask 1 b rfl
  have hbc : Step (third [(1, b)]) (.asked 2 c .blocked) (third [(1, b), (2, c)]) :=
    .ask 2 c rfl
  have hrun := Run.cons ha <| .cons hb <| .cons hc <| .cons hab <| .cons hbc (.nil _)
  have hblocked : (third [(1, b), (2, c)]).ledger.IsBlocked 1 := ⟨2, b, rfl, rfl⟩
  exact ⟨a, b, c, _, hrun, hblocked, (waits_form_no_circle hrun).2 1 hblocked⟩

/-- A worker is told of a cycle just when the owner of the path it asks for waits for
it, at the end of a chain of blocked workers of any length. The search along the chain
is given enough hops: with any other number of them it finds no more. -/
theorem cycle_iff_chain_of_waits {events : List Event} {s : Workers}
    (hrun : Run .start events s) (worker : Worker) :
    (∀ path, (s.request path worker).1 = .cycle ↔
      ∃ owner chain, s.ledger.entry? path = some (.pending owner) ∧
        List.IsChain s.ledger.WaitsFor (owner :: chain) ∧
        (owner :: chain).getLast? = some worker) ∧
    ∀ owner hops, s.ledger.leadsTo worker hops owner = true →
      s.ledger.isStuckOn owner worker = true := by
  have hacyclic := (hrun.sound .start).acyclic
  refine ⟨?_, fun owner hops => Ledger.isStuckOn_of_leadsTo hacyclic⟩
  intro path
  obtain ⟨answer, ledger, hreply, heq⟩ := request_spec s path worker
  rw [heq, hreply.eq_cycle_iff hacyclic]
  simp only [Ledger.reflTransGen_iff_exists_chain, exists_and_left]

/-- The third worker asks for what the first holds, which waits for the second, which
waits for the third. The fourth is still noted for a path that was handed in, and is no
part of a chain. -/
theorem cycle_iff_chain_of_waits_four : ∃ (a d : VirtualPath) (events : List Event)
    (s : Workers), Run .start events s ∧
    s.ledger.waiting.length = 3 ∧ s.ledger.awaited? 4 = some d ∧
    s.ledger.entry? d = some (.failed .notFound) ∧
    (s.request a 3).1 = .cycle ∧ (s.request a 4).1 ≠ .cycle := by
  let a : VirtualPath := ⟨⟨false, ["a.proto"], by decide⟩, by decide⟩
  let b : VirtualPath := ⟨⟨false, ["b.proto"], by decide⟩, by decide⟩
  let c : VirtualPath := ⟨⟨false, ["c.proto"], by decide⟩, by decide⟩
  let d : VirtualPath := ⟨⟨false, ["d.proto"], by decide⟩, by decide⟩
  let first : Workers := ⟨⟨[(a, .pending 1)], []⟩, [a]⟩
  let second : Workers := ⟨⟨[(a, .pending 1), (b, .pending 2)], []⟩, [b, a]⟩
  let third : Workers := ⟨⟨[(a, .pending 1), (b, .pending 2), (c, .pending 3)], []⟩, [c, b, a]⟩
  let fourth (waiting : List (Worker × VirtualPath)) : Workers :=
    ⟨⟨[(a, .pending 1), (b, .pending 2), (c, .pending 3), (d, .pending 3)], waiting⟩, [d, c, b, a]⟩
  let last : Workers :=
    ⟨⟨[(a, .pending 1), (b, .pending 2), (c, .pending 3), (d, .failed .notFound)],
      [(1, b), (2, c), (4, d)]⟩, [c, b, a]⟩
  have ha : Step .start (.asked 1 a .claimed) first := .ask 1 a rfl
  have hb : Step first (.asked 2 b .claimed) second := .ask 2 b rfl
  have hc : Step second (.asked 3 c .claimed) third := .ask 3 c rfl
  have hd : Step third (.asked 3 d .claimed) (fourth []) := .ask 3 d rfl
  have hab : Step (fourth []) (.asked 1 b .blocked) (fourth [(1, b)]) := .ask 1 b rfl
  have hbc : Step (fourth [(1, b)]) (.asked 2 c .blocked) (fourth [(1, b), (2, c)]) :=
    .ask 2 c rfl
  have hstale : Step (fourth [(1, b), (2, c)]) (.asked 4 d .blocked)
      (fourth [(1, b), (2, c), (4, d)]) := .ask 4 d rfl
  have hfail : Step (fourth [(1, b), (2, c), (4, d)]) (.failed d .notFound) last :=
    .fail d .notFound rfl
  have hrun := Run.cons ha <| .cons hb <| .cons hc <| .cons hd <| .cons hab <| .cons hbc <|
    .cons hstale <| .cons hfail (.nil _)
  refine ⟨a, d, _, last, hrun, rfl, rfl, rfl, ?_, ?_⟩
  · refine ((cycle_iff_chain_of_waits hrun 3).1 a).mpr ⟨1, [2, 3], rfl, ?_, rfl⟩
    exact .cons_cons ⟨b, rfl, rfl⟩ (.cons_cons ⟨c, rfl, rfl⟩ (.singleton 3))
  · intro hcycle
    cases hcycle

end ProtoSchema.Workers
