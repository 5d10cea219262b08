import ProtoSchema.Proofs.Schema.Alike

/-!
Blocks and what goes on after an error in them. A statement that fails is passed over up to
its end, which lies in the block that it stands in, and one that succeeds took at least one
token. So the statements of a block end at the closing brace of the block, whatever they are.
-/

namespace ProtoSchema

/-- Something is passed over unless a closing brace comes first. -/
theorem resume_length_lt {token : Token} (h : token.lexeme ≠ .mark '\x7d') (rest : List Token) :
    (resume 0 (token :: rest)).length < (token :: rest).length := by
  have hrest (depth : Nat) : (resume depth rest).length < (token :: rest).length :=
    Nat.lt_succ_of_le (resume_suffix depth rest).length_le
  rw [resume, if_neg (by simpa [Token.isMark_iff] using h)]
  split
  · exact Nat.lt_succ_self _
  · split
    · exact hrest 1
    · exact hrest 0

/-- Going on behind a phrase that may have taken something passes something too. -/
theorem resume_length_lt_of_suffix {token : Token} {rest tokens : List Token}
    (hsuffix : tokens <:+ token :: rest) (h : token.lexeme ≠ .mark '\x7d') :
    (resume 0 tokens).length < (token :: rest).length := by
  rcases List.suffix_cons_iff.mp hsuffix with rfl | hrest
  · exact resume_length_lt h rest
  · exact Nat.lt_succ_of_le ((resume_suffix 0 tokens).trans hrest).length_le

namespace Phrase

variable {σ : Type} {name : String} {statement : σ → Phrase σ} {s : σ} {t : Tape}

theorem statements_of_nil (h : t.ahead = []) :
    statements name statement s t = (.error ⟨t.stop, .expected (.closing name) none⟩, t) := by
  unfold statements
  split
  · rfl
  · next hcons => simp [h] at hcons

theorem statements_of_close {token : Token} {rest : List Token} (h : t.ahead = token :: rest)
    (hclose : token.lexeme = .mark '\x7d') :
    statements name statement s t = (.ok s, { t with ahead := rest }) := by
  unfold statements
  split
  · next hnil => simp [h] at hnil
  · next first others hcons =>
    rw [h] at hcons
    cases hcons
    rw [if_pos (Token.isMark_iff.mpr hclose)]

theorem statements_of_open {token : Token} {rest : List Token} (h : t.ahead = token :: rest)
    (hopen : token.lexeme ≠ .mark '\x7d') :
    statements name statement s t =
      statements name statement (settled statement s t).1 (settled statement s t).2 := by
  rw [statements.eq_def]
  split
  · next hnil => simp [h] at hnil
  · next first others hcons =>
    rw [h] at hcons
    cases hcons
    rw [if_neg (by simpa [Token.isMark_iff] using hopen)]

theorem on_mark (c : Char) (t : Tape) :
    (mark c).on t =
      if t.lexeme? 0 = some (.mark c) then (.ok (), t.drop 1)
      else (.error ⟨t.place, .expected (.mark c) (t.lexeme? 0)⟩, t) := by
  rw [mark, on_bind, on_take?]
  by_cases hlook : t.lexeme? 0 = some (.mark c)
  · rw [if_pos hlook, if_pos hlook]
    rfl
  · rw [if_neg hlook, if_neg hlook]
    rfl

theorem on_block (h : t.lexeme? 0 = some (.mark '\x7b')) :
    (block name statement s).on t = statements name statement s (t.drop 1) := by
  rw [block, on_bind, on_mark, if_pos h]
  rfl

/-- A statement that succeeds and takes something is settled. -/
theorem settled_of_ok {s' : σ} {t' : Tape} (h : (statement s).on t = (.ok s', t'))
    (hless : t'.ahead.length < t.ahead.length) : settled statement s t = (s', t') := by
  rw [settled, attempt, h]
  simp only [if_pos hless]

theorem on_keyword {word : String} (h : t.lexeme? 0 = some (.word word)) :
    (keyword word).on t = (.ok (), t.drop 1) := by
  rw [keyword, on_bind, on_take?, if_pos h]
  rfl

theorem on_identifier {word : String} (h : t.lexeme? 0 = some (.word word)) :
    identifier.on t = (.ok word, t.drop 1) := by
  rw [identifier, on_look_bind, h]
  rfl

end Phrase

namespace Bond

open Token (Encloses)
open Phrase (attempt carryOn settled statements)

variable {σ : Type} {l : Bond} {n : Nat} {c d : Option (List Token)} {t u : Tape}
  {S : σ → σ → Prop} {first second : σ → Phrase σ} {s s' : σ}

theorem Ties.putDown (h : l.Ties n c t u) {e : SyntaxError} (hspot : l.Spot e.position) :
    l.Ties n c (t.putDown e) (u.putDown (e.moved l.move)) where
  ahead := h.ahead
  ends := h.ends
  words := h.words
  faults := by
    obtain ⟨new, ht, hu, hspots⟩ := h.faults
    refine ⟨e :: new, ?_, ?_, List.forall_mem_cons.mpr ⟨hspot, hspots⟩⟩
    · simp only [Tape.putDown, ht, List.cons_append]
    · simp only [Tape.putDown, hu, List.map_cons, List.cons_append]
  around := h.around
  length_le := h.length_le

theorem Ties.carryOn (h : l.Ties n c t u) {e : SyntaxError} (hspot : l.Spot e.position) :
    l.Ties n c (carryOn t e) (carryOn u (e.moved l.move)) := by
  have hdown := (h.putDown hspot).goOn (resume_suffix 0 t.ahead) h.around.resume
  rw [← resume_carried h.around, ← h.ahead] at hdown
  exact hdown

/-- What is left of an attempt: the states fit and so do the tapes. When nothing was taken the
statement failed where it started, at a closing brace. -/
structure Attempted (l : Bond) (n : Nat) (c : Option (List Token)) (S : σ → σ → Prop) (t : Tape)
    (r r' : σ × Tape) : Prop where
  states : S r.1 r'.1
  ties : l.Ties n c r.2 r'.2
  suffix : r.2.ahead <:+ t.ahead
  takes : ∀ token rest, t.ahead = token :: rest → token.lexeme ≠ .mark '\x7d' →
    r.2.ahead.length < t.ahead.length

theorem attempted (h : l.Alike n 1 S (first s) (second s')) (hs : S s s')
    (hties : l.Ties n c t u) : l.Attempted n c S t (attempt first s t) (attempt second s' u) := by
  have houtcome := h c t u hties
  unfold attempt
  generalize (first s).on t = r at houtcome ⊢
  generalize (second s').on u = r' at houtcome ⊢
  obtain ⟨r, t'⟩ := r
  obtain ⟨r', u'⟩ := r'
  obtain ⟨hresults, hties', hsuffix, htakes⟩ := houtcome
  cases hresults with
  | ok hS =>
    refine ⟨hS, hties', hsuffix, fun _ _ _ _ => ?_⟩
    exact htakes _ rfl
  | @error e hspot =>
    have hresumed := (resume_suffix 0 t'.ahead).trans hsuffix
    refine ⟨hs, hties'.carryOn hspot, hresumed, fun token rest hahead hopen => ?_⟩
    simp only [hahead] at hsuffix ⊢
    exact resume_length_lt_of_suffix hsuffix hopen

structure Settled (l : Bond) (n : Nat) (c : Option (List Token)) (S : σ → σ → Prop) (t : Tape)
    (r r' : σ × Tape) : Prop where
  states : S r.1 r'.1
  ties : l.Ties n c r.2 r'.2
  suffix : r.2.ahead <:+ t.ahead

/-- In a block a statement is settled only where no closing brace comes first. -/
theorem settled (h : l.Alike n 1 S (first s) (second s')) (hs : S s s') (hties : l.Ties n c t u)
    (hhead : c = none ∨ ∃ token rest, t.ahead = token :: rest ∧ token.lexeme ≠ .mark '\x7d') :
    l.Settled n c S t (settled first s t) (settled second s' u) := by
  obtain ⟨hstates, hties', hsuffix, htakes⟩ := attempted h hs hties
  unfold Phrase.settled
  generalize attempt first s t = r at hstates hties' hsuffix htakes ⊢
  generalize attempt second s' u = r' at hstates hties' ⊢
  refine ⟨hstates, ?_, ?_⟩
  · simp only [hties'.length_eq, hties.length_eq, Nat.add_lt_add_iff_right]
    split
    · exact hties'
    · next hnone =>
      rcases hhead with rfl | ⟨token, rest, hahead, hopen⟩
      · have hsame : r.2.ahead = t.ahead := hsuffix.eq_of_length_le (Nat.le_of_not_lt hnone)
        have hone : t.ahead.drop 1 <:+ r.2.ahead := by
          rw [hsame]
          exact List.drop_suffix 1 t.ahead
        have haround : l.Around none (t.ahead.drop 1) := hties'.around
        have hdrop := hties'.goOn hone haround
        -- Outside blocks the second reading has no further tokens.
        have hu : u.ahead.drop 1 = l.carried (t.ahead.drop 1) := by
          rw [hties.ahead, carried, carried, haround.extra, List.append_nil, List.append_nil,
            List.map_drop]
        rw [← hu] at hdrop
        exact hdrop
      · exact absurd (htakes token rest hahead hopen) hnone
  · simp only
    split
    · exact hsuffix
    · exact List.drop_suffix 1 t.ahead

/-- What the statements of a block come to. In a block that is closed they succeed, and end
just behind its brace. -/
structure Ended (l : Bond) (n : Nat) (c : Option (List Token)) (S : σ → σ → Prop) (t : Tape)
    (r r' : Except SyntaxError σ × Tape) : Prop where
  results : l.Results S r.1 r'.1
  tied : l.Tied n r.2 r'.2
  suffix : r.2.ahead <:+ t.ahead
  closed : ∀ behind, c = some behind → (∃ s, r.1 = .ok s) ∧ r.2.ahead = behind

theorem statements (h : ∀ s s', S s s' → l.Alike n 1 S (first s) (second s')) (name : String)
    {s s' : σ} {t u : Tape} (hs : S s s') (hties : l.Ties n c t u) :
    l.Ended n c S t (statements name first s t) (statements name second s' u) := by
  have haround := hties.around
  cases hahead : t.ahead with
  | nil =>
    have hu := hties.nil hahead
    rw [hahead] at haround
    cases c with
    | some behind => exact absurd rfl haround.ne_nil
    | none =>
      rw [Phrase.statements_of_nil hahead, Phrase.statements_of_nil hu, hties.stop haround]
      refine ⟨.error (haround.spots _), hties.toTied, List.suffix_refl _, fun _ hc => ?_⟩
      cases hc
  | cons token rest =>
    have hu := hties.cons hahead
    by_cases hclose : token.lexeme = .mark '\x7d'
    · rw [Phrase.statements_of_close hahead hclose, Phrase.statements_of_close hu hclose]
      rw [hahead] at haround
      have hsuffix : rest <:+ t.ahead := hahead ▸ List.suffix_cons token rest
      refine ⟨.ok hs, hties.toTied.goOn hsuffix, hsuffix, fun behind hc => ⟨⟨s, rfl⟩, ?_⟩⟩
      subst hc
      exact haround.closing hclose
    · rw [Phrase.statements_of_open hahead hclose, Phrase.statements_of_open hu hclose]
      have hsettled := settled (h s s' hs) hs hties (.inr ⟨token, rest, hahead, hclose⟩)
      have hless := Phrase.length_settled first s (by simp [hahead] : t.ahead ≠ [])
      have hend := statements h name hsettled.states hsettled.ties
      exact ⟨hend.results, hend.tied, hend.suffix.trans hsettled.suffix, hend.closed⟩
termination_by t.ahead.length

def Within (l : Bond) (d : Option (List Token)) : Option (List Token) → Prop
  | none => d = none
  | some behind => l.Around d behind

/-- Behind its brace a block leaves the tapes tied in what goes around it. -/
theorem Ended.outcome {r r' : Except SyntaxError σ × Tape} (h : l.Ended n c S t r r')
    (haround : l.Around c t.ahead) (hwithin : l.Within d c) : l.Outcome n d 0 S t r r' := by
  refine ⟨h.results, ⟨h.tied, ?_⟩, h.suffix, fun _ _ => h.suffix.length_le⟩
  cases c with
  | none =>
    subst hwithin
    exact haround
  | some behind =>
    rw [(h.closed behind rfl).2]
    exact hwithin

/-- Behind an opening brace the tapes are tied inside its block. -/
theorem Ties.opening (h : l.Ties n d t u) (hlook : t.lexeme? 0 = some (.mark '\x7b')) :
    ∃ c, l.Within d c ∧ l.Ties (n - 1) c (t.drop 1) (u.drop 1) ∧
      (t.drop 1).ahead.length + 1 = t.ahead.length := by
  cases hahead : t.ahead with
  | nil => simp [Tape.lexeme?, hahead] at hlook
  | cons token rest =>
    have hopen : token.lexeme = .mark '\x7b' := by simpa [Tape.lexeme?, hahead] using hlook
    have hdrop : t.ahead.drop 1 = rest := by rw [hahead, List.drop_one, List.tail_cons]
    have haround := h.around
    rw [hahead] at haround
    obtain ⟨c, hwithin, hinner⟩ : ∃ c, l.Within d c ∧ l.Around c rest := by
      cases d with
      | none => exact ⟨none, rfl, haround⟩
      | some behind =>
        obtain ⟨after, hinner, houter⟩ := haround.opening hopen
        exact ⟨some after, houter, hinner⟩
    rw [← hdrop] at hinner
    have hinside := h.drop (by simp [hahead]) hinner
    have hlength : (t.drop 1).ahead.length + 1 = t.ahead.length := by
      rw [Tape.drop, hdrop, hahead, List.length_cons]
    refine ⟨c, hwithin, { hinside with length_le := ?_ }, ?_⟩
    · have hfew := h.length_le
      omega
    · rw [← hahead, hlength]

/-- Behind an opening brace less is left, and the tapes are tied inside its block. -/
theorem Alike.open_bind {β : Type} {R : β → β → Prop} {f g : Unit → Phrase β}
    (h : 0 < n → ∀ c d t u, l.Within d c → l.Ties (n - 1) c t u →
      l.Outcome n d 0 R t ((f ()).on t) ((g ()).on u)) :
    l.Alike n 1 R (Phrase.mark '\x7b' >>= f) (Phrase.mark '\x7b' >>= g) := by
  intro d t u hties
  rw [Phrase.on_bind, Phrase.on_bind, Phrase.on_mark, Phrase.on_mark, hties.first]
  by_cases hlook : t.lexeme? 0 = some (.mark '\x7b')
  · rw [if_pos hlook, if_pos hlook]
    obtain ⟨c, hwithin, hinside, hlength⟩ := hties.opening hlook
    have hfew := hties.length_le
    have hoc := h (by omega) c d _ _ hwithin hinside
    exact hoc.further (Nat.le_refl n) (List.drop_suffix 1 t.ahead) (by omega)
  · rw [if_neg hlook, if_neg hlook]
    obtain ⟨hmove, hspot⟩ := hties.place
    rw [hmove]
    exact .stay hties (.error hspot) fun _ ha => by cases ha

theorem Alike.block (h : 0 < n → ∀ s s', S s s' → l.Alike (n - 1) 1 S (first s) (second s'))
    (name : String) (hs : S s s') :
    l.Alike n 1 S (Phrase.block name first s) (Phrase.block name second s') := by
  refine .open_bind fun hn c d t u hwithin hinside => ?_
  have hoc := (statements (h hn) name hs hinside).outcome hinside.around hwithin
  exact ⟨hoc.results, hoc.ties.mono (Nat.sub_le n 1), hoc.suffix, hoc.takes⟩

end Bond

end ProtoSchema
