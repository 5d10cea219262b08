import ProtoSchema.Proofs.Schema.Grammar
import ProtoSchema.Proofs.Schema.Taking

/-!
The reading of a text beside the reading of the text with one of its integers written in
another way. Where the first reading succeeds and puts down no error, the second one goes along
with it: it takes the tokens that the first one takes and ends where that one ends. Only where
the changed integer is asked for as a number, and is too large for one, does the second reading
fail, with an error at the integer. That error is never taken back.
-/

namespace ProtoSchema

open Phrase (numberLimit)

structure Renumbering where
  tokens : List Token
  target : Token
  written : String
  hwritten : target.lexeme = .integer written
  other : String
  move : Position → Position

namespace Renumbering

variable {α β γ σ : Type} (r : Renumbering)

def token (token : Token) : Token :=
  ⟨if token = r.target then .integer r.other else token.lexeme, r.move token.position⟩

def Unfit : Prop := (Numeral.value? r.other.toList).filter (· ≤ numberLimit) = none

def fault : SyntaxError := ⟨r.move r.target.position, .integerRange r.other⟩

structure Tied (t u : Tape) : Prop where
  ahead : u.ahead = t.ahead.map r.token
  stop : u.stop = r.move t.stop
  suffix : t.ahead <:+ r.tokens

/-- What the second reading comes to where the first one gives `a` and stops at `t'`: a value
that fits, without a new error on either side, or the error at the changed integer. The errors
put down before were `earlier` and `others`. -/
inductive Ending (R : α → β → Prop) (a : α) (t' : Tape) (earlier others : List SyntaxError) :
    Except SyntaxError β × Tape → Prop
  | kept {b : β} {u' : Tape} (hties : r.Tied t' u') (ht : t'.faults = earlier)
      (hu : u'.faults = others) (hR : R a b) : Ending R a t' earlier others (.ok b, u')
  | refused {u' : Tape} (hunfit : r.Unfit) (hu : u'.faults = others) :
      Ending R a t' earlier others (.error r.fault, u')

inductive Settling (R : α → β → Prop) (a : α) (t' : Tape) (earlier others : List SyntaxError) :
    Except SyntaxError β × Tape → Prop
  | ended {y : Except SyntaxError β × Tape} (h : r.Ending R a t' earlier others y) :
      Settling R a t' earlier others y
  | putDown {y : Except SyntaxError β × Tape} (hunfit : r.Unfit)
      (hfaults : ∃ later, y.2.faults = later ++ r.fault :: others) :
      Settling R a t' earlier others y

def FollowsAt (R : α → β → Prop) (t u : Tape) (x : Except SyntaxError α × Tape)
    (y : Except SyntaxError β × Tape) : Prop :=
  ∀ a t', x = (.ok a, t') → r.Ending R a t' t.faults u.faults y

def SettlesAt (R : α → β → Prop) (t u : Tape) (x : Except SyntaxError α × Tape)
    (y : Except SyntaxError β × Tape) : Prop :=
  ∀ a t', x = (.ok a, t') → t'.faults = t.faults → r.Settling R a t' t.faults u.faults y

def Follows (R : α → β → Prop) (p : Phrase α) (q : Phrase β) : Prop :=
  ∀ t u, r.Tied t u → r.FollowsAt R t u (p.on t) (q.on u)

def Settles (R : α → β → Prop) (p : Phrase α) (q : Phrase β) : Prop :=
  ∀ t u, r.Tied t u → r.SettlesAt R t u (p.on t) (q.on u)

def Any (_ : α) (_ : β) : Prop := True

def SameLook (a b : Option Lexeme) : Prop :=
  b = a ∨ ∃ s s', a = some (.integer s) ∧ b = some (.integer s')

variable {r} {R : α → β → Prop} {t t' u : Tape} {p : Phrase α} {q : Phrase β} {a : α}
  {earlier : List SyntaxError} {lexeme : Lexeme} {tokens : List Token}

section Tokens

theorem token_of_ne {token : Token} (h : token ≠ r.target) :
    r.token token = ⟨token.lexeme, r.move token.position⟩ := by
  rw [Renumbering.token, if_neg h]

theorem token_target : r.token r.target = ⟨.integer r.other, r.move r.target.position⟩ := by
  rw [Renumbering.token, if_pos rfl]

theorem lexeme_token (token : Token) : (r.token token).lexeme = token.lexeme ∨
    ∃ s, token.lexeme = .integer s ∧ (r.token token).lexeme = .integer r.other := by
  by_cases htarget : token = r.target
  · exact .inr ⟨r.written, by rw [htarget, r.hwritten], if_pos htarget⟩
  · exact .inl (if_neg htarget)

/-- All but integers are the same in both texts. -/
theorem lexeme_token_eq_iff (token : Token) (lexeme : Lexeme)
    (hlexeme : ∀ s, lexeme ≠ .integer s) :
    (r.token token).lexeme = lexeme ↔ token.lexeme = lexeme := by
  rcases r.lexeme_token token with hsame | ⟨s, hs, hother⟩
  · rw [hsame]
  · rw [hs, hother]
    exact ⟨fun h => absurd h.symm (hlexeme _), fun h => absurd h.symm (hlexeme _)⟩

theorem aggregateRest_token {depth : Nat} {parts : List String} {behind : List Token}
    (h : Phrase.aggregateRest depth tokens = some (parts, behind)) :
    ∃ others,
      Phrase.aggregateRest depth (tokens.map r.token) = some (others, behind.map r.token) := by
  induction tokens generalizing depth parts with
  | nil =>
    unfold Phrase.aggregateRest at h
    cases h
  | cons token rest ih =>
    have hmore (d : Nat) (h : ((Phrase.aggregateRest d rest).map fun found =>
        (Phrase.aggregateText token.lexeme :: found.1, found.2)) = some (parts, behind)) :
        ∃ others, ((Phrase.aggregateRest d (rest.map r.token)).map fun found =>
          (Phrase.aggregateText (r.token token).lexeme :: found.1, found.2)) =
            some (others, behind.map r.token) := by
      obtain ⟨⟨inner, after⟩, hinner, heq⟩ := Option.map_eq_some_iff.mp h
      cases heq
      obtain ⟨others, hothers⟩ := ih hinner
      rw [hothers]
      exact ⟨_, rfl⟩
    have hmark (c : Char) := r.lexeme_token_eq_iff token (.mark c) (by simp)
    rw [List.map_cons]
    unfold Phrase.aggregateRest at h ⊢
    by_cases hopen : token.lexeme = .mark '\x7b'
    · rw [if_pos hopen] at h
      rw [if_pos ((hmark _).mpr hopen)]
      exact hmore _ h
    rw [if_neg hopen] at h
    rw [if_neg (mt (hmark _).mp hopen)]
    by_cases hclose : token.lexeme = .mark '\x7d'
    · rw [if_pos hclose] at h
      rw [if_pos ((hmark _).mpr hclose)]
      cases depth with
      | zero =>
        cases h
        exact ⟨_, rfl⟩
      | succ depth => exact hmore _ h
    · rw [if_neg hclose] at h
      rw [if_neg (mt (hmark _).mp hclose)]
      exact hmore _ h

theorem skippedRest_token (tokens : List Token) : Phrase.skippedRest (tokens.map r.token) =
    ((Phrase.skippedRest tokens).1, (Phrase.skippedRest tokens).2.map r.token) := by
  induction tokens with
  | nil => rfl
  | cons token rest ih =>
    have hmark (c : Char) := r.lexeme_token_eq_iff token (.mark c) (by simp)
    simp only [List.map_cons, Phrase.skippedRest, hmark, ih]
    split
    · rfl
    · split <;> rfl

theorem leadingLiterals_token (tokens : List Token) :
    Phrase.leadingLiterals (tokens.map r.token) = Phrase.leadingLiterals tokens := by
  induction tokens with
  | nil => rfl
  | cons token rest ih =>
    have hother (first : Token) (others : List Token)
        (hfirst : ∀ value, first.lexeme ≠ .literal value) :
        Phrase.leadingLiterals (first :: others) = [] := by
      obtain ⟨lexeme, position⟩ := first
      cases lexeme with
      | literal value => exact absurd rfl (hfirst value)
      | _ => rfl
    by_cases hliteral : ∃ value, token.lexeme = .literal value
    · obtain ⟨value, hvalue⟩ := hliteral
      have hmoved := (r.lexeme_token_eq_iff token (.literal value) (by simp)).mpr hvalue
      generalize hfirst : r.token token = first at hmoved
      obtain ⟨lexeme, position⟩ := token
      obtain ⟨lexeme', position'⟩ := first
      cases hvalue
      cases hmoved
      rw [List.map_cons, hfirst]
      exact congrArg (value :: ·) ih
    · rw [not_exists] at hliteral
      rw [List.map_cons, hother _ _ hliteral]
      refine hother _ _ fun value => ?_
      rw [ne_eq, r.lexeme_token_eq_iff token (.literal value) (by simp)]
      exact hliteral value

end Tokens

theorem SameLook.eq_some_iff {a b : Option Lexeme} (h : SameLook a b) (lexeme : Lexeme)
    (hlexeme : ∀ s, lexeme ≠ .integer s) : b = some lexeme ↔ a = some lexeme := by
  rcases h with rfl | ⟨s, s', rfl, rfl⟩
  · exact Iff.rfl
  · rw [Option.some.injEq, Option.some.injEq]
    exact ⟨fun h => absurd h.symm (hlexeme s'), fun h => absurd h.symm (hlexeme s)⟩

namespace Tied

theorem look (h : r.Tied t u) (k : Nat) : SameLook (t.lexeme? k) (u.lexeme? k) := by
  rw [Tape.lexeme?, Tape.lexeme?, h.ahead, List.getElem?_map]
  cases t.ahead[k]? with
  | none => exact .inl rfl
  | some token =>
    rcases r.lexeme_token token with hsame | ⟨s, hs, hother⟩
    · exact .inl (congrArg some hsame)
    · exact .inr ⟨s, r.other, congrArg some hs, congrArg some hother⟩

theorem place (h : r.Tied t u) : u.place = r.move t.place := by
  rw [Tape.place, Tape.place, h.ahead, h.stop]
  cases t.ahead with
  | nil => rfl
  | cons token rest => rfl

/-- The tapes are tied further on. -/
theorem goOn (h : r.Tied t u) {rest : List Token} (hrest : rest <:+ t.ahead) :
    r.Tied { t with ahead := rest } { u with ahead := rest.map r.token } :=
  ⟨rfl, h.stop, hrest.trans h.suffix⟩

theorem drop (h : r.Tied t u) (k : Nat) : r.Tied (t.drop k) (u.drop k) := by
  have hdrop := h.goOn (List.drop_suffix k t.ahead)
  rw [List.map_drop, ← h.ahead] at hdrop
  exact hdrop

end Tied

section Combining

variable {S : γ → σ → Prop} {f : α → Phrase γ} {g : β → Phrase σ}
  {x : Except SyntaxError α × Tape} {y : Except SyntaxError β × Tape}

theorem exists_of_on_bind {c : γ} {t'' : Tape} (h : (p >>= f).on t = (.ok c, t'')) :
    ∃ a t', p.on t = (.ok a, t') ∧ (f a).on t' = (.ok c, t'') := by
  rw [Phrase.on_bind] at h
  generalize hon : p.on t = x at h
  obtain ⟨result, t'⟩ := x
  cases result with
  | ok a => exact ⟨a, t', rfl, h⟩
  | error e => cases h

theorem FollowsAt.of_error {e : SyntaxError} : r.FollowsAt R t u (.error e, t') y :=
  fun _ _ h => by cases h

theorem FollowsAt.ok {b : β} {u' : Tape} (hties : r.Tied t' u') (ht : t'.faults = t.faults)
    (hu : u'.faults = u.faults) (hR : R a b) : r.FollowsAt R t u (.ok a, t') (.ok b, u') := by
  intro _ _ heq
  cases heq
  exact .kept hties ht hu hR

theorem FollowsAt.settlesAt (h : r.FollowsAt R t u x y) : r.SettlesAt R t u x y :=
  fun a t' hx _ => .ended (h a t' hx)

theorem FollowsAt.any (h : r.FollowsAt R t u x y) : r.FollowsAt Any t u x y := by
  intro a t' hx
  cases h a t' hx with
  | kept hties ht hu _ => exact .kept hties ht hu trivial
  | refused hunfit hu => exact .refused hunfit hu

/-- Where the first of two phrases is followed the second one starts on tied tapes, or the error
is that of the first one. -/
theorem FollowsAt.bind (h : r.FollowsAt R t u (p.on t) (q.on u))
    (hf : ∀ a b, R a b → r.Follows S (f a) (g b)) :
    r.FollowsAt S t u ((p >>= f).on t) ((q >>= g).on u) := by
  intro c t'' hlast
  obtain ⟨a, t', hon, hlast⟩ := exists_of_on_bind hlast
  have hending := h a t' hon
  generalize hsecond : q.on u = y at hending
  cases hending with
  | kept hties ht hu hR =>
    rw [Phrase.on_bind_of_ok hsecond, ← ht, ← hu]
    exact hf _ _ hR _ _ hties c t'' hlast
  | refused hunfit hu =>
    rw [Phrase.on_bind_of_error hsecond]
    exact .refused hunfit hu

theorem FollowsAt.bind_settles (h : r.FollowsAt R t u (p.on t) (q.on u))
    (hf : ∀ a b, R a b → r.Settles S (f a) (g b)) :
    r.SettlesAt S t u ((p >>= f).on t) ((q >>= g).on u) := by
  intro c t'' hlast hfaults
  obtain ⟨a, t', hon, hlast⟩ := exists_of_on_bind hlast
  have hending := h a t' hon
  generalize hsecond : q.on u = y at hending
  cases hending with
  | kept hties ht hu hR =>
    rw [Phrase.on_bind_of_ok hsecond, ← ht, ← hu]
    exact hf _ _ hR _ _ hties c t'' hlast (hfaults.trans ht.symm)
  | refused hunfit hu =>
    rw [Phrase.on_bind_of_error hsecond]
    exact .ended (.refused hunfit hu)

/-- Behind a block what was read is only put together. -/
theorem SettlesAt.bind_pure {f : α → γ} {g : β → σ} (h : r.SettlesAt R t u (p.on t) (q.on u))
    (hf : ∀ a b, R a b → S (f a) (g b)) :
    r.SettlesAt S t u ((p >>= fun a => Pure.pure (f a)).on t)
      ((q >>= fun b => Pure.pure (g b)).on u) := by
  intro c t'' hlast hfaults
  obtain ⟨a, _, hon, hlast⟩ := exists_of_on_bind hlast
  cases hlast
  have hsettling := h a _ hon hfaults
  generalize hsecond : q.on u = y at hsettling
  cases hsettling with
  | ended hending =>
    cases hending with
    | kept hties ht hu hR =>
      rw [Phrase.on_bind_of_ok hsecond]
      exact .ended (.kept hties ht hu (hf _ _ hR))
    | refused hunfit hu =>
      rw [Phrase.on_bind_of_error hsecond]
      exact .ended (.refused hunfit hu)
  | putDown hunfit hfaults =>
    refine .putDown hunfit ?_
    obtain ⟨result, u'⟩ := y
    cases result with
    | ok b =>
      rw [Phrase.on_bind_of_ok hsecond]
      exact hfaults
    | error e =>
      rw [Phrase.on_bind_of_error hsecond]
      exact hfaults

namespace Follows

theorem any (h : r.Follows R p q) : r.Follows Any p q := fun t u hties => (h t u hties).any

theorem settles (h : r.Follows R p q) : r.Settles R p q :=
  fun t u hties => (h t u hties).settlesAt

theorem pure {b : β} (h : R a b) : r.Follows R (Pure.pure a) (Pure.pure b) :=
  fun _ _ hties => .ok hties rfl rfl h

theorem failAt (position : Position) (fault : SyntaxFault) :
    r.Follows R (Phrase.failAt position fault) q := fun _ _ _ => .of_error

theorem expected (wanted : Wanted) : r.Follows R (Phrase.expected wanted) q :=
  fun _ _ _ => .of_error

theorem failAt_bind (position : Position) (fault : SyntaxFault) :
    r.Follows S ((Phrase.failAt position fault : Phrase α) >>= f) (q >>= g) :=
  fun _ _ _ => .of_error

theorem bind (h : r.Follows R p q) (hf : ∀ a b, R a b → r.Follows S (f a) (g b)) :
    r.Follows S (p >>= f) (q >>= g) :=
  fun t u hties => (h t u hties).bind hf

theorem bind_settles (h : r.Follows R p q) (hf : ∀ a b, R a b → r.Settles S (f a) (g b)) :
    r.Settles S (p >>= f) (q >>= g) :=
  fun t u hties => (h t u hties).bind_settles hf

theorem ite {c d : Prop} [Decidable c] [Decidable d] {p' : Phrase α} {q' : Phrase β}
    (hcond : d ↔ c) (hp : c → r.Follows R p q) (hq : ¬c → r.Follows R p' q') :
    r.Follows R (if c then p else p') (if d then q else q') := by
  by_cases hc : c
  · rw [if_pos hc, if_pos (hcond.mpr hc)]
    exact hp hc
  · rw [if_neg hc, if_neg (mt hcond.mp hc)]
    exact hq hc

theorem place_bind {f : Position → Phrase α} {g : Position → Phrase β}
    (h : ∀ position, r.Follows R (f position) (g (r.move position))) :
    r.Follows R (Phrase.place >>= f) (Phrase.place >>= g) := by
  intro t u hties
  rw [Phrase.on_place_bind, Phrase.on_place_bind, hties.place]
  exact h t.place t u hties

/-- Looking ahead shows the same, or an integer each. -/
theorem look_bind {f : Option Lexeme → Phrase α} {g : Option Lexeme → Phrase β} (k : Nat)
    (h : ∀ found found', SameLook found found' → r.Follows R (f found) (g found')) :
    r.Follows R (Phrase.look k >>= f) (Phrase.look k >>= g) :=
  fun t u hties => h _ _ (hties.look k) t u hties

theorem skip_bind {f : Unit → Phrase α} {g : Unit → Phrase β} (k : Nat)
    (h : r.Follows R (f ()) (g ())) :
    r.Follows R (Phrase.skip k >>= f) (Phrase.skip k >>= g) :=
  fun _ _ hties => h _ _ (hties.drop k)

/-- What is no integer is taken from both tapes or from neither. -/
theorem take? (hlexeme : ∀ s, lexeme ≠ .integer s) :
    r.Follows Eq (Phrase.take? lexeme) (Phrase.take? lexeme) := by
  intro t u hties
  have hlook := (hties.look 0).eq_some_iff lexeme hlexeme
  rw [Phrase.on_take?, Phrase.on_take?]
  by_cases hfirst : t.lexeme? 0 = some lexeme
  · rw [if_pos hfirst, if_pos (hlook.mpr hfirst)]
    exact .ok (hties.drop 1) rfl rfl rfl
  · rw [if_neg hfirst, if_neg (mt hlook.mp hfirst)]
    exact .ok hties rfl rfl rfl

theorem take?_bind {f : Bool → Phrase α} {g : Bool → Phrase β}
    (hlexeme : ∀ s, lexeme ≠ .integer s)
    (htrue : r.Follows R (f true) (g true)) (hfalse : r.Follows R (f false) (g false)) :
    r.Follows R (Phrase.take? lexeme >>= f) (Phrase.take? lexeme >>= g) := by
  refine (take? hlexeme).bind fun found _ heq => ?_
  subst heq
  cases found with
  | true => exact htrue
  | false => exact hfalse

theorem mark (c : Char) : r.Follows Any (Phrase.mark c) (Phrase.mark c) :=
  take?_bind (by simp) (.pure trivial) (.expected _)

theorem mark_bind {f : Unit → Phrase α} {g : Unit → Phrase β} {c : Char}
    (h : r.Follows R (f ()) (g ())) :
    r.Follows R (Phrase.mark c >>= f) (Phrase.mark c >>= g) :=
  (mark c).bind fun _ _ _ => h

theorem keyword (word : String) : r.Follows Any (Phrase.keyword word) (Phrase.keyword word) :=
  take?_bind (by simp) (.pure trivial) (.expected _)

theorem keyword_bind {f : Unit → Phrase α} {g : Unit → Phrase β} {word : String}
    (h : r.Follows R (f ()) (g ())) :
    r.Follows R (Phrase.keyword word >>= f) (Phrase.keyword word >>= g) :=
  (keyword word).bind fun _ _ _ => h

theorem identifier : r.Follows Eq Phrase.identifier Phrase.identifier := by
  refine look_bind 0 fun found found' hlook => ?_
  rcases hlook with rfl | ⟨s, s', rfl, rfl⟩
  · split
    · exact skip_bind 1 (.pure rfl)
    · exact .expected _
  · exact .expected _

/-- Items with separators between them. -/
theorem separated {sep : Char} {item : Phrase α} (h : r.Follows Any item item) :
    r.Follows Any (Phrase.separated sep item) (Phrase.separated sep item) := by
  have hmore (rounds : Nat) : r.Follows Any (Phrase.moreSeparated sep item rounds)
      (Phrase.moreSeparated sep item rounds) := by
    induction rounds with
    | zero => exact .pure trivial
    | succ rounds ih =>
      refine take?_bind (by simp) (h.bind fun _ _ _ => ?_) (.pure trivial)
      exact ih.bind fun _ _ _ => .pure trivial
  refine h.bind fun _ _ _ t u hties => ?_
  rw [Phrase.on_tape_bind, Phrase.on_tape_bind, hties.ahead, List.length_map]
  exact ((hmore _).bind fun _ _ _ => .pure trivial) t u hties

theorem literal : r.Follows Eq Phrase.literal Phrase.literal := by
  intro t u hties
  rw [Phrase.literal, Phrase.on_tape_bind, Phrase.on_tape_bind, hties.ahead, leadingLiterals_token]
  split
  · exact .of_error
  · exact .ok (hties.drop _) rfl rfl rfl

end Follows

namespace Settles

theorem pure {b : β} (h : R a b) : r.Settles R (Pure.pure a) (Pure.pure b) :=
  (Follows.pure h).settles

theorem place_bind {f : Position → Phrase α} {g : Position → Phrase β}
    (h : ∀ position, r.Settles R (f position) (g (r.move position))) :
    r.Settles R (Phrase.place >>= f) (Phrase.place >>= g) := by
  intro t u hties
  rw [Phrase.on_place_bind, Phrase.on_place_bind, hties.place]
  exact h t.place t u hties

theorem look_bind {f : Option Lexeme → Phrase α} {g : Option Lexeme → Phrase β} (k : Nat)
    (h : ∀ found found', SameLook found found' → r.Settles R (f found) (g found')) :
    r.Settles R (Phrase.look k >>= f) (Phrase.look k >>= g) :=
  fun t u hties => h _ _ (hties.look k) t u hties

theorem take?_bind {f : Bool → Phrase α} {g : Bool → Phrase β}
    (hlexeme : ∀ s, lexeme ≠ .integer s)
    (htrue : r.Settles R (f true) (g true)) (hfalse : r.Settles R (f false) (g false)) :
    r.Settles R (Phrase.take? lexeme >>= f) (Phrase.take? lexeme >>= g) := by
  refine (Follows.take? hlexeme).bind_settles fun found _ heq => ?_
  subst heq
  cases found with
  | true => exact htrue
  | false => exact hfalse

theorem keyword_bind {f : Unit → Phrase α} {g : Unit → Phrase β} {word : String}
    (h : r.Settles R (f ()) (g ())) :
    r.Settles R (Phrase.keyword word >>= f) (Phrase.keyword word >>= g) :=
  (Follows.keyword word).bind_settles fun _ _ _ => h

theorem ite {c d : Prop} [Decidable c] [Decidable d] {p' : Phrase α} {q' : Phrase β}
    (hcond : d ↔ c) (hp : c → r.Settles R p q) (hq : ¬c → r.Settles R p' q') :
    r.Settles R (if c then p else p') (if d then q else q') := by
  by_cases hc : c
  · rw [if_pos hc, if_pos (hcond.mpr hc)]
    exact hp hc
  · rw [if_neg hc, if_neg (mt hcond.mp hc)]
    exact hq hc

theorem bind_pure {f : α → γ} {g : β → σ} (h : r.Settles R p q)
    (hf : ∀ a b, R a b → S (f a) (g b)) :
    r.Settles S (p >>= fun a => Pure.pure (f a)) (q >>= fun b => Pure.pure (g b)) :=
  fun t u hties => (h t u hties).bind_pure hf

end Settles

end Combining

section Numbers

/-- The tokens give a number to the name at the place: the name, an equals sign, perhaps a minus
sign, and the literal. -/
def Gives (tokens : List Token) (position : Position) (negative : Bool) (literal : Token) : Prop :=
  ∃ word equals sign, Sign negative sign ∧
    ⟨.word word, position⟩ :: ⟨.mark '=', equals⟩ :: (sign ++ [literal]) <:+: tokens

def SameLiteral (r : Renumbering) (position : Position) (x y : Int) : Prop :=
  ∃ negative literal, Gives r.tokens position negative literal ∧
    Amounts literal.lexeme negative x ∧ Amounts (r.token literal).lexeme negative y

variable {negative : Bool} {sign rest : List Token} {literal : Token} {written : String}

/-- What an integer that comes first is read as. -/
theorem on_integer (hsign : Sign negative sign) (hahead : t.ahead = sign ++ literal :: rest)
    (hwritten : literal.lexeme = .integer written) : Phrase.integer.on t =
      match (Numeral.value? written.toList).filter (· ≤ numberLimit) with
      | some n => (.ok (if negative then -(n : Int) else n), t.drop (sign.length + 1))
      | none => (.error ⟨literal.position, .integerRange written⟩, t.drop sign.length) := by
  cases hsign with
  | plus =>
    have hlook : t.lexeme? 0 = some (.integer written) := by
      simp [Tape.lexeme?, hahead, hwritten]
    have hplace : t.place = literal.position := by rw [Tape.place, hahead]; rfl
    rw [Phrase.integer, Phrase.on_bind, Phrase.on_take?, if_neg (by simp [hlook])]
    simp only
    rw [Phrase.on_look_bind, hlook]
    simp only
    generalize (Numeral.value? written.toList).filter (· ≤ numberLimit) = found
    cases found with
    | some n => rfl
    | none =>
      rw [Phrase.on_place_bind, hplace]
      rfl
  | minus position =>
    have hlook : t.lexeme? 0 = some (.mark '-') := by simp [Tape.lexeme?, hahead]
    have hnext : (t.drop 1).lexeme? 0 = some (.integer written) := by
      simp [Tape.lexeme?, Tape.drop, hahead, hwritten]
    have hplace : (t.drop 1).place = literal.position := by simp [Tape.place, Tape.drop, hahead]
    rw [Phrase.integer, Phrase.on_bind, Phrase.on_take?, if_pos hlook]
    simp only
    rw [Phrase.on_look_bind, hnext]
    simp only
    generalize (Numeral.value? written.toList).filter (· ≤ numberLimit) = found
    cases found with
    | some n =>
      rw [Phrase.on_skip_bind, Phrase.drop_drop]
      rfl
    | none =>
      rw [Phrase.on_place_bind, hplace]
      rfl

/-- A phrase that fails in front of all but integers has succeeded in front of an integer. -/
theorem exists_integer_ahead {f : Option Lexeme → Phrase α}
    (h : (Phrase.look 0 >>= f).on t = (.ok a, t'))
    (hf : ∀ found, (∀ s, found ≠ some (.integer s)) → f found = Phrase.expected .integer) :
    ∃ literal rest written, t.ahead = literal :: rest ∧ literal.lexeme = .integer written := by
  rw [Phrase.on_look_bind] at h
  by_cases hinteger : ∃ s, t.lexeme? 0 = some (.integer s)
  · obtain ⟨written, hlook⟩ := hinteger
    obtain ⟨position, rest, hahead⟩ := Phrase.exists_of_lexeme? hlook
    exact ⟨_, rest, written, hahead, rfl⟩
  · rw [hf _ (not_exists.mp hinteger), Phrase.on_expected] at h
    cases h

theorem exists_of_on_integer {x : Int} (h : Phrase.integer.on t = (.ok x, t')) :
    ∃ negative sign literal rest written, Sign negative sign ∧
      t.ahead = sign ++ literal :: rest ∧ literal.lexeme = Lexeme.integer written := by
  rw [Phrase.integer, Phrase.on_bind, Phrase.on_take?] at h
  split at h
  · next hminus =>
    split at hminus
    · next hlook =>
      cases hminus
      obtain ⟨literal, rest, written, hahead, hwritten⟩ :=
        exists_integer_ahead h fun found hfound => by
          split
          · exact absurd rfl (hfound _)
          · rfl
      obtain ⟨position, others, hsign⟩ := Phrase.exists_of_lexeme? hlook
      refine ⟨true, _, literal, rest, written, .minus position, ?_, hwritten⟩
      simp only [Tape.drop, hsign, List.drop_succ_cons, List.drop_zero] at hahead
      rw [hsign, hahead]
      rfl
    · cases hminus
      obtain ⟨literal, rest, written, hahead, hwritten⟩ :=
        exists_integer_ahead h fun found hfound => by
          split
          · exact absurd rfl (hfound _)
          · rfl
      exact ⟨false, [], literal, rest, written, .plus, hahead, hwritten⟩
  · cases h

theorem sign_token (h : Sign negative sign) : Sign negative (sign.map r.token) := by
  cases h with
  | plus => exact .plus
  | minus position =>
    have hminus := (r.lexeme_token_eq_iff ⟨.mark '-', position⟩ (.mark '-') (by simp)).mpr rfl
    have hmoved : r.token ⟨.mark '-', position⟩ = ⟨.mark '-', r.move position⟩ :=
      congrArg (Token.mk · (r.move position)) hminus
    rw [List.map_singleton, hmoved]
    exact .minus _

/-- The number behind a name: both readings take it, or the second one is refused at it. -/
theorem follows_number {word : String} {position : Position} (hties : r.Tied t u)
    (hfront : ⟨.word word, position⟩ :: t.ahead <:+ r.tokens) :
    r.FollowsAt (r.SameLiteral position) t u
      ((Phrase.mark '=' >>= fun _ => Phrase.integer).on t)
      ((Phrase.mark '=' >>= fun _ => Phrase.integer).on u) := by
  intro x t' hon
  obtain ⟨_, t₁, hmark, hint⟩ := exists_of_on_bind hon
  rw [Phrase.on_mark] at hmark
  split at hmark
  swap
  · cases hmark
  next hlook =>
  cases hmark
  obtain ⟨equals, rest, hrest⟩ := Phrase.exists_of_lexeme? hlook
  obtain ⟨negative, sign, literal, behind, written, hsign, hahead, hwritten⟩ :=
    exists_of_on_integer hint
  have hbehind : rest = sign ++ literal :: behind := by
    rw [← hahead]
    simp [Tape.drop, hrest]
  have hgives : Gives r.tokens position negative literal := by
    refine ⟨word, equals, sign, hsign, List.IsInfix.trans ?_ hfront.isInfix⟩
    rw [hrest, hbehind]
    exact ⟨[], behind, by simp⟩
  -- The second tape has the same mark in front, and some integer behind it.
  have hlook' := ((hties.look 0).eq_some_iff (.mark '=') (by simp)).mpr hlook
  have hahead' : (u.drop 1).ahead = sign.map r.token ++ r.token literal :: behind.map r.token := by
    rw [(hties.drop 1).ahead, hahead, List.map_append, List.map_cons]
  obtain ⟨written', hwritten'⟩ : ∃ s, (r.token literal).lexeme = .integer s := by
    rcases r.lexeme_token literal with hsame | ⟨_, _, hother⟩
    · exact ⟨written, hsame.trans hwritten⟩
    · exact ⟨r.other, hother⟩
  rw [on_integer hsign hahead hwritten] at hint
  rw [Phrase.on_bind, Phrase.on_mark, if_pos hlook']
  simp only
  rw [on_integer (sign_token hsign) hahead' hwritten', List.length_map]
  split at hint
  swap
  · cases hint
  next n hn =>
  cases hint
  have hamounts : Amounts literal.lexeme negative _ := amounts_of_limited hwritten hn
  have hdrop (k : Nat) := (hties.drop 1).drop k
  cases hm : (Numeral.value? written'.toList).filter (· ≤ numberLimit) with
  | some m =>
    exact .kept (hdrop _) rfl rfl ⟨negative, literal, hgives, hamounts,
      amounts_of_limited hwritten' hm⟩
  | none =>
    -- Only the changed integer can have become too large.
    have htarget : literal = r.target := by
      by_contra hne
      have hsame : (r.token literal).lexeme = literal.lexeme := if_neg hne
      rw [hwritten, hwritten', Lexeme.integer.injEq] at hsame
      rw [hsame, hn] at hm
      cases hm
    have hother : written' = r.other := by
      rw [htarget, token, if_pos rfl, Lexeme.integer.injEq] at hwritten'
      exact hwritten'.symm
    subst htarget hother
    exact .refused hm rfl

/-- A name with its place is read from both tapes or fails on the first one. -/
theorem on_named (hties : r.Tied t u) (f : Position → String → Phrase α)
    (g : Position → String → Phrase β) :
    (∃ e, (Phrase.place >>= fun position => Phrase.identifier >>= f position).on t =
      (.error e, t)) ∨
    ∃ position name, ⟨.word name, position⟩ :: (t.drop 1).ahead <:+ r.tokens ∧
      (Phrase.place >>= fun position => Phrase.identifier >>= f position).on t =
        (f position name).on (t.drop 1) ∧
      (Phrase.place >>= fun position => Phrase.identifier >>= g position).on u =
        (g (r.move position) name).on (u.drop 1) := by
  have hlook := hties.look 0
  rw [Phrase.on_place_bind, Phrase.on_place_bind, hties.place]
  by_cases hword : ∃ name, t.lexeme? 0 = some (.word name)
  · obtain ⟨name, hname⟩ := hword
    have hother := (hlook.eq_some_iff (.word name) (by simp)).mpr hname
    obtain ⟨position, rest, hahead⟩ := Phrase.exists_of_lexeme? hname
    have hplace : t.place = position := by rw [Tape.place, hahead]
    have hfront : ⟨.word name, position⟩ :: (t.drop 1).ahead = t.ahead := by
      simp [Tape.drop, hahead]
    refine .inr ⟨position, name, hfront ▸ hties.suffix, ?_, ?_⟩
    · rw [Phrase.on_bind_of_ok (Phrase.on_identifier hname), hplace]
    · rw [Phrase.on_bind_of_ok (Phrase.on_identifier hother), hplace]
  · refine .inl ⟨⟨t.place, .expected .identifier (t.lexeme? 0)⟩, ?_⟩
    rw [Phrase.on_bind, Phrase.identifier, Phrase.on_look_bind]
    split
    · next hon =>
      split at hon
      · next name hname => exact absurd ⟨name, hname⟩ hword
      · cases hon
    · next hon =>
      split at hon
      · next name hname => exact absurd ⟨name, hname⟩ hword
      · rw [Phrase.on_expected] at hon
        cases hon
        rfl

theorem Follows.named_bind {f : Position → String → Phrase α} {g : Position → String → Phrase β}
    (h : ∀ position name t u, r.Tied t u → ⟨.word name, position⟩ :: t.ahead <:+ r.tokens →
      r.FollowsAt R t u ((f position name).on t) ((g (r.move position) name).on u)) :
    r.Follows R (Phrase.place >>= fun position => Phrase.identifier >>= f position)
      (Phrase.place >>= fun position => Phrase.identifier >>= g position) := by
  intro t u hties
  rcases on_named hties f g with ⟨e, ht⟩ | ⟨position, name, hfront, ht, hu⟩
  · rw [ht]
    exact .of_error
  · rw [ht, hu]
    exact h position name _ _ (hties.drop 1) hfront

theorem Settles.named_bind {f : Position → String → Phrase α} {g : Position → String → Phrase β}
    (h : ∀ position name t u, r.Tied t u → ⟨.word name, position⟩ :: t.ahead <:+ r.tokens →
      r.SettlesAt R t u ((f position name).on t) ((g (r.move position) name).on u)) :
    r.Settles R (Phrase.place >>= fun position => Phrase.identifier >>= f position)
      (Phrase.place >>= fun position => Phrase.identifier >>= g position) := by
  intro t u hties
  rcases on_named hties f g with ⟨e, ht⟩ | ⟨position, name, hfront, ht, hu⟩
  · rw [ht]
    exact FollowsAt.of_error.settlesAt
  · rw [ht, hu]
    exact h position name _ _ (hties.drop 1) hfront

variable {word : String} {position : Position}

theorem FollowsAt.number_bind {f : Int → Phrase α} {g : Int → Phrase β} (hties : r.Tied t u)
    (hfront : ⟨.word word, position⟩ :: t.ahead <:+ r.tokens)
    (h : ∀ x y, r.SameLiteral position x y → r.Follows R (f x) (g y)) :
    r.FollowsAt R t u ((Phrase.mark '=' >>= fun _ => Phrase.integer >>= f).on t)
      ((Phrase.mark '=' >>= fun _ => Phrase.integer >>= g).on u) := by
  rw [← bind_assoc, ← bind_assoc]
  exact (follows_number hties hfront).bind h

theorem SettlesAt.number_bind {f : Int → Phrase α} {g : Int → Phrase β} (hties : r.Tied t u)
    (hfront : ⟨.word word, position⟩ :: t.ahead <:+ r.tokens)
    (h : ∀ x y, r.SameLiteral position x y → r.Settles R (f x) (g y)) :
    r.SettlesAt R t u ((Phrase.mark '=' >>= fun _ => Phrase.integer >>= f).on t)
      ((Phrase.mark '=' >>= fun _ => Phrase.integer >>= g).on u) := by
  rw [← bind_assoc, ← bind_assoc]
  exact (follows_number hties hfront).bind_settles h

end Numbers

section Blocks

variable {S : σ → σ → Prop} {first second : σ → Phrase σ} {s s' : σ} {name : String}

inductive Settled (r : Renumbering) (S : σ → σ → Prop) (x : σ × Tape)
    (earlier others : List SyntaxError) (y : σ × Tape) : Prop
  | kept (hties : r.Tied x.2 y.2) (ht : x.2.faults = earlier) (hu : y.2.faults = others)
      (hS : S x.1 y.1)
  | putDown (hunfit : r.Unfit) (hfaults : ∃ later, y.2.faults = later ++ r.fault :: others)

theorem settled (hreads : Phrase.Reads (fun piece _ => Statement false piece) (first s))
    (h : r.Settles S (first s) (second s')) (hties : r.Tied t u) (hne : t.ahead ≠ [])
    (hfaults : (Phrase.settled first s t).2.faults = t.faults) :
    r.Settled S (Phrase.settled first s t) t.faults u.faults (Phrase.settled second s' u) := by
  have hless := Phrase.length_settled first s hne
  have hsettling := h t u hties _ _ (Phrase.on_of_settled hreads hfaults) hfaults
  generalize hsecond : (second s').on u = y at hsettling
  cases hsettling with
  | ended hending =>
    cases hending with
    | kept hties' ht hu hS =>
      rw [Phrase.settled_of_ok hsecond
        (by rw [hties'.ahead, hties.ahead, List.length_map, List.length_map]; exact hless)]
      exact .kept hties' ht hu hS
    | refused hunfit hu =>
      refine .putDown hunfit ⟨[], ?_⟩
      rw [Phrase.faults_settled, Phrase.attempt, hsecond, List.nil_append, ← hu]
      rfl
  | putDown hunfit hlater =>
    refine .putDown hunfit ?_
    obtain ⟨later, hlater⟩ := hlater
    obtain ⟨result, u'⟩ := y
    rw [Phrase.faults_settled, Phrase.attempt, hsecond]
    cases result with
    | ok b => exact ⟨later, hlater⟩
    | error e => exact ⟨e :: later, congrArg (e :: ·) hlater⟩

/-- An error among those put down stays there. -/
theorem exists_later {e : SyntaxError} {faults more : List SyntaxError}
    (h : ∃ later, faults = later ++ e :: earlier) (hmore : faults <:+ more) :
    ∃ later, more = later ++ e :: earlier := by
  obtain ⟨later, rfl⟩ := h
  obtain ⟨front, rfl⟩ := hmore
  exact ⟨front ++ later, (List.append_assoc front later _).symm⟩

theorem grows_statements
    (hreads : ∀ s, Phrase.Reads (fun piece _ => Statement false piece) (first s)) (name : String)
    (s : σ) (t : Tape) : t.faults <:+ (Phrase.statements name first s t).2.faults := by
  have htook : Phrase.Took t _ (Phrase.statements name first s t) :=
    Phrase.took_statements (R := fun _ _ _ => True)
      (fun s => (hreads s).imp fun _ _ hpiece => ⟨hpiece, trivial⟩) s t
  exact htook.grows

theorem statements (hreads : ∀ s, Phrase.Reads (fun piece _ => Statement false piece) (first s))
    (hreads' : ∀ s, Phrase.Reads (fun piece _ => Statement false piece) (second s))
    (h : ∀ s s', S s s' → r.Settles S (first s) (second s')) {s s' : σ} {t u : Tape} (hs : S s s')
    (hties : r.Tied t u) :
    r.SettlesAt S t u (Phrase.statements name first s t) (Phrase.statements name second s' u) := by
  cases hahead : t.ahead with
  | nil =>
    rw [Phrase.statements_of_nil hahead]
    exact FollowsAt.of_error.settlesAt
  | cons token rest =>
    have hcons : u.ahead = r.token token :: rest.map r.token := by
      rw [hties.ahead, hahead, List.map_cons]
    have hbrace := r.lexeme_token_eq_iff token (.mark '\x7d') (by simp)
    by_cases hclose : token.lexeme = .mark '\x7d'
    · rw [Phrase.statements_of_close hahead hclose,
        Phrase.statements_of_close hcons (hbrace.mpr hclose)]
      refine FollowsAt.settlesAt (.ok (hties.goOn ?_) rfl rfl hs)
      rw [hahead]
      exact List.suffix_cons token rest
    · rw [Phrase.statements_of_open hahead hclose,
        Phrase.statements_of_open hcons (mt hbrace.mp hclose)]
      have hne : t.ahead ≠ [] := by simp [hahead]
      have hless := Phrase.length_settled first s hne
      intro last t' hlast hfaults
      -- Errors are never taken back, so the first statement put down none.
      have hgrows := Phrase.grows_settled (hreads s) t
      have hrest := grows_statements hreads name (Phrase.settled first s t).1
        (Phrase.settled first s t).2
      have hrest' := grows_statements hreads' name (Phrase.settled second s' u).1
        (Phrase.settled second s' u).2
      rw [hlast] at hrest
      have hsame : (Phrase.settled first s t).2.faults = t.faults :=
        (hgrows.eq_of_length_le (hfaults ▸ hrest.length_le)).symm
      cases settled (hreads s) (h s s' hs) hties hne hsame with
      | kept hties' ht hu hS =>
        have hend := statements hreads hreads' h hS hties' last t' hlast (hfaults.trans hsame.symm)
        rwa [hsame, hu] at hend
      | putDown hunfit hlater => exact .putDown hunfit (exists_later hlater hrest')
termination_by t.ahead.length

/-- A block is settled as its statements are. -/
theorem Settles.block
    (hreads : ∀ s, Phrase.Reads (fun piece _ => Statement false piece) (first s))
    (hreads' : ∀ s, Phrase.Reads (fun piece _ => Statement false piece) (second s))
    (h : ∀ s s', S s s' → r.Settles S (first s) (second s')) (hs : S s s') :
    r.Settles S (Phrase.block name first s) (Phrase.block name second s') :=
  (Follows.mark '\x7b').bind_settles fun _ _ _ _ _ hties => statements hreads hreads' h hs hties

end Blocks

end Renumbering

end ProtoSchema
