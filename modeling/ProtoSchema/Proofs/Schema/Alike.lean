import Mathlib.Data.List.Forall2
import ProtoSchema.Proofs.Schema.Braces

/-!
Two readings side by side. Tokens that are the same but for their places are read in the
same way: both readings succeed or both fail, they take the same tokens, and their errors
differ in place only. Inside a block the second reading may go on with further closing braces
where the text of the first one ends. Along with this goes what holds of each reading alone:
inside a block it stays before the end of the block, its errors stand at places given
beforehand, and the names that it finds are words of the text.
-/

namespace ProtoSchema

variable {move : Position → Position}

def Token.moved (move : Position → Position) (token : Token) : Token :=
  ⟨token.lexeme, move token.position⟩

def SyntaxError.moved (move : Position → Position) (e : SyntaxError) : SyntaxError :=
  ⟨move e.position, e.fault⟩

@[simp] theorem Token.lexeme_moved (token : Token) : (token.moved move).lexeme = token.lexeme := rfl

@[simp] theorem Token.isMark_moved (token : Token) (c : Char) :
    (token.moved move).isMark c = token.isMark c := rfl

theorem Token.nest_map (depth : Nat) (tokens : List Token) :
    nest depth (tokens.map (Token.moved move)) = nest depth tokens := by
  induction tokens generalizing depth with
  | nil => rfl
  | cons token rest ih => simp only [List.map_cons, nest, lexeme_moved, ih]

/-- The rest of a block is one at moved places too. -/
theorem Token.Encloses.moved {Spot : Position → Prop} {behind tokens : List Token}
    (h : Encloses Spot behind tokens) :
    Encloses (fun _ => True) (behind.map (Token.moved move)) (tokens.map (Token.moved move)) := by
  obtain ⟨inner, close, rfl, hclose, hinner, _⟩ := h
  refine ⟨inner.map (Token.moved move), close.moved move, by simp, hclose, ?_, fun _ _ => trivial⟩
  rw [Balanced, nest_map]
  exact hinner

theorem resume_map (depth : Nat) (tokens : List Token) :
    resume depth (tokens.map (Token.moved move)) =
      (resume depth tokens).map (Token.moved move) := by
  induction tokens generalizing depth with
  | nil => cases depth <;> rfl
  | cons token rest ih =>
    cases depth with
    | zero =>
      simp only [List.map_cons, resume, Token.isMark_moved, ih]
      split
      · rfl
      · split
        · rfl
        · split <;> rfl
    | succ depth =>
      simp only [List.map_cons, resume, Token.isMark_moved, ih]
      split
      · rfl
      · split
        · cases depth <;> rfl
        · rfl

theorem resume_suffix (depth : Nat) (tokens : List Token) : resume depth tokens <:+ tokens := by
  induction tokens generalizing depth with
  | nil => cases depth <;> exact List.suffix_refl _
  | cons token rest ih =>
    have hinner (d : Nat) : resume d rest <:+ token :: rest :=
      (ih d).trans (List.suffix_cons token rest)
    cases depth with
    | zero =>
      unfold resume
      split
      · exact List.suffix_refl _
      · split
        · exact List.suffix_cons token rest
        · split
          · exact hinner 1
          · exact hinner 0
    | succ depth =>
      unfold resume
      split
      · exact hinner _
      · split
        · cases depth with
          | zero => exact List.suffix_cons token rest
          | succ depth => exact hinner _
        · exact hinner _

namespace Phrase

theorem aggregateRest_map (depth : Nat) (tokens : List Token) :
    aggregateRest depth (tokens.map (Token.moved move)) =
      (aggregateRest depth tokens).map fun (parts, behind) =>
        (parts, behind.map (Token.moved move)) := by
  induction tokens generalizing depth with
  | nil => rfl
  | cons token rest ih =>
    have hmore (d : Nat) (text : String) :
        ((aggregateRest d rest).map fun (parts, behind) =>
            (parts, behind.map (Token.moved move))).map
          (fun (parts, behind) => (text :: parts, behind)) =
        ((aggregateRest d rest).map fun (parts, behind) => (text :: parts, behind)).map
          fun (parts, behind) => (parts, behind.map (Token.moved move)) := by
      rw [Option.map_map, Option.map_map]
      rfl
    simp only [List.map_cons, aggregateRest, Token.lexeme_moved, ih]
    split
    · exact hmore _ _
    · split
      · cases depth with
        | zero => rfl
        | succ depth => exact hmore _ _
      · exact hmore _ _

theorem aggregateRest_suffix {depth : Nat} {tokens behind : List Token} {parts : List String}
    (h : aggregateRest depth tokens = some (parts, behind)) : behind <:+ tokens := by
  induction tokens generalizing depth parts with
  | nil =>
    unfold aggregateRest at h
    cases h
  | cons token rest ih =>
    have hmore (d : Nat) (h : ((aggregateRest d rest).map fun (parts, behind) =>
        (aggregateText token.lexeme :: parts, behind)) = some (parts, behind)) :
        behind <:+ token :: rest := by
      obtain ⟨⟨inner, after⟩, hinner, heq⟩ := Option.map_eq_some_iff.mp h
      cases heq
      exact (ih hinner).trans (List.suffix_cons token rest)
    unfold aggregateRest at h
    split at h
    · exact hmore _ h
    · split at h
      · cases depth with
        | zero =>
          cases h
          exact List.suffix_cons token _
        | succ depth => exact hmore _ h
      · exact hmore _ h

theorem skippedRest_map (tokens : List Token) :
    skippedRest (tokens.map (Token.moved move)) =
      ((skippedRest tokens).1, (skippedRest tokens).2.map (Token.moved move)) := by
  induction tokens with
  | nil => rfl
  | cons token rest ih =>
    simp only [List.map_cons, skippedRest, Token.lexeme_moved, ih]
    split
    · rfl
    · split <;> rfl

theorem skippedRest_suffix (tokens : List Token) : (skippedRest tokens).2 <:+ tokens := by
  induction tokens with
  | nil => exact List.suffix_refl _
  | cons token rest ih =>
    unfold skippedRest
    split
    · exact List.suffix_cons token rest
    · split
      · exact List.suffix_refl _
      · exact ih.trans (List.suffix_cons token rest)

theorem leadingLiterals_map (tokens : List Token) :
    leadingLiterals (tokens.map (Token.moved move)) = leadingLiterals tokens := by
  induction tokens with
  | nil => rfl
  | cons token rest ih =>
    obtain ⟨lexeme, position⟩ := token
    cases lexeme with
    | literal value => exact congrArg (value :: ·) ih
    | _ => rfl

theorem length_leadingLiterals (tokens : List Token) :
    (leadingLiterals tokens).length ≤ tokens.length := by
  induction tokens with
  | nil => exact Nat.le_refl 0
  | cons token rest ih =>
    obtain ⟨lexeme, position⟩ := token
    cases lexeme with
    | literal value => exact Nat.succ_le_succ ih
    | _ => exact Nat.zero_le _

variable {extra : List Token}

/-- A closing brace is no string. -/
theorem leadingLiterals_append (hextra : ∀ token ∈ extra, token.lexeme = .mark '\x7d')
    (tokens : List Token) : leadingLiterals (tokens ++ extra) = leadingLiterals tokens := by
  induction tokens with
  | nil =>
    cases extra with
    | nil => rfl
    | cons token rest =>
      obtain ⟨lexeme, position⟩ := token
      cases (List.forall_mem_cons.mp hextra).1
      rfl
  | cons token rest ih =>
    obtain ⟨lexeme, position⟩ := token
    cases lexeme with
    | literal value => exact congrArg (value :: ·) ih
    | _ => rfl

/-- A statement that is passed over ends at a closing brace as it does at the end. -/
theorem skippedRest_append (hextra : ∀ token ∈ extra, token.lexeme = .mark '\x7d')
    (tokens : List Token) :
    skippedRest (tokens ++ extra) = ((skippedRest tokens).1, (skippedRest tokens).2 ++ extra) := by
  induction tokens with
  | nil =>
    cases extra with
    | nil => rfl
    | cons token rest =>
      simp [skippedRest, (List.forall_mem_cons.mp hextra).1]
  | cons token rest ih =>
    simp only [List.cons_append, skippedRest, ih]
    split
    · rfl
    · split <;> rfl

variable {α β : Type}

theorem on_bind (phrase : Phrase α) (f : α → Phrase β) (t : Tape) :
    (phrase >>= f).on t =
      match phrase.on t with
      | (.ok a, t') => (f a).on t'
      | (.error e, t') => (.error e, t') := by
  simp only [on, bind, ExceptT.bind, ExceptT.run, ExceptT.mk, StateT.bind, ExceptT.bindCont]
  cases phrase t with
  | mk result t' => cases result <;> rfl

theorem on_bind_of_ok {phrase : Phrase α} {f : α → Phrase β} {t t' : Tape} {a : α}
    (h : phrase.on t = (.ok a, t')) : (phrase >>= f).on t = (f a).on t' := by
  rw [on_bind, h]

theorem on_bind_of_error {phrase : Phrase α} {f : α → Phrase β} {t t' : Tape} {e : SyntaxError}
    (h : phrase.on t = (.error e, t')) : (phrase >>= f).on t = (.error e, t') := by
  rw [on_bind, h]

/-- Two phrases one behind the other end where the second one ends, or with the error of the
first one. -/
theorem on_bind_cases {phrase : Phrase α} {f : α → Phrase β} {t : Tape}
    {P : Except SyntaxError β × Tape → Prop}
    (hok : ∀ a t', phrase.on t = (.ok a, t') → P ((f a).on t'))
    (herror : ∀ e t', phrase.on t = (.error e, t') → P (.error e, t')) :
    P ((phrase >>= f).on t) := by
  rw [on_bind]
  cases hon : phrase.on t with
  | mk result t' =>
    cases result with
    | ok a => exact hok a t' hon
    | error e => exact herror e t' hon

theorem on_look_bind (k : Nat) (f : Option Lexeme → Phrase α) (t : Tape) :
    (look k >>= f).on t = (f (t.lexeme? k)).on t := rfl

theorem on_tape_bind (f : Tape → Phrase α) (t : Tape) : (tape >>= f).on t = (f t).on t := rfl

theorem on_place_bind (f : Position → Phrase α) (t : Tape) :
    (place >>= f).on t = (f t.place).on t := rfl

theorem on_skip_bind (k : Nat) (f : Unit → Phrase α) (t : Tape) :
    (skip k >>= f).on t = (f ()).on (t.drop k) := rfl

theorem on_expected (wanted : Wanted) (t : Tape) :
    (expected wanted : Phrase α).on t = (.error ⟨t.place, .expected wanted (t.lexeme? 0)⟩, t) :=
  rfl

theorem on_take? (lexeme : Lexeme) (t : Tape) :
    (take? lexeme).on t =
      if t.lexeme? 0 = some lexeme then (.ok true, t.drop 1) else (.ok false, t) := by
  rw [take?, on_look_bind]
  split
  · rfl
  · rfl

/-- At the end no further items are taken. -/
theorem on_moreSeparated_nil {sep : Char} {item : Phrase α} {rounds : Nat} {t : Tape}
    (h : t.ahead = []) : (moreSeparated sep item rounds).on t = (.ok [], t) := by
  cases rounds with
  | zero => rfl
  | succ rounds =>
    rw [moreSeparated, on_bind, on_take?, if_neg (by simp [Tape.lexeme?, h])]
    rfl

end Phrase

/-- What two readings have in common: where they end and where the places of the first lie in
the second, at which of them an error may stand, what its words are, the errors that either
had put down before, and the closing braces that only the second goes on with. -/
structure Bond where
  stop : Position
  last : Position
  move : Position → Position
  Spot : Position → Prop
  Word : String → Prop
  earlier : List SyntaxError
  others : List SyntaxError
  extra : List Token := []
  closing : ∀ token ∈ extra, token.lexeme = .mark '\x7d' := by simp

namespace Bond

open Token (Encloses)

variable {α β : Type} (l : Bond)

structure Whole : Prop where
  spots : ∀ position, l.Spot position
  extra : l.extra = []
  last : l.last = l.move l.stop

/-- The tokens go on to the end of the block that `behind` follows. Only whole texts are read
outside blocks. -/
def Around : Option (List Token) → List Token → Prop
  | none, _ => l.Whole
  | some behind, tokens => Encloses l.Spot behind tokens

def carried (tokens : List Token) : List Token := tokens.map (Token.moved l.move) ++ l.extra

structure Tied (n : Nat) (t u : Tape) : Prop where
  ahead : u.ahead = l.carried t.ahead
  ends : t.stop = l.stop ∧ u.stop = l.last
  words : ∀ token ∈ t.ahead, ∀ word, token.lexeme = .word word → l.Word word
  faults : ∃ new, t.faults = new ++ l.earlier ∧
    u.faults = new.map (SyntaxError.moved l.move) ++ l.others ∧ ∀ e ∈ new, l.Spot e.position
  length_le : t.ahead.length ≤ n

structure Ties (n : Nat) (c : Option (List Token)) (t u : Tape) : Prop extends l.Tied n t u where
  around : l.Around c t.ahead

inductive Results (R : α → α → Prop) : Except SyntaxError α → Except SyntaxError α → Prop
  | ok {a b : α} (h : R a b) : Results R (.ok a) (.ok b)
  | error {e : SyntaxError} (h : l.Spot e.position) :
      Results R (.error e) (.error (e.moved l.move))

variable {l} in
/-- What two readings come to that started on tied tapes; with `m` the least number of tokens
that a success takes. -/
structure Outcome (n : Nat) (c : Option (List Token)) (m : Nat) (R : α → α → Prop) (t : Tape)
    (r s : Except SyntaxError α × Tape) : Prop where
  results : l.Results R r.1 s.1
  ties : l.Ties n c r.2 s.2
  suffix : r.2.ahead <:+ t.ahead
  takes : ∀ a, r.1 = .ok a → r.2.ahead.length + m ≤ t.ahead.length

def Alike (n m : Nat) (R : α → α → Prop) (p q : Phrase α) : Prop :=
  ∀ c t u, l.Ties n c t u → l.Outcome n c m R t (p.on t) (q.on u)

def SameWord (a b : String) : Prop := a = b ∧ l.Word a

def SameSpot (a b : Position) : Prop := b = l.move a ∧ l.Spot a

def Any (_ _ : α) : Prop := True

def Same {γ : Type} (view : α → γ) (a b : α) : Prop := view a = view b

/-- What two readings see at some token further on. Where the first sees the end, the second
may see a closing brace. -/
def SameLook (a b : Option Lexeme) : Prop := b = a ∨ a = none ∧ b = some (.mark '\x7d')

theorem SameLook.eq_some_iff {a b : Option Lexeme} (h : SameLook a b) (lexeme : Lexeme)
    (hopen : lexeme ≠ .mark '\x7d') : b = some lexeme ↔ a = some lexeme := by
  rcases h with rfl | ⟨rfl, rfl⟩
  · exact Iff.rfl
  · simp [hopen.symm]

variable {l} {n m k j : Nat} {c d : Option (List Token)} {t u : Tape} {R : α → α → Prop}
  {S : β → β → Prop} {p q : Phrase α} {f g : α → Phrase β} {behind tokens : List Token}
  {token : Token} {lexeme : Lexeme}

namespace Around

theorem pass_plain (h : l.Around c (token :: tokens)) (hplain : token.lexeme.IsPlain) :
    l.Around c tokens := by
  cases c with
  | none => exact h
  | some behind => exact Encloses.pass_plain h hplain

theorem resume (h : l.Around c tokens) : l.Around c (resume 0 tokens) := by
  cases c with
  | none => exact h
  | some behind => exact Encloses.resume h

theorem skippedRest (h : l.Around c tokens) : l.Around c (Phrase.skippedRest tokens).2 := by
  cases c with
  | none => exact h
  | some behind => exact Encloses.skippedRest h

theorem leadingLiterals (h : l.Around c tokens) :
    l.Around c (tokens.drop (Phrase.leadingLiterals tokens).length) := by
  cases c with
  | none => exact h
  | some behind => exact Encloses.leadingLiterals h

end Around

theorem carried_nil (h : l.Around c []) : l.carried [] = [] := by
  cases c with
  | none => exact h.extra
  | some behind => exact absurd rfl h.ne_nil

theorem carried_cons (token : Token) (tokens : List Token) :
    l.carried (token :: tokens) = token.moved l.move :: l.carried tokens := rfl

theorem length_carried (tokens : List Token) :
    (l.carried tokens).length = tokens.length + l.extra.length := by
  rw [carried, List.length_append, List.length_map]

theorem carried_drop (hk : k ≤ tokens.length) :
    (l.carried tokens).drop k = l.carried (tokens.drop k) := by
  rw [carried, carried, List.drop_append_of_le_length (by rwa [List.length_map]), List.map_drop]

theorem leadingLiterals_carried (tokens : List Token) :
    Phrase.leadingLiterals (l.carried tokens) = Phrase.leadingLiterals tokens := by
  rw [carried, Phrase.leadingLiterals_append l.closing, Phrase.leadingLiterals_map]

theorem skippedRest_carried (tokens : List Token) :
    Phrase.skippedRest (l.carried tokens) =
      ((Phrase.skippedRest tokens).1, l.carried (Phrase.skippedRest tokens).2) := by
  rw [carried, Phrase.skippedRest_append l.closing, Phrase.skippedRest_map]
  rfl

/-- Both resume at the same token. -/
theorem resume_carried (h : l.Around c tokens) :
    ProtoSchema.resume 0 (l.carried tokens) = l.carried (ProtoSchema.resume 0 tokens) := by
  rw [carried, carried, ← resume_map]
  cases c with
  | none => rw [h.extra, List.append_nil, List.append_nil]
  | some behind => exact h.moved.resume_append l.extra

theorem aggregateRest_carried (h : l.Around c tokens) :
    Phrase.aggregateRest 0 (l.carried tokens) =
      (Phrase.aggregateRest 0 tokens).map fun found => (found.1, l.carried found.2) := by
  have hmoved : Phrase.aggregateRest 0 (tokens.map (Token.moved l.move)) =
      (Phrase.aggregateRest 0 tokens).map fun found =>
        (found.1, found.2.map (Token.moved l.move)) := Phrase.aggregateRest_map 0 tokens
  unfold carried
  cases c with
  | none => simp only [h.extra, List.append_nil, hmoved]
  | some behind =>
    obtain ⟨parts, hparts⟩ := h.aggregateRest
    rw [hparts] at hmoved ⊢
    exact Phrase.aggregateRest_append hmoved l.extra

theorem Tied.stop (h : l.Tied n t u) (hwhole : l.Whole) : u.stop = l.move t.stop := by
  rw [h.ends.1, h.ends.2, hwhole.last]

theorem Tied.goOn (h : l.Tied n t u) (hsuffix : behind <:+ t.ahead) :
    l.Tied n { t with ahead := behind } { u with ahead := l.carried behind } where
  ahead := rfl
  ends := h.ends
  words token htoken := h.words token (hsuffix.subset htoken)
  faults := h.faults
  length_le := Nat.le_trans hsuffix.length_le h.length_le

namespace Ties

theorem nil (h : l.Ties n c t u) (hahead : t.ahead = []) : u.ahead = [] := by
  have haround := h.around
  rw [hahead] at haround
  rw [h.ahead, hahead, carried_nil haround]

theorem cons {rest : List Token} (h : l.Ties n c t u) (hahead : t.ahead = token :: rest) :
    u.ahead = token.moved l.move :: l.carried rest := by
  rw [h.ahead, hahead, carried_cons]

/-- The next lexeme is the same for both. -/
theorem first (h : l.Ties n c t u) : u.lexeme? 0 = t.lexeme? 0 := by
  cases hahead : t.ahead with
  | nil => rw [Tape.lexeme?, Tape.lexeme?, hahead, h.nil hahead]
  | cons token rest =>
    rw [Tape.lexeme?, Tape.lexeme?, hahead, h.cons hahead]
    rfl

theorem lexeme? (h : l.Ties n c t u) (k : Nat) : SameLook (t.lexeme? k) (u.lexeme? k) := by
  rw [Tape.lexeme?, Tape.lexeme?, h.ahead, carried]
  by_cases hk : k < t.ahead.length
  · left
    rw [List.getElem?_append_left (by rwa [List.length_map]), List.getElem?_map, Option.map_map]
    rfl
  · rw [List.getElem?_append_right (by rw [List.length_map]; omega), List.length_map,
      List.getElem?_eq_none (Nat.le_of_not_lt hk)]
    cases hlast : l.extra[k - t.ahead.length]? with
    | none => exact .inl rfl
    | some token => exact .inr ⟨rfl, congrArg some (l.closing token (List.mem_of_getElem? hlast))⟩

theorem length_eq (h : l.Ties n c t u) : u.ahead.length = t.ahead.length + l.extra.length := by
  rw [h.ahead, length_carried]

theorem place (h : l.Ties n c t u) : l.SameSpot t.place u.place := by
  cases hahead : t.ahead with
  | nil =>
    have hu := h.nil hahead
    have haround := h.around
    cases c with
    | none => exact ⟨by simp only [Tape.place, hu, hahead, h.stop haround], haround.spots _⟩
    | some behind => exact absurd hahead haround.ne_nil
  | cons token rest =>
    have hu := h.cons hahead
    refine ⟨by simp only [Tape.place, hu, hahead, Token.moved], ?_⟩
    have haround := h.around
    simp only [Tape.place, hahead]
    rw [hahead] at haround
    cases c with
    | none => exact haround.spots _
    | some behind => exact haround.spot

/-- Both go on at the same token, be it in the same block or behind it. -/
theorem goOn (h : l.Ties n c t u) (hsuffix : behind <:+ t.ahead) (haround : l.Around d behind) :
    l.Ties n d { t with ahead := behind } { u with ahead := l.carried behind } :=
  ⟨h.toTied.goOn hsuffix, haround⟩

theorem mono (h : l.Ties n c t u) (hk : n ≤ k) : l.Ties k c t u :=
  { h with length_le := Nat.le_trans h.length_le hk }

theorem drop (h : l.Ties n c t u) (hk : k ≤ t.ahead.length)
    (haround : l.Around d (t.ahead.drop k)) : l.Ties n d (t.drop k) (u.drop k) := by
  have hdrop := h.goOn (List.drop_suffix k t.ahead) haround
  rw [← carried_drop hk, ← h.ahead] at hdrop
  exact hdrop

theorem drop_plain (h : l.Ties n c t u) (hlook : t.lexeme? 0 = some lexeme)
    (hplain : lexeme.IsPlain) : l.Ties n c (t.drop 1) (u.drop 1) := by
  cases hahead : t.ahead with
  | nil => simp [Tape.lexeme?, hahead] at hlook
  | cons token rest =>
    have htoken : token.lexeme = lexeme := by simpa [Tape.lexeme?, hahead] using hlook
    have haround := h.around
    rw [hahead] at haround
    have hrest : l.Around c (t.ahead.drop 1) := by
      rw [hahead]
      exact haround.pass_plain (htoken ▸ hplain)
    exact h.drop (by simp [hahead]) hrest

end Ties

theorem Outcome.stay (h : l.Ties n c t u) {r s : Except SyntaxError α}
    (hresults : l.Results R r s) (htakes : ∀ a, r = .ok a → m = 0) :
    l.Outcome n c m R t (r, t) (s, u) := by
  refine ⟨hresults, h, List.suffix_refl _, ?_⟩
  intro a ha
  rw [htakes a ha]
  exact Nat.le_refl _

theorem Outcome.of_alike (hties : l.Ties n c t u) (h : l.Alike n m R p q) :
    l.Outcome n c m R t (p.on t) (q.on u) :=
  h c t u hties

/-- Going on from where the first phrase left the tapes. -/
theorem Outcome.bind (hp : l.Outcome n c j R t (p.on t) (q.on u))
    (hf : ∀ a b, R a b → l.Alike n (m - j) S (f a) (g b)) :
    l.Outcome n c m S t ((p >>= f).on t) ((q >>= g).on u) := by
  rw [Phrase.on_bind, Phrase.on_bind]
  generalize p.on t = r at hp ⊢
  generalize q.on u = s at hp ⊢
  obtain ⟨r, t'⟩ := r
  obtain ⟨s, u'⟩ := s
  obtain ⟨hresults, hties', hsuffix, htakes⟩ := hp
  cases hresults with
  | @ok a b hR =>
    have hrest := hf a b hR c t' u' hties'
    refine ⟨hrest.results, hrest.ties, hrest.suffix.trans hsuffix, ?_⟩
    intro b hb
    have hone : t'.ahead.length + j ≤ t.ahead.length := htakes a rfl
    have htwo := hrest.takes b hb
    change ((f a).on t').2.ahead.length + m ≤ t.ahead.length
    omega
  | error hspot => exact ⟨.error hspot, hties', hsuffix, fun _ h => by cases h⟩

namespace Alike

theorem pure {a b : α} (h : R a b) : l.Alike n 0 R (pure a) (pure b) := by
  intro c t u hties
  exact .stay hties (.ok h) fun _ _ => rfl

/-- What the first phrase takes counts for both. -/
theorem bind (hp : l.Alike n j R p q)
    (hf : ∀ a b, R a b → l.Alike n (m - j) S (f a) (g b)) :
    l.Alike n m S (p >>= f) (q >>= g) :=
  fun c t u hties => (hp c t u hties).bind hf

/-- What a phrase takes need not be counted. -/
theorem relax (h : l.Alike n m R p q) : l.Alike n 0 R p q := by
  intro c t u hties
  have houtcome := h c t u hties
  refine ⟨houtcome.results, houtcome.ties, houtcome.suffix, ?_⟩
  intro a ha
  exact houtcome.suffix.length_le

theorem mono (h : l.Alike n m R p q) (hk : k ≤ n) : l.Alike k m R p q := by
  intro c t u hties
  have houtcome := h c t u { hties with length_le := Nat.le_trans hties.length_le hk }
  refine ⟨houtcome.results, { houtcome.ties with length_le := ?_ }, houtcome.suffix,
    houtcome.takes⟩
  exact Nat.le_trans houtcome.suffix.length_le hties.length_le

theorem failAt {p q : Position} (h : l.SameSpot p q) (fault : SyntaxFault) :
    l.Alike n m R (Phrase.failAt p fault) (Phrase.failAt q fault) := by
  intro c t u hties
  obtain ⟨rfl, hspot⟩ := h
  exact .stay hties (.error hspot) fun _ ha => by cases ha

theorem failAt_bind {p q : Position} (h : l.SameSpot p q) (fault : SyntaxFault) :
    l.Alike n m S (Phrase.failAt p fault >>= f) (Phrase.failAt q fault >>= g) := by
  intro c t u hties
  obtain ⟨rfl, hspot⟩ := h
  exact .stay hties (.error hspot) fun _ ha => by cases ha

theorem expected (wanted : Wanted) :
    l.Alike n m R (Phrase.expected wanted) (Phrase.expected wanted) := by
  intro c t u hties
  obtain ⟨hmove, hspot⟩ := hties.place
  rw [Phrase.on_expected, Phrase.on_expected, hmove, hties.first]
  exact .stay hties (.error hspot) fun _ ha => by cases ha

theorem place : l.Alike n 0 l.SameSpot Phrase.place Phrase.place := by
  intro c t u hties
  exact .stay hties (.ok hties.place) fun _ _ => rfl

theorem look (k : Nat) : l.Alike n 0 SameLook (Phrase.look k) (Phrase.look k) := by
  intro c t u hties
  exact .stay hties (.ok (hties.lexeme? k)) fun _ _ => rfl

theorem first : l.Alike n 0 Eq (Phrase.look 0) (Phrase.look 0) := by
  intro c t u hties
  exact .stay hties (.ok hties.first.symm) fun _ _ => rfl

/-- Looking at the next token, where going on depends on what was seen. -/
theorem first_bind {f g : Option Lexeme → Phrase β}
    (h : ∀ c t u, l.Ties n c t u →
      l.Outcome n c m S t ((f (t.lexeme? 0)).on t) ((g (t.lexeme? 0)).on u)) :
    l.Alike n m S (Phrase.look 0 >>= f) (Phrase.look 0 >>= g) := by
  intro c t u hties
  rw [Phrase.on_look_bind, Phrase.on_look_bind, hties.first]
  exact h c t u hties

theorem ite {P Q : Prop} [Decidable P] [Decidable Q] {p' q' : Phrase α} (hsame : Q ↔ P)
    (hp : P → l.Alike n m R p q) (hn : ¬P → l.Alike n m R p' q') :
    l.Alike n m R (if P then p else p') (if Q then q else q') := by
  by_cases h : P
  · rw [if_pos h, if_pos (hsame.mpr h)]
    exact hp h
  · rw [if_neg h, if_neg (h ∘ hsame.mp)]
    exact hn h

end Alike

theorem length_pos_of_lexeme? (hlook : t.lexeme? k = some lexeme) : 0 < t.ahead.length := by
  refine List.length_pos_iff.mpr fun hnil => ?_
  simp [Tape.lexeme?, hnil] at hlook

/-- A plain token that comes next may be taken. -/
theorem Outcome.take (h : l.Ties n c t u) (hlook : t.lexeme? 0 = some lexeme)
    (hplain : lexeme.IsPlain) {a b : α} (hR : R a b) (hm : m ≤ 1) :
    l.Outcome n c m R t (.ok a, t.drop 1) (.ok b, u.drop 1) := by
  refine ⟨.ok hR, h.drop_plain hlook hplain, List.drop_suffix 1 t.ahead, ?_⟩
  intro _ _
  have hpos := length_pos_of_lexeme? hlook
  simp only [Tape.drop, List.length_drop]
  omega

/-- What two readings come to from further on. -/
theorem Outcome.further {t' : Tape} {r s : Except SyntaxError α × Tape}
    (h : l.Outcome k c j R t' r s) (hk : k ≤ n) (hsuffix : t'.ahead <:+ t.ahead)
    (hless : t'.ahead.length + m ≤ t.ahead.length + j) : l.Outcome n c m R t r s := by
  refine ⟨h.results, h.ties.mono hk, h.suffix.trans hsuffix, fun a ha => ?_⟩
  have htakes := h.takes a ha
  omega

/-- A plain token is taken and reading goes on behind it, where less is left. -/
theorem Outcome.skip_bind {f g : Unit → Phrase β} (h : l.Ties n c t u)
    (hlook : t.lexeme? 0 = some lexeme) (hplain : lexeme.IsPlain)
    (hrest : l.Alike (n - 1) (m - 1) S (f ()) (g ())) :
    l.Outcome n c m S t ((Phrase.skip 1 >>= f).on t) ((Phrase.skip 1 >>= g).on u) := by
  have hpos := length_pos_of_lexeme? hlook
  have hlength : (t.drop 1).ahead.length = t.ahead.length - 1 := List.length_drop
  have hfew := h.length_le
  have hdrop : l.Ties (n - 1) c (t.drop 1) (u.drop 1) :=
    { h.drop_plain hlook hplain with length_le := by omega }
  rw [Phrase.on_skip_bind, Phrase.on_skip_bind]
  exact (hrest c _ _ hdrop).further (Nat.sub_le n 1) (List.drop_suffix 1 t.ahead) (by omega)

/-- Two plain tokens are taken. -/
theorem Outcome.skip_two_bind {f g : Unit → Phrase β} {next : Lexeme} (h : l.Ties n c t u)
    (hlook : t.lexeme? 0 = some lexeme) (hplain : lexeme.IsPlain)
    (hnext : t.lexeme? 1 = some next) (hplain' : next.IsPlain)
    (hrest : l.Alike n (m - 1) S (f ()) (g ())) :
    l.Outcome n c m S t ((Phrase.skip 2 >>= f).on t) ((Phrase.skip 2 >>= g).on u) := by
  have hpos := length_pos_of_lexeme? hlook
  have hlength : (t.drop 2).ahead.length = t.ahead.length - 2 := List.length_drop
  have hnext : (t.drop 1).lexeme? 0 = some next := by simpa [Tape.lexeme?, Tape.drop] using hnext
  have hdrop (v : Tape) : (v.drop 1).drop 1 = v.drop 2 := by simp [Tape.drop]
  have htwo := (h.drop_plain hlook hplain).drop_plain hnext hplain'
  rw [hdrop, hdrop] at htwo
  rw [Phrase.on_skip_bind, Phrase.on_skip_bind]
  exact (hrest c _ _ htwo).further (Nat.le_refl n) (List.drop_suffix 2 t.ahead) (by omega)

namespace Alike

/-- Taking a lexeme that may be there, where both ways of going on read alike. -/
theorem take? (hplain : lexeme.IsPlain) {f g : Bool → Phrase β}
    (htrue : l.Alike (n - 1) (m - 1) S (f true) (g true))
    (hfalse : l.Alike n m S (f false) (g false)) :
    l.Alike n m S (Phrase.take? lexeme >>= f) (Phrase.take? lexeme >>= g) := by
  intro c t u hties
  rw [Phrase.on_bind, Phrase.on_bind, Phrase.on_take?, Phrase.on_take?, hties.first]
  by_cases hlook : t.lexeme? 0 = some lexeme
  · rw [if_pos hlook, if_pos hlook]
    exact .skip_bind (f := fun _ => f true) (g := fun _ => g true) hties hlook hplain htrue
  · rw [if_neg hlook, if_neg hlook]
    exact hfalse c t u hties

theorem mark {c : Char} (hplain : (Lexeme.mark c).IsPlain) :
    l.Alike n 1 Any (Phrase.mark c) (Phrase.mark c) :=
  .take? hplain (.pure trivial) (.expected _)

theorem keyword (name : String) :
    l.Alike n 1 Any (Phrase.keyword name) (Phrase.keyword name) :=
  .take? (by simp [Lexeme.IsPlain]) (.pure trivial) (.expected _)

theorem identifier : l.Alike n 1 l.SameWord Phrase.identifier Phrase.identifier := by
  refine .first_bind fun c t u hties => ?_
  split
  · next name hlook =>
    have hword : l.Word name := by
      obtain ⟨token, htoken, hlexeme⟩ := Option.map_eq_some_iff.mp hlook
      exact hties.words token (List.mem_of_getElem? htoken) name hlexeme
    exact .take hties hlook (by simp [Lexeme.IsPlain]) ⟨rfl, hword⟩ (Nat.le_refl 1)
  · exact expected _ c t u hties

theorem tape {f g : Tape → Phrase β}
    (h : ∀ c t u, l.Ties n c t u → l.Outcome n c m S t ((f t).on t) ((g u).on u)) :
    l.Alike n m S (Phrase.tape >>= f) (Phrase.tape >>= g) :=
  h

/-- Neither reading comes to the end of its rounds before it comes to the end of its tokens. -/
theorem moreSeparated {sep : Char} (hsep : (Lexeme.mark sep).IsPlain) (h : l.Alike n 1 R p q)
    (rounds others : Nat) (hrounds : n ≤ rounds) (hothers : n ≤ others) :
    l.Alike n 0 (List.Forall₂ R) (Phrase.moreSeparated sep p rounds)
      (Phrase.moreSeparated sep q others) := by
  induction n generalizing rounds others with
  | zero =>
    intro c t u hties
    have hahead : t.ahead = [] := List.length_eq_zero_iff.mp (Nat.le_zero.mp hties.length_le)
    rw [Phrase.on_moreSeparated_nil hahead, Phrase.on_moreSeparated_nil (hties.nil hahead)]
    exact .stay hties (.ok .nil) fun _ _ => rfl
  | succ n ih =>
    obtain ⟨rounds, rfl⟩ := Nat.exists_eq_add_of_le' (Nat.le_trans (Nat.le_add_left 1 n) hrounds)
    obtain ⟨others, rfl⟩ := Nat.exists_eq_add_of_le' (Nat.le_trans (Nat.le_add_left 1 n) hothers)
    have hless := h.mono (Nat.le_succ n)
    have hmore := ih hless rounds others (Nat.le_of_succ_le_succ hrounds)
      (Nat.le_of_succ_le_succ hothers)
    refine .take? hsep ?_ (.pure .nil)
    exact hless.bind fun _ _ hfirst => hmore.bind fun _ _ hrest => .pure (.cons hfirst hrest)

theorem separated {sep : Char} (hsep : (Lexeme.mark sep).IsPlain) (h : l.Alike n 1 R p q) :
    l.Alike n 1 (fun a b => a ≠ [] ∧ List.Forall₂ R a b) (Phrase.separated sep p)
      (Phrase.separated sep q) := by
  refine h.bind fun first first' hfirst => .tape fun c t u hties => ?_
  have hlength := hties.length_eq
  have hmore := moreSeparated hsep (h.mono hties.length_le) t.ahead.length u.ahead.length
    (Nat.le_refl _) (by omega)
  have hall : l.Alike t.ahead.length 0 (fun a b => a ≠ [] ∧ List.Forall₂ R a b)
      (Phrase.moreSeparated sep p t.ahead.length >>= fun rest => Pure.pure (first :: rest))
      (Phrase.moreSeparated sep q u.ahead.length >>= fun rest => Pure.pure (first' :: rest)) :=
    hmore.bind fun rest rest' hrest => .pure ⟨List.cons_ne_nil _ _, .cons hfirst hrest⟩
  exact (hall c t u { hties with length_le := Nat.le_refl _ }).further hties.length_le
    (List.suffix_refl _) (Nat.le_refl _)

theorem literal : l.Alike n 1 Eq Phrase.literal Phrase.literal := by
  refine .tape fun c t u hties => ?_
  have hsame : Phrase.leadingLiterals u.ahead = Phrase.leadingLiterals t.ahead := by
    rw [hties.ahead, leadingLiterals_carried]
  rw [hsame]
  have haround := hties.around.leadingLiterals
  have hfew := Phrase.length_leadingLiterals t.ahead
  cases hvalues : Phrase.leadingLiterals t.ahead with
  | nil => exact expected _ c t u hties
  | cons value rest =>
    rw [hvalues] at haround hfew
    refine ⟨.ok rfl, hties.drop hfew haround, List.drop_suffix _ t.ahead, fun _ _ => ?_⟩
    have hpos : 0 < (value :: rest).length := Nat.succ_pos _
    change (t.ahead.drop (value :: rest).length).length + 1 ≤ t.ahead.length
    rw [List.length_drop]
    omega

theorem took (hplain : lexeme.IsPlain) :
    l.Alike n 0 Eq (Phrase.take? lexeme) (Phrase.take? lexeme) := by
  intro c t u hties
  rw [Phrase.on_take?, Phrase.on_take?, hties.first]
  split
  · next hlook => exact .take hties hlook hplain rfl (Nat.zero_le 1)
  · exact .stay hties (.ok rfl) fun _ _ => rfl

theorem integer : l.Alike n 0 Eq Phrase.integer Phrase.integer := by
  refine (took (by decide)).bind fun negative _ heq => .first_bind fun c t u hties => ?_
  subst heq
  split
  · next written hlook =>
    split
    · exact .take hties hlook (by simp [Lexeme.IsPlain]) rfl (Nat.zero_le 1)
    · exact (place.bind fun _ _ hspot => .failAt hspot _) c t u hties
  · exact expected _ c t u hties

end Alike

end Bond

end ProtoSchema
