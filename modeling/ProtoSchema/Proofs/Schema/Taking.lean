import ProtoSchema.Proofs.Schema.Recovery

/-!
Phrases that take the lexemes written for them. What a phrase takes is told without the
places of the tokens: with the lexemes ahead, and whatever stands behind them as far as the
phrase looks, it takes just these and gives the value meant. The lemmas put such phrases
together in the order of the text.
-/

namespace ProtoSchema

namespace Phrase

variable {α β ι σ : Type} {lexemes rest more : List Lexeme} {P : α → Prop} {Q : β → Prop}
  {phrase item : Phrase α} {f : α → Phrase β}

def Takes (phrase : Phrase α) (lexemes more : List Lexeme) (P : α → Prop) : Prop :=
  ∀ t : Tape, t.ahead.map (·.lexeme) = lexemes ++ more →
    ∃ a, phrase.on t = (.ok a, t.drop lexemes.length) ∧ P a

theorem lexeme?_eq {t : Tape} (h : t.ahead.map (·.lexeme) = lexemes) (k : Nat) :
    t.lexeme? k = lexemes[k]? := by
  rw [Tape.lexeme?, ← h, List.getElem?_map]

theorem ahead_drop {t : Tape} (h : t.ahead.map (·.lexeme) = lexemes ++ rest) :
    (t.drop lexemes.length).ahead.map (·.lexeme) = rest := by
  rw [Tape.drop, List.map_drop, h, List.drop_left]

theorem drop_drop (t : Tape) (m n : Nat) : (t.drop m).drop n = t.drop (m + n) := by
  simp only [Tape.drop, List.drop_drop]

theorem Takes.pure {a : α} (h : P a) : Takes (pure a) [] more P :=
  fun _ _ => ⟨a, rfl, h⟩

theorem Takes.imp {P' : α → Prop} (h : phrase.Takes lexemes more P) (hP : ∀ a, P a → P' a) :
    phrase.Takes lexemes more P' := by
  intro t ht
  obtain ⟨a, hon, ha⟩ := h t ht
  exact ⟨a, hon, hP a ha⟩

theorem Takes.bind (h : phrase.Takes lexemes (rest ++ more) P)
    (hf : ∀ a, P a → (f a).Takes rest more Q) :
    (phrase >>= f).Takes (lexemes ++ rest) more Q := by
  intro t ht
  rw [List.append_assoc] at ht
  obtain ⟨a, hon, ha⟩ := h t ht
  obtain ⟨b, hrest, hb⟩ := hf a ha (t.drop lexemes.length) (ahead_drop ht)
  refine ⟨b, ?_, hb⟩
  rw [on_bind, hon, List.length_append, ← drop_drop]
  exact hrest

/-- The phrase is the last one of the text. -/
theorem Takes.bind_last (h : phrase.Takes lexemes more P)
    (hf : ∀ a, P a → (f a).Takes [] more Q) : (phrase >>= f).Takes lexemes more Q := by
  rw [← List.append_nil lexemes]
  exact Takes.bind h hf

theorem Takes.look_bind {f : Option Lexeme → Phrase β} (k : Nat)
    (h : (f ((lexemes ++ more)[k]?)).Takes lexemes more Q) :
    (look k >>= f).Takes lexemes more Q := by
  intro t ht
  rw [on_look_bind, lexeme?_eq ht]
  exact h t ht

theorem Takes.place_bind {f : Position → Phrase β}
    (h : ∀ position, (f position).Takes lexemes more Q) :
    (place >>= f).Takes lexemes more Q := by
  intro t ht
  rw [on_place_bind]
  exact h t.place t ht

theorem Takes.skip_bind {f : Unit → Phrase β} (passed : List Lexeme)
    (h : (f ()).Takes rest more Q) :
    (skip passed.length >>= f).Takes (passed ++ rest) more Q := by
  refine Takes.bind (P := fun _ => True) (fun t _ => ⟨(), rfl, trivial⟩) ?_
  exact fun _ _ => h

theorem takes_of_first {lexeme : Lexeme} {a : α}
    (h : ∀ t : Tape, t.lexeme? 0 = some lexeme → phrase.on t = (.ok a, t.drop 1)) :
    phrase.Takes [lexeme] more (· = a) := by
  intro t ht
  exact ⟨a, h t (lexeme?_eq ht 0), rfl⟩

theorem Takes.mark_bind {f : Unit → Phrase β} {c : Char} (h : (f ()).Takes rest more Q) :
    (mark c >>= f).Takes (.mark c :: rest) more Q := by
  have hmark : (mark c).Takes [.mark c] (rest ++ more) (· = ()) :=
    takes_of_first fun t ht => by rw [on_mark, if_pos ht]
  exact hmark.bind fun _ _ => h

theorem Takes.keyword_bind {f : Unit → Phrase β} {word : String}
    (h : (f ()).Takes rest more Q) :
    (keyword word >>= f).Takes (.word word :: rest) more Q := by
  have hkeyword : (keyword word).Takes [.word word] (rest ++ more) (· = ()) :=
    takes_of_first fun t ht => on_keyword ht
  exact hkeyword.bind fun _ _ => h

theorem takes_identifier (word : String) : identifier.Takes [.word word] more (· = word) :=
  takes_of_first fun _ ht => on_identifier ht

theorem Takes.identifier_bind {f : String → Phrase β} {word : String}
    (h : (f word).Takes rest more Q) :
    (identifier >>= f).Takes (.word word :: rest) more Q := by
  refine (takes_identifier word).bind fun a ha => ?_
  rwa [ha]

/-- The lexeme comes first and is taken. -/
theorem Takes.take?_bind {f : Bool → Phrase β} {lexeme : Lexeme}
    (h : (f true).Takes rest more Q) : (take? lexeme >>= f).Takes (lexeme :: rest) more Q := by
  have htake : (take? lexeme).Takes [lexeme] (rest ++ more) (· = true) :=
    takes_of_first fun t ht => by rw [on_take?, if_pos ht]
  refine htake.bind fun found hfound => ?_
  rwa [hfound]

/-- Another lexeme comes first, or none. -/
theorem Takes.not_take?_bind {f : Bool → Phrase β} {lexeme : Lexeme}
    (hother : (lexemes ++ more)[0]? ≠ some lexeme) (h : (f false).Takes lexemes more Q) :
    (take? lexeme >>= f).Takes lexemes more Q := by
  intro t ht
  rw [on_bind, on_take?, lexeme?_eq ht, if_neg hother]
  exact h t ht

theorem Takes.tape_bind {f : Tape → Phrase β}
    (h : ∀ t : Tape, t.ahead.map (·.lexeme) = lexemes ++ more → (f t).Takes lexemes more Q) :
    (tape >>= f).Takes lexemes more Q := by
  intro t ht
  rw [on_tape_bind]
  exact h t ht t ht

/-- One string alone. -/
theorem takes_literal (value : String) (hmore : ∀ other, more[0]? ≠ some (Lexeme.literal other)) :
    literal.Takes [.literal value] more (· = value) := by
  intro t ht
  have hleading : leadingLiterals t.ahead = [value] := by
    cases hahead : t.ahead with
    | nil => simp [hahead] at ht
    | cons token behind =>
      obtain ⟨lexeme, position⟩ := token
      rw [hahead, List.map_cons, List.cons_append, List.cons.injEq] at ht
      obtain ⟨rfl, hbehind⟩ := ht
      rw [leadingLiterals]
      refine congrArg (value :: ·) ?_
      cases behind with
      | nil => rfl
      | cons next others =>
        obtain ⟨lexeme, place⟩ := next
        cases lexeme with
        | literal other =>
          refine absurd ?_ (hmore other)
          rw [List.nil_append] at hbehind
          rw [← hbehind]
          rfl
        | _ => rfl
  refine ⟨value, ?_, rfl⟩
  rw [literal, on_tape_bind, hleading]
  change (Except.ok (String.join [value]), _) = _
  simp [String.join, List.foldl]

section Separated

variable {sep : Char} {view : α → β} {value : ι → β} {written : ι → List Lexeme}

/-- The separator stands in front of each item, and not behind the last. -/
theorem takes_moreSeparated (items : List ι)
    (h : ∀ x ∈ items, ∀ behind, behind = more ∨ behind[0]? = some (Lexeme.mark sep) →
      item.Takes (written x) behind (fun a => view a = value x))
    (hmore : more[0]? ≠ some (Lexeme.mark sep)) (rounds : Nat) (hrounds : items.length ≤ rounds) :
    (moreSeparated sep item rounds).Takes (items.flatMap fun x => .mark sep :: written x) more
      (fun found => found.map view = items.map value) := by
  induction items generalizing rounds with
  | nil =>
    cases rounds with
    | zero => exact .pure rfl
    | succ rounds => exact .not_take?_bind hmore (.pure rfl)
  | cons x items ih =>
    cases rounds with
    | zero => exact absurd hrounds (Nat.not_succ_le_zero _)
    | succ rounds =>
      have hbehind : (items.flatMap fun x => .mark sep :: written x) ++ more = more ∨
          ((items.flatMap fun x => .mark sep :: written x) ++ more)[0]? =
            some (Lexeme.mark sep) := by
        cases items with
        | nil => exact .inl rfl
        | cons y items => exact .inr rfl
      rw [List.flatMap_cons, List.cons_append]
      unfold moreSeparated
      apply Takes.take?_bind
      apply Takes.bind (h x List.mem_cons_self _ hbehind)
      intro a ha
      apply Takes.bind_last (ih (fun y hy => h y (List.mem_cons_of_mem x hy)) rounds
        (Nat.le_of_succ_le_succ hrounds))
      intro found hfound
      apply Takes.pure
      rw [List.map_cons, List.map_cons, ha, hfound]

theorem length_le_flatMap (items : List ι) :
    items.length ≤ (items.flatMap fun x => Lexeme.mark sep :: written x).length := by
  induction items with
  | nil => exact Nat.le_refl 0
  | cons x items ih =>
    rw [List.flatMap_cons, List.length_append, List.length_cons, List.length_cons]
    omega

theorem takes_separated (view : α → β) (value : ι → β) (written : ι → List Lexeme) (first : ι)
    (items : List ι)
    (h : ∀ x ∈ first :: items, ∀ behind, behind = more ∨ behind[0]? = some (Lexeme.mark sep) →
      item.Takes (written x) behind (fun a => view a = value x))
    (hmore : more[0]? ≠ some (Lexeme.mark sep)) :
    (separated sep item).Takes
      (written first ++ items.flatMap fun x => .mark sep :: written x) more
      (fun found => found.map view = (first :: items).map value) := by
  have hbehind : (items.flatMap fun x => .mark sep :: written x) ++ more = more ∨
      ((items.flatMap fun x => .mark sep :: written x) ++ more)[0]? = some (Lexeme.mark sep) := by
    cases items with
    | nil => exact .inl rfl
    | cons y items => exact .inr rfl
  unfold separated
  apply Takes.bind (h first List.mem_cons_self _ hbehind)
  intro a ha
  apply Takes.tape_bind
  intro t ht
  have hrounds : items.length ≤ t.ahead.length := by
    have hlength := congrArg List.length ht
    have hfew : items.length ≤ (items.flatMap fun x => Lexeme.mark sep :: written x).length :=
      length_le_flatMap items
    rw [List.length_map, List.length_append] at hlength
    omega
  apply Takes.bind_last (takes_moreSeparated items
    (fun y hy => h y (List.mem_cons_of_mem first hy)) hmore _ hrounds)
  intro found hfound
  apply Takes.pure
  rw [List.map_cons, List.map_cons, ha, hfound]

end Separated

section Blocks

variable {statement : σ → Phrase σ} {view : σ → β} {step : β → ι → β} {written : ι → List Lexeme}

theorem length_drop_lt {t : Tape} (ht : t.ahead.map (·.lexeme) = lexemes ++ more)
    (hne : lexemes ≠ []) : (t.drop lexemes.length).ahead.length < t.ahead.length := by
  have hpos := List.length_pos_iff.mpr hne
  have hlength := congrArg List.length ht
  rw [List.length_map, List.length_append] at hlength
  rw [Tape.drop, List.length_drop]
  omega

/-- The statements of a block, each of which changes what is seen of the state by a step. -/
theorem takes_statements (name : String) (items : List ι)
    (h : ∀ x ∈ items, ∀ s behind, (statement s).Takes (written x) behind
      (fun s' => view s' = step (view s) x))
    (hstarts : ∀ x ∈ items, ∃ lexeme others, written x = lexeme :: others ∧
      lexeme ≠ .mark '\x7d') (s : σ) :
    (ofFunction (statements name statement s)).Takes
      (items.flatMap written ++ [Lexeme.mark '\x7d']) more
      (fun s' => view s' = items.foldl step (view s)) := by
  induction items generalizing s with
  | nil =>
    intro t ht
    cases hahead : t.ahead with
    | nil => simp [hahead] at ht
    | cons token behind =>
      rw [hahead, List.map_cons, List.flatMap_nil, List.nil_append, List.singleton_append,
        List.cons.injEq] at ht
      refine ⟨s, ?_, rfl⟩
      change statements name statement s t = _
      rw [statements_of_close hahead ht.1, Tape.drop, hahead]
      rfl
  | cons x items ih =>
    intro t ht
    obtain ⟨lexeme, others, hwritten, hopen⟩ := hstarts x List.mem_cons_self
    rw [List.flatMap_cons, List.append_assoc, List.append_assoc] at ht
    obtain ⟨s', hon, hs'⟩ := h x List.mem_cons_self s _ t ht
    have hsettled := settled_of_ok hon (length_drop_lt ht (by simp [hwritten]))
    have hrest := ahead_drop ht
    rw [← List.append_assoc] at hrest
    obtain ⟨last, hlast, hview⟩ := ih (fun y hy => h y (List.mem_cons_of_mem x hy))
      (fun y hy => hstarts y (List.mem_cons_of_mem x hy)) s' _ hrest
    refine ⟨last, ?_, ?_⟩
    · cases hahead : t.ahead with
      | nil => simp [hahead, hwritten] at ht
      | cons token behind =>
        have hfirst : token.lexeme = lexeme := by
          rw [hahead, hwritten, List.map_cons, List.cons_append, List.cons.injEq] at ht
          exact ht.1
        change statements name statement s t = _
        rw [statements_of_open hahead (hfirst ▸ hopen), hsettled]
        refine Eq.trans hlast ?_
        rw [drop_drop, ← List.length_append, List.flatMap_cons, List.append_assoc]
    · rw [List.foldl_cons, ← hs']
      exact hview

theorem takes_block (view : σ → β) (step : β → ι → β) (written : ι → List Lexeme) (name : String)
    (items : List ι)
    (h : ∀ x ∈ items, ∀ s behind, (statement s).Takes (written x) behind
      (fun s' => view s' = step (view s) x))
    (hstarts : ∀ x ∈ items, ∃ lexeme others, written x = lexeme :: others ∧
      lexeme ≠ .mark '\x7d') (s : σ) :
    (block name statement s).Takes
      (.mark '\x7b' :: (items.flatMap written ++ [Lexeme.mark '\x7d'])) more
      (fun s' => view s' = items.foldl step (view s)) := by
  unfold block
  apply Takes.mark_bind
  exact takes_statements name items h hstarts s

end Blocks

end Phrase

end ProtoSchema
