import ProtoSchema.Proofs.Schema.Taking
import ProtoSchema.Proofs.Schema.Written

/-!
The parts of a statement read back. Names, numbers, option settings and the declarations of
fields and enum values take the lexemes they are written with and give what these stand for.
Each lemma asks of the lexeme behind only that it does not go on with the part.
-/

namespace ProtoSchema.Written

open Phrase (Takes)
open Schema (OptionPart OptionSetting Label)

variable {more : List Lexeme}

section Settings

theorem takes_dottedName (name : Name) (hmore : more[0]? ≠ some (Lexeme.mark '.')) :
    Phrase.dottedName.Takes name.lexemes more (· = name.parts) := by
  apply Takes.imp (Phrase.takes_separated id Identifier.text (fun x => [.word x.text])
    name.first name.rest (fun x _ _ _ => Phrase.takes_identifier x.text) hmore)
  intro found hfound
  rw [List.map_id] at hfound
  exact hfound

theorem takes_typeName (type : Reference) (hmore : more[0]? ≠ some (Lexeme.mark '.')) :
    Phrase.typeName.Takes type.lexemes more (· = type.typeName) := by
  obtain ⟨absolute, name⟩ := type
  have hname (absolute : Bool) :
      (Phrase.dottedName >>= fun parts => (pure ⟨absolute, parts⟩ : Phrase TypeName)).Takes
        name.lexemes more (· = ⟨absolute, name.parts⟩) := by
    apply Takes.bind_last (takes_dottedName name hmore)
    intro parts hparts
    exact .pure (by rw [hparts])
  unfold Phrase.typeName
  cases absolute with
  | true => exact Takes.take?_bind (hname true)
  | false => exact Takes.not_take?_bind (by simp [Reference.lexemes, Name.lexemes]) (hname false)

theorem takes_optionPart (step : Step) :
    Phrase.optionPart.Takes step.lexemes more (· = step.part) := by
  unfold Phrase.optionPart
  cases step with
  | field name =>
    apply Takes.not_take?_bind (by simp [Step.lexemes])
    exact Takes.identifier_bind (.pure rfl)
  | extension type =>
    apply Takes.take?_bind
    apply Takes.bind (takes_typeName type (by simp))
    intro found hfound
    apply Takes.mark_bind
    exact .pure (by rw [hfound]; rfl)

theorem bareValue?_lexeme (value : Bare) :
    Phrase.bareValue? (some value.lexeme) = some value.text := by
  cases value with
  | word name => rfl
  | integer written h => rfl
  | decimal written h => rfl

theorem takes_signed (negative : Bool) (value : Bare) :
    (Phrase.signed (signOf negative)).Takes [.mark (signOf negative), value.lexeme] more
      (· = (signOf negative).toString ++ value.text) := by
  unfold Phrase.signed
  apply Takes.skip_bind [.mark (signOf negative)]
  apply Takes.look_bind
  simp only [List.cons_append, List.getElem?_cons_zero, bareValue?_lexeme]
  exact Takes.skip_bind [value.lexeme] (.pure rfl)

/-- An aggregate ends at the brace that closes it. -/
theorem takes_aggregate {inside : List Lexeme}
    (hbalanced : Token.Balanced (inside.map fun lexeme => ⟨lexeme, .none⟩)) :
    Phrase.aggregate.Takes (braced inside) more
      (· = " ".intercalate ("\x7b" :: (inside.map Phrase.aggregateText ++ ["\x7d"]))) := by
  unfold Phrase.aggregate
  apply Takes.place_bind
  intro opening
  apply Takes.mark_bind
  intro t ht
  rw [List.append_assoc, List.map_eq_append_iff] at ht
  obtain ⟨inner, ending, hahead, rfl, hending⟩ := ht
  rw [List.singleton_append, List.map_eq_cons_iff] at hending
  obtain ⟨close, behind, rfl, hclose, hbehind⟩ := hending
  have hplaces : Token.nest 0 (inner.map (Token.moved fun _ => .none)) = Token.nest 0 inner :=
    Token.nest_map 0 inner
  have hinner : Token.nest 0 inner = some 0 := by
    rw [List.map_map] at hbalanced
    exact hplaces.symm.trans hbalanced
  have hdrop : t.drop (inner.map (fun token => token.lexeme) ++ [Lexeme.mark '\x7d']).length =
      { t with ahead := behind } := by
    simp [Tape.drop, hahead]
  refine ⟨_, ?_, rfl⟩
  rw [Phrase.on_tape_bind, hahead, Phrase.aggregateRest_close hclose hinner, List.map_map, hdrop]
  rfl

theorem takes_constant (value : Constant)
    (hmore : ∀ other, more[0]? ≠ some (Lexeme.literal other)) :
    Phrase.constant.Takes value.lexemes more (· = value.kept) := by
  unfold Phrase.constant
  apply Takes.look_bind
  cases value with
  | text value => exact Phrase.takes_literal value hmore
  | bare value =>
    cases value with
    | word name => exact Takes.skip_bind [.word name.text] (.pure rfl)
    | integer written h => exact Takes.skip_bind [.integer written] (.pure rfl)
    | decimal written h => exact Takes.skip_bind [.decimal written] (.pure rfl)
  | signed negative value =>
    cases negative with
    | false => exact takes_signed false value
    | true => exact takes_signed true value
  | aggregate inside readable balanced => exact takes_aggregate balanced

theorem takes_setting (setting : Setting)
    (hmore : ∀ other, more[0]? ≠ some (Lexeme.literal other)) :
    Phrase.setting.Takes setting.lexemes more (fun found => found.unplaced = setting.setting) := by
  unfold Phrase.setting
  apply Takes.place_bind
  intro position
  apply Takes.bind (Phrase.takes_separated id Step.part Step.lexemes setting.first setting.rest
    (fun x _ _ _ => takes_optionPart x) (by simp))
  intro name hname
  apply Takes.mark_bind
  apply Takes.bind_last (takes_constant setting.value hmore)
  intro value hvalue
  rw [List.map_id] at hname
  exact .pure (by rw [hname, hvalue]; rfl)

/-- Settings in brackets, or none. -/
theorem takes_settings (options : List Setting) (hmore : more[0]? ≠ some (Lexeme.mark '[')) :
    Phrase.settings.Takes (bracketed options) more
      (fun found => found.map OptionSetting.unplaced = options.map Setting.setting) := by
  unfold Phrase.settings
  cases options with
  | nil => exact Takes.not_take?_bind hmore (.pure rfl)
  | cons first rest =>
    apply Takes.take?_bind
    apply Takes.bind (Phrase.takes_separated OptionSetting.unplaced Setting.setting
      Setting.lexemes first rest ?_ (by simp))
    · intro found hfound
      apply Takes.mark_bind
      exact .pure hfound
    · intro x _ behind hbehind
      apply takes_setting x
      intro other
      rcases hbehind with rfl | hbehind
      · simp
      · simp [hbehind]

theorem takes_optionStatement (setting : Setting) :
    Phrase.optionStatement.Takes (optionLexemes setting) more
      (fun found => found.unplaced = setting.setting) := by
  unfold Phrase.optionStatement
  apply Takes.keyword_bind
  apply Takes.bind (takes_setting setting (by simp))
  intro found hfound
  apply Takes.mark_bind
  exact .pure hfound

end Settings

section Fields

theorem value?_filter {n : Nat} (h : n ≤ Phrase.numberLimit) :
    (Numeral.value? (toString n).toList).filter (· ≤ Phrase.numberLimit) = some n := by
  have hsize : n < UInt64.size := Nat.lt_of_le_of_lt h (by decide)
  rw [(Numeral.spells_toString n).value?_eq hsize]
  exact Option.filter_some_pos (decide_eq_true h)

theorem takes_integer (number : Number) :
    Phrase.integer.Takes number.lexemes more (· = number.value) := by
  obtain ⟨value, hwithin⟩ := number
  unfold Phrase.integer Number.lexemes
  simp only
  split
  · next hnegative =>
    apply Takes.take?_bind
    apply Takes.look_bind
    simp only [List.cons_append, List.getElem?_cons_zero, value?_filter hwithin]
    apply Takes.skip_bind [.integer (toString value.natAbs)]
    exact .pure (by simp only [if_true]; omega)
  · next hnegative =>
    apply Takes.not_take?_bind (by simp)
    apply Takes.look_bind
    simp only [List.cons_append, List.getElem?_cons_zero, value?_filter hwithin]
    apply Takes.skip_bind [.integer (toString value.natAbs)]
    exact .pure (by simp only [Bool.false_eq_true, if_false]; omega)

theorem getElem?_reference {type : Reference} {word : String}
    (free : type.absolute = false → type.name.first.text ∉ leadingWords)
    (hword : word ∈ leadingWords) : (type.lexemes ++ more)[0]? ≠ some (Lexeme.word word) := by
  obtain ⟨absolute, name⟩ := type
  cases absolute with
  | true => simp [Reference.lexemes]
  | false =>
    have hne : name.first.text ≠ word := fun heq => free rfl (heq ▸ hword)
    simpa [Reference.lexemes, Name.lexemes] using hne

/-- A type does not start like a statement of another kind. -/
theorem getElem?_heldType (type : HeldType) {word : String} (hword : word ∈ leadingWords)
    (hmap : word ≠ "map") : (type.lexemes ++ more)[0]? ≠ some (Lexeme.word word) := by
  cases type with
  | single type free => exact getElem?_reference free hword
  | map key value => simpa [HeldType.lexemes] using hmap.symm

/-- A type and the name behind it do not start like a setting. -/
theorem getElem?_one_heldType (type : HeldType) (name : String) :
    (type.lexemes ++ .word name :: more)[1]? ≠ some (Lexeme.mark '=') := by
  cases type with
  | single type free =>
    obtain ⟨absolute, first, rest⟩ := type
    cases absolute with
    | true => simp [HeldType.lexemes, Reference.lexemes, Name.lexemes]
    | false =>
      cases rest with
      | nil => simp [HeldType.lexemes, Reference.lexemes, Name.lexemes]
      | cons second others => simp [HeldType.lexemes, Reference.lexemes, Name.lexemes]
  | map key value => simp [HeldType.lexemes]

theorem takes_fieldType (type : HeldType) (hmore : more[0]? ≠ some (Lexeme.mark '.')) :
    Phrase.fieldType.Takes type.lexemes more (· = type.fieldType) := by
  unfold Phrase.fieldType
  apply Takes.look_bind
  apply Takes.look_bind
  cases type with
  | single type free =>
    have hmap : (type.lexemes ++ more)[0]? ≠ some (Lexeme.word "map") :=
      getElem?_reference free (by decide)
    rw [if_neg fun h => hmap h.1]
    apply Takes.bind_last (takes_typeName type hmore)
    intro found hfound
    exact .pure (by rw [hfound]; rfl)
  | map key value =>
    rw [if_pos ⟨rfl, rfl⟩]
    apply Takes.skip_bind [.word "map", .mark '<']
    apply Takes.bind (takes_typeName key (by simp))
    intro found hfound
    apply Takes.mark_bind
    apply Takes.bind (takes_typeName value (by simp))
    intro other hother
    apply Takes.mark_bind
    exact .pure (by rw [hfound, hother]; rfl)

theorem takes_plainField (label : Option Label) (oneof : Option Nat) (type : HeldType)
    (head : Head) :
    (Phrase.plainField label oneof).Takes (type.lexemes ++ (head.lexemes ++ [Lexeme.mark ';'])) more
      (fun found => found.unplaced = (Member.field type head).asField label oneof) := by
  unfold Phrase.plainField
  rw [Head.lexemes_append]
  apply Takes.place_bind
  intro typePosition
  apply Takes.bind (takes_fieldType type (by simp))
  intro held hheld
  apply Takes.place_bind
  intro position
  apply Takes.identifier_bind
  apply Takes.mark_bind
  apply Takes.bind (takes_integer head.number)
  intro number hnumber
  apply Takes.bind (takes_settings head.options (by simp))
  intro options hoptions
  apply Takes.mark_bind
  apply Takes.pure
  simp only [Schema.Field.unplaced, hoptions, hnumber, hheld]
  rfl

end Fields

section Enums

theorem takes_enumValue (head : Head) :
    Phrase.enumValue.Takes (head.lexemes ++ [Lexeme.mark ';']) more
      (fun found => found.unplaced =
        ⟨head.name.text, head.number.value, head.settings, .none⟩) := by
  unfold Phrase.enumValue
  rw [Head.lexemes_append]
  apply Takes.place_bind
  intro position
  apply Takes.identifier_bind
  apply Takes.mark_bind
  apply Takes.bind (takes_integer head.number)
  intro number hnumber
  apply Takes.bind (takes_settings head.options (by simp))
  intro options hoptions
  apply Takes.mark_bind
  apply Takes.pure
  simp only [Schema.EnumValue.unplaced, hoptions, hnumber]
  rfl

def EnumItem.addTo (enum : Schema.Enum) (item : EnumItem) : Schema.Enum :=
  { enum with
    values := enum.values ++ item.value?.toList
    options := enum.options ++ item.option?.toList }

theorem takes_enumStatement (item : EnumItem) (enum : Schema.Enum) :
    (Phrase.enumStatement enum).Takes item.lexemes more
      (fun found => found.unplaced = item.addTo enum.unplaced) := by
  unfold Phrase.enumStatement
  cases item with
  | value head free =>
    apply Takes.not_take?_bind (by simp [EnumItem.lexemes, Head.lexemes])
    apply Takes.look_bind
    have hother (word : String) (hword : word ∈ ["option", "reserved"]) :
        ((EnumItem.value head free).lexemes ++ more)[0]? ≠ some (Lexeme.word word) := by
      intro hfirst
      have hname : head.name.text = word := Lexeme.word.inj (Option.some.inj hfirst)
      exact free (hname ▸ hword)
    split
    · next hlook => exact absurd hlook (hother "option" (by decide))
    · next hlook => exact absurd hlook (hother "reserved" (by decide))
    · apply Takes.bind_last (takes_enumValue head)
      intro found hfound
      apply Takes.pure
      simp [Schema.Enum.unplaced, EnumItem.addTo, EnumItem.value?, EnumItem.option?, hfound]
  | option setting =>
    apply Takes.not_take?_bind (by simp [EnumItem.lexemes, optionLexemes])
    apply Takes.look_bind
    apply Takes.bind_last (takes_optionStatement setting)
    intro found hfound
    apply Takes.pure
    simp [Schema.Enum.unplaced, EnumItem.addTo, EnumItem.value?, EnumItem.option?, hfound]

theorem EnumItem.starts (item : EnumItem) :
    ∃ lexeme others, item.lexemes = lexeme :: others ∧ lexeme ≠ .mark '\x7d' := by
  cases item with
  | value head free => exact ⟨_, _, rfl, by simp⟩
  | option setting => exact ⟨_, _, rfl, by simp⟩

theorem foldl_addTo_enum (items : List EnumItem) (enum : Schema.Enum) :
    items.foldl EnumItem.addTo enum =
      { enum with
        values := enum.values ++ items.filterMap EnumItem.value?
        options := enum.options ++ items.filterMap EnumItem.option? } := by
  induction items generalizing enum with
  | nil => simp
  | cons item rest ih =>
    rw [List.foldl_cons, ih]
    cases item with
    | value head free =>
      simp [EnumItem.addTo, EnumItem.value?, EnumItem.option?, List.filterMap_cons]
    | option setting =>
      simp [EnumItem.addTo, EnumItem.value?, EnumItem.option?, List.filterMap_cons]

theorem takes_enum (name : Identifier) (items : List EnumItem) :
    Phrase.enum.Takes (.word "enum" :: .word name.text :: braced (items.flatMap EnumItem.lexemes))
      more (fun found => found.unplaced = ⟨name.text, items.filterMap EnumItem.value?,
        items.filterMap EnumItem.option?, .none⟩) := by
  unfold Phrase.enum
  apply Takes.keyword_bind
  apply Takes.place_bind
  intro position
  apply Takes.identifier_bind
  apply Takes.imp (Phrase.takes_block Schema.Enum.unplaced EnumItem.addTo EnumItem.lexemes "enum"
    items (fun x _ s _ => takes_enumStatement x s) (fun x _ => x.starts) _)
  intro found hfound
  rw [hfound, foldl_addTo_enum]
  rfl

end Enums

end ProtoSchema.Written
