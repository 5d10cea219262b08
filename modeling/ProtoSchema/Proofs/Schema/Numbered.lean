import ProtoSchema.Proofs.Schema.Groups
import ProtoSchema.Proofs.Schema.Renumbered

/-!
Numbers as they are written. A statement of a message, a oneof or an extend block that does not
start with a word of another kind of statement is a field, and one of an enum is a value; where
its first equals sign stands, it has the name in front and the literal behind. So whatever is
numbered in the tokens of a file that was read, at any depth, has a number in the tree, and the
number is that of the literal.
-/

namespace ProtoSchema

open Schema

/-- The words that start the statements of the home that are no fields. -/
def Home.settingWords : Home → List String
  | .message => ["option", "reserved", "extensions"]
  | .oneof => ["option"]
  | .file | .extendBlock => []

/-- The name of the field that is written with the word: a group has it in small letters. -/
inductive FieldName (word : String) (position : Position) (piece : List Token) : String → Prop
  | plain (hpiece : Plain piece) : FieldName word position piece word
  | group {inner : List Token} (hpiece : GroupTokens word position inner piece) :
      FieldName word position piece (word.map Char.toLower)

inductive InsideEnum (tokens inner : List Token) : Prop
  | intro {home : Home} {scope : DottedName} {around piece : List Token} {name : String}
      {position : Position} (h : Inside tokens [] home scope around)
      (hhome : home = .file ∨ home = .message) (hstatement : HasStatement around piece)
      (hpiece : NamedBlock "enum" name position inner piece)

/-- The tokens have a field or an enum value with the name at the place, and the literal behind
its equals sign, with a minus sign or without one. -/
inductive Numbered (tokens : List Token) :
    String → Position → Bool → Token → Prop
  | field {home : Home} {scope : DottedName} {around piece : List Token} {word name : String}
      {position : Position} {negative : Bool} {literal : Token}
      (h : Inside tokens [] home scope around) (hhome : home ≠ .file)
      (hstatement : HasStatement around piece)
      (hstart : ∀ other ∈ home.settingWords, ¬StartsWith other piece)
      (hname : FieldName word position piece name)
      (hnumber : NumberTokens word position negative literal piece) :
      Numbered tokens name position negative literal
  | enumValue {inner piece : List Token} {name : String} {position : Position}
      {negative : Bool} {literal : Token} (h : InsideEnum tokens inner)
      (hstatement : HasStatement inner piece)
      (hstart : ∀ other ∈ ["option", "reserved"], ¬StartsWith other piece)
      (hnumber : NumberTokens name position negative literal piece) :
      Numbered tokens name position negative literal

section Tokens

variable {tokens piece inner around front back front' back' : List Token}
  {name word name' : String} {position position' : Position} {negative negative' : Bool}
  {literal literal' token token' : Token} {written : String} {x : Int}

/-- The first token that is not inert is at one place only. -/
theorem eq_of_inert_front (hfront : ∀ t ∈ front, t.lexeme.IsInert)
    (hfront' : ∀ t ∈ front', t.lexeme.IsInert) (htoken : ¬token.lexeme.IsInert)
    (htoken' : ¬token'.lexeme.IsInert) (heq : front ++ token :: back = front' ++ token' :: back') :
    front = front' ∧ token = token' ∧ back = back' := by
  induction front generalizing front' with
  | nil =>
    cases front' with
    | nil => exact ⟨rfl, List.cons.inj heq⟩
    | cons first rest =>
      obtain ⟨rfl, _⟩ := List.cons.inj heq
      exact absurd (hfront' _ List.mem_cons_self) htoken
  | cons first rest ih =>
    obtain ⟨hfirst, hrest⟩ := List.forall_mem_cons.mp hfront
    cases front' with
    | nil =>
      obtain ⟨rfl, _⟩ := List.cons.inj heq
      exact absurd hfirst htoken'
    | cons first' rest' =>
      obtain ⟨rfl, hbehind⟩ := List.cons.inj heq
      obtain ⟨rfl, hsame⟩ := ih hrest (List.forall_mem_cons.mp hfront').2 hbehind
      exact ⟨rfl, hsame⟩

theorem not_isInert_equals : ¬Lexeme.IsInert (.mark '=') := by
  simp [Lexeme.IsInert, Lexeme.IsPlain]

theorem not_isInert_brace : ¬Lexeme.IsInert (.mark '\x7b') := by
  simp [Lexeme.IsInert, Lexeme.IsPlain]

namespace NumberTokens

variable (h : NumberTokens name position negative literal piece)

include h

/-- The tokens as far as the name, none of which is the equals sign. -/
theorem exists_front : ∃ front equals sign back, (∀ t ∈ front, t.lexeme.IsInert) ∧
    Sign negative sign ∧ piece = front ++ ⟨.mark '=', equals⟩ :: (sign ++ literal :: back) ∧
    front.getLast? = some ⟨.word name, position⟩ := by
  obtain @⟨front, sign, back, equals, hfront, hsign⟩ := h
  refine ⟨front ++ [⟨.word name, position⟩], equals, sign, back, ?_, hsign, by simp, by simp⟩
  exact List.forall_mem_append.mpr ⟨hfront,
    List.forall_mem_singleton.mpr (Lexeme.isInert_word name)⟩

/-- The literal of a name is the one behind the first equals sign. -/
theorem amounts_of_numberedAs (hnumber : NumberedAs name' position' x piece)
    (hwritten : literal.lexeme = .integer written) :
    name' = name ∧ position' = position ∧ Amounts literal.lexeme negative x := by
  obtain ⟨negative', literal', htokens, hamounts⟩ := hnumber
  obtain ⟨front, _, sign, back, hfront, hsign, hpiece, hlast⟩ := h.exists_front
  obtain ⟨front', _, sign', back', hfront', hsign', hpiece', hlast'⟩ := htokens.exists_front
  obtain ⟨rfl, _, hbehind⟩ := eq_of_inert_front hfront hfront' not_isInert_equals
    not_isInert_equals (hpiece.symm.trans hpiece')
  obtain ⟨rfl, rfl⟩ : name' = name ∧ position' = position := by
    simpa using hlast'.symm.trans hlast
  have hlexeme := hamounts
  obtain ⟨other, _, hother, _⟩ := hlexeme
  obtain ⟨rfl, rfl⟩ := hsign.eq_of_append hsign' hwritten hother hbehind
  exact ⟨rfl, rfl, hamounts⟩

theorem gives (hpiece : piece <:+: tokens) :
    Renumbering.Gives tokens position negative literal := by
  obtain @⟨front, sign, back, equals, _, hsign⟩ := h
  exact ⟨name, equals, sign, hsign, List.IsInfix.trans ⟨front, back, by simp⟩ hpiece⟩

theorem not_aside {words others : List String} (haside : Aside words piece)
    (hstart : ∀ other ∈ others, ¬StartsWith other piece) (hwords : words ⊆ others) : False := by
  rcases haside.starts with hlength | ⟨other, hother, hstarts⟩
  · obtain ⟨equals, _, _⟩ := h
    simp at hlength
    omega
  · exact hstart other (hwords hother) hstarts

/-- The brace that opens a block is not behind the first equals sign. -/
theorem not_braces {block : List Token} (hfront : ∀ t ∈ front, t.lexeme.IsInert)
    (hblock : Braces inner block) : piece ≠ front ++ block := by
  intro heq
  obtain ⟨front', equals, sign, back, hfront', _, hpiece, _⟩ := h.exists_front
  obtain ⟨start, stop, _⟩ := hblock
  obtain ⟨_, hsame, _⟩ := eq_of_inert_front hfront' hfront not_isInert_equals not_isInert_brace
    (hpiece.symm.trans heq)
  cases hsame

theorem not_namedBlock (hblock : NamedBlock word name' position' inner piece) : False := by
  obtain ⟨start, hbraces⟩ := hblock
  have hfront : ∀ t ∈ [(⟨.word word, start⟩ : Token), ⟨.word name', position'⟩],
      t.lexeme.IsInert := by
    simp [Lexeme.isInert_word]
  exact h.not_braces hfront hbraces rfl

theorem not_extendTokens (hblock : ExtendTokens inner piece) : False := by
  obtain ⟨start, hextendee, hbraces⟩ := hblock
  exact h.not_braces (List.forall_mem_cons.mpr ⟨Lexeme.isInert_word "extend", hextendee.lexemes⟩)
    hbraces rfl

end NumberTokens

end Tokens

section Inversion

variable {B : BodyRelation} {oneof : Option Nat} {index : Nat} {piece : List Token}
  {field : Field} {groups : List Message} {message next : Message} {block after : Extend}
  {enum later : Enum} {name word written : String} {position : Position} {negative : Bool}
  {literal : Token}

section Fields

variable (hname : FieldName word position piece name)
  (hnumber : NumberTokens word position negative literal piece)
  (hwritten : literal.lexeme = .integer written)

include hname hnumber hwritten

theorem FieldTokens.of_number (h : FieldTokens B oneof piece field groups) :
    ∃ x, Amounts literal.lexeme negative x ∧ field.HasNumber name position x := by
  cases h with
  | plain hplain hamounts =>
    obtain ⟨hfound, hposition, hx⟩ := hnumber.amounts_of_numberedAs hamounts hwritten
    cases hname with
    | plain => exact ⟨_, hx, hfound, hposition, rfl⟩
    | group hgroup => exact absurd hgroup.endsInBlock hplain.not_endsInBlock
  | group hgroup hamounts _ _ hlower _ _ hposition =>
    obtain ⟨rfl, rfl, hx⟩ := hnumber.amounts_of_numberedAs hamounts hwritten
    cases hname with
    | plain hplain => exact absurd hgroup.endsInBlock hplain.not_endsInBlock
    | group => exact ⟨_, hx, hlower, hposition, rfl⟩

theorem MessageStep.of_number (h : MessageStep B piece message next)
    (hstart : ∀ other ∈ Home.message.settingWords, ¬StartsWith other piece) :
    ∃ field ∈ next.fields, ∃ x, Amounts literal.lexeme negative x ∧
      field.HasNumber name position x := by
  cases h with
  | skipped haside => exact (hnumber.not_aside haside hstart (by simp [Home.settingWords])).elim
  | option _ haside => exact (hnumber.not_aside haside hstart (by simp [Home.settingWords])).elim
  | field hfield => exact ⟨_, by simp, hfield.of_number hname hnumber hwritten⟩
  | message hblock => exact (hnumber.not_namedBlock hblock).elim
  | enum henum =>
    obtain ⟨hblock, _⟩ := henum
    exact (hnumber.not_namedBlock hblock).elim
  | extend hextend =>
    obtain ⟨hblock, _⟩ := hextend
    exact (hnumber.not_extendTokens hblock).elim
  | oneof hblock => exact (hnumber.not_namedBlock hblock).elim

theorem OneofStep.of_number (h : OneofStep B index piece message next)
    (hstart : ∀ other ∈ Home.oneof.settingWords, ¬StartsWith other piece) :
    ∃ field ∈ next.fields, ∃ x, Amounts literal.lexeme negative x ∧
      field.HasNumber name position x := by
  cases h with
  | skipped haside => exact (hnumber.not_aside haside hstart (List.nil_subset _)).elim
  | option _ haside => exact (hnumber.not_aside haside hstart (List.Subset.refl _)).elim
  | field hfield => exact ⟨_, by simp, hfield.of_number hname hnumber hwritten⟩

theorem ExtendStep.of_number (h : ExtendStep B piece block after) :
    ∃ field ∈ after.fields, ∃ x, Amounts literal.lexeme negative x ∧
      field.HasNumber name position x := by
  cases h with
  | skipped haside =>
    exact (hnumber.not_aside haside (List.forall_mem_nil _) (List.Subset.refl _)).elim
  | field hfield => exact ⟨_, by simp, hfield.of_number hname hnumber hwritten⟩

end Fields

theorem EnumStep.of_number (h : EnumStep piece enum later)
    (hstart : ∀ other ∈ ["option", "reserved"], ¬StartsWith other piece)
    (hnumber : NumberTokens name position negative literal piece)
    (hwritten : literal.lexeme = .integer written) :
    ∃ value ∈ later.values, ∃ x, Amounts literal.lexeme negative x ∧
      value.HasNumber name position x := by
  cases h with
  | skipped haside => exact (hnumber.not_aside haside hstart (by simp)).elim
  | option _ haside => exact (hnumber.not_aside haside hstart (by simp)).elim
  | value _ hamounts =>
    obtain ⟨hfound, hposition, hx⟩ := hnumber.amounts_of_numberedAs hamounts hwritten
    exact ⟨_, by simp, _, hx, hfound, hposition, rfl⟩

theorem Steps.values_subset {tokens : List Token} (h : Steps EnumStep tokens enum later) :
    enum.values ⊆ later.values := by
  refine h.keeps (P := fun e => enum.values ⊆ e.values) (fun _ e next he hstep => ?_)
    (List.Subset.refl _)
  cases hstep with
  | value => exact List.subset_append_of_subset_left _ he
  | _ => exact he

end Inversion

section Places

variable {tokens piece inner around : List Token} {home : Home} {scope : DottedName}

theorem HasStatement.isInfix (h : HasStatement tokens piece) : piece <:+: tokens := by
  induction h with
  | first => exact (List.prefix_append _ _).isInfix
  | later _ _ ih => exact ih.trans (List.suffix_append _ _).isInfix

namespace Inside

theorem isInfix {outermost : DottedName} (h : Inside tokens outermost home scope around) :
    around <:+: tokens := by
  induction h with
  | file => exact List.infix_refl _
  | message _ _ hstatement hpiece ih => exact hpiece.isInfix.trans (hstatement.isInfix.trans ih)
  | oneof _ hstatement hpiece ih => exact hpiece.isInfix.trans (hstatement.isInfix.trans ih)
  | extendBlock _ _ hstatement hpiece ih =>
    exact hpiece.isInfix.trans (hstatement.isInfix.trans ih)
  | group _ _ hstatement hpiece ih => exact hpiece.isInfix.trans (hstatement.isInfix.trans ih)

/-- Where the tokens stand does not depend on the package. -/
theorem exists_scope {outermost : DottedName} (h : Inside tokens outermost home scope around)
    (other : DottedName) : ∃ scope', Inside tokens other home scope' around := by
  induction h with
  | file => exact ⟨_, .file⟩
  | message _ hhome hstatement hpiece ih =>
    obtain ⟨_, h⟩ := ih
    exact ⟨_, .message h hhome hstatement hpiece⟩
  | oneof _ hstatement hpiece ih =>
    obtain ⟨_, h⟩ := ih
    exact ⟨_, .oneof h hstatement hpiece⟩
  | extendBlock _ hhome hstatement hpiece ih =>
    obtain ⟨_, h⟩ := ih
    exact ⟨_, .extendBlock h hhome hstatement hpiece⟩
  | group _ hhome hstatement hpiece ih =>
    obtain ⟨_, h⟩ := ih
    exact ⟨_, .group h hhome hstatement hpiece⟩

end Inside

end Places

namespace Schema

section Regions

variable {tree : File} {region : Region} {name : String} {position : Position} {x : Int}

def Region.HasNumber (region : Region) : Renumbering.Numbers := fun name position x =>
  (∃ message ∈ region.messages, message.HasNumber name position x) ∨
    (∃ enum ∈ region.enums, enum.HasNumber name position x) ∨
    ∃ block ∈ region.extendBlocks, ExtendBlock.HasNumber block name position x

theorem exists_of_declaredMessages {messages : List Message} {blocks : List Extend}
    (h : ∃ message ∈ Linked.declaredMessages messages blocks, message.HasNumber name position x) :
    (∃ message ∈ messages, message.HasNumber name position x) ∨
      ∃ block ∈ blocks, ExtendBlock.HasNumber block name position x := by
  obtain ⟨message, hmessage, hnumber⟩ := h
  rcases Linked.Declaration.mem_declaredMessages.mp hmessage with hmem | ⟨block, hblock, hmem⟩
  · exact .inl ⟨message, hmem, hnumber⟩
  · exact .inr ⟨block, hblock, .inr ⟨message, hmem, hnumber⟩⟩

theorem File.HasRegion.hasNumber (h : tree.HasRegion region)
    (hnumber : region.HasNumber name position x) : tree.HasNumber name position x := by
  induction h with
  | outer =>
    rcases hnumber with hmessage | henum | hblock
    · exact (exists_of_declaredMessages hmessage).imp_right .inr
    · exact .inr (.inl henum)
    · exact .inr (.inr hblock)
  | @inner region message hregion hmessage ih =>
    refine ih (.inl ⟨message, hmessage, Message.hasNumber_iff.mpr (.inr ?_)⟩)
    rcases hnumber with hinner | henum | hblock
    · exact (exists_of_declaredMessages hinner).imp_right .inr
    · exact .inr (.inl henum)
    · exact .inr (.inr hblock)

end Regions

namespace File

variable {tree : File} {tokens piece inner around : List Token} {home : Home} {scope : DottedName}
  {name word written : String} {position : Position} {negative : Bool} {literal : Token}

/-- A field that is written inside something has its number in the tree. -/
theorem Holds.number_inside (h : tree.Holds home scope around) (hhome : home ≠ .file)
    (hstatement : HasStatement around piece)
    (hstart : ∀ other ∈ home.settingWords, ¬StartsWith other piece)
    (hname : FieldName word position piece name)
    (hnumber : NumberTokens word position negative literal piece)
    (hwritten : literal.lexeme = .integer written) :
    ∃ x, Amounts literal.lexeme negative x ∧ tree.HasNumber name position x := by
  cases h with
  | file => exact absurd rfl hhome
  | message hregion hmessage hsteps =>
    obtain ⟨_, _, _, hstep, hback⟩ := hsteps.exists_of_hasStatement hstatement
    obtain ⟨field, hfield, x, hx, hhas⟩ := hstep.of_number hname hnumber hwritten hstart
    have hmem := hback.message_within.fields hfield
    exact ⟨x, hx, hregion.hasNumber (.inl ⟨_, hmessage, .field hmem hhas⟩)⟩
  | oneof hregion hmessage hsteps hlast =>
    obtain ⟨_, _, _, hstep, hback⟩ := hsteps.exists_of_hasStatement hstatement
    obtain ⟨field, hfield, x, hx, hhas⟩ := hstep.of_number hname hnumber hwritten hstart
    have hmem := (hback.oneof_within.trans hlast).fields hfield
    exact ⟨x, hx, hregion.hasNumber (.inl ⟨_, hmessage, .field hmem hhas⟩)⟩
  | extendBlock hregion hblock hsteps =>
    obtain ⟨_, _, _, hstep, hback⟩ := hsteps.exists_of_hasStatement hstatement
    obtain ⟨field, hfield, x, hx, hhas⟩ := hstep.of_number hname hnumber hwritten
    have hmem := hback.extend_subset.1 hfield
    exact ⟨x, hx, hregion.hasNumber (.inr (.inr ⟨_, hblock, .inl ⟨field, hmem, hhas⟩⟩))⟩

theorem Holds.enum_inside (h : tree.Holds home scope around)
    (hhome : home = .file ∨ home = .message) (hstatement : HasStatement around piece)
    (hpiece : NamedBlock "enum" name position inner piece) :
    ∃ region enum, tree.HasRegion region ∧ enum ∈ region.enums ∧
      Steps EnumStep inner ⟨enum.name, [], [], enum.position⟩ enum := by
  cases h with
  | file hsteps =>
    obtain ⟨_, _, _, hstep, hback⟩ := hsteps.exists_of_hasStatement hstatement
    obtain ⟨enum, henum, hinner⟩ := hstep.of_enum hpiece
    exact ⟨_, enum, .outer, hback.file_subset.2.1 henum, hinner⟩
  | message hregion hmessage hsteps =>
    obtain ⟨_, _, _, hstep, hback⟩ := hsteps.exists_of_hasStatement hstatement
    obtain ⟨enum, henum, hinner⟩ := hstep.of_enum hpiece
    exact ⟨_, enum, .inner hregion hmessage, hback.message_within.enums henum, hinner⟩
  | oneof => simp at hhome
  | extendBlock => simp at hhome

/-- What is numbered in the tokens has the number of its literal in the tree. -/
theorem hasNumber_of_numbered {depth : Nat}
    (hsteps : Steps (FileStep (BodyTokens depth)) tokens .empty tree)
    (h : Numbered tokens name position negative literal)
    (hwritten : literal.lexeme = .integer written) :
    ∃ x, Amounts literal.lexeme negative x ∧ tree.HasNumber name position x := by
  cases h with
  | field hinside hhome hstatement hstart hname hnumber =>
    obtain ⟨_, hinside⟩ := hinside.exists_scope tree.scope
    exact (holds_of_inside hsteps hinside).number_inside hhome hstatement hstart hname hnumber
      hwritten
  | enumValue hinside hstatement hstart hnumber =>
    obtain ⟨hinside, hhome, hplace, hpiece⟩ := hinside
    obtain ⟨_, hinside⟩ := hinside.exists_scope tree.scope
    obtain ⟨region, enum, hregion, henum, hinner⟩ :=
      (holds_of_inside hsteps hinside).enum_inside hhome hplace hpiece
    obtain ⟨_, _, _, hstep, hback⟩ := hinner.exists_of_hasStatement hstatement
    obtain ⟨value, hvalue, x, hx, hhas⟩ := hstep.of_number hstart hnumber hwritten
    exact ⟨x, hx, hregion.hasNumber (.inr (.inl ⟨enum, henum, value, hback.values_subset hvalue,
      hhas⟩))⟩

end File

end Schema

theorem Numbered.gives {tokens : List Token} {name : String} {position : Position}
    {negative : Bool} {literal : Token} (h : Numbered tokens name position negative literal) :
    Renumbering.Gives tokens position negative literal := by
  cases h with
  | field hinside _ hstatement _ _ hnumber =>
    exact hnumber.gives (hstatement.isInfix.trans hinside.isInfix)
  | enumValue hinside hstatement _ hnumber =>
    obtain ⟨hinside, _, hplace, hpiece⟩ := hinside
    exact hnumber.gives (hstatement.isInfix.trans
      (hpiece.isInfix.trans (hplace.isInfix.trans hinside.isInfix)))

end ProtoSchema
