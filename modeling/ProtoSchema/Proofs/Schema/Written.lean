import ProtoSchema.Proofs.Schema.Braces
import ProtoSchema.Proofs.Schema.Places
import ProtoSchema.Proofs.Token.Numbers
import ProtoSchema.Schema.Body

/-!
Messages to be written out. A message is given by its items in the order of the text, nested
to any depth; the types of the parts carry what the grammar asks of them, so every message
given here can be written. For each part there are the lexemes it is written with and what
stands for it in the message that is read, places aside.
-/

namespace ProtoSchema

namespace Written

open Schema (FieldType Label OptionPart OptionSetting)

structure Identifier where
  text : String
  isWord : Scanned.IsWord text

structure Name where
  first : Identifier
  rest : List Identifier

def Name.parts (name : Name) : DottedName := (name.first :: name.rest).map Identifier.text

def Name.lexemes (name : Name) : List Lexeme :=
  .word name.first.text :: name.rest.flatMap fun x => [.mark '.', .word x.text]

structure Reference where
  absolute : Bool
  name : Name

def Reference.typeName (type : Reference) : TypeName := ⟨type.absolute, type.name.parts⟩

def Reference.lexemes (type : Reference) : List Lexeme :=
  if type.absolute then .mark '.' :: type.name.lexemes else type.name.lexemes

def leadingWords : List String :=
  ["message", "enum", "extend", "option", "reserved", "extensions", "oneof", "optional",
   "required", "repeated", "group", "map"]

inductive HeldType where
  | single (type : Reference)
      (free : type.absolute = false → type.name.first.text ∉ leadingWords)
  | map (key value : Reference)

def HeldType.fieldType : HeldType → FieldType
  | .single type _ => .single type.typeName
  | .map key value => .map key.typeName value.typeName

def HeldType.lexemes : HeldType → List Lexeme
  | .single type _ => type.lexemes
  | .map key value =>
    .word "map" :: .mark '<' :: (key.lexemes ++ .mark ',' :: (value.lexemes ++ [.mark '>']))

structure Number where
  value : Int
  within : value.natAbs ≤ Phrase.numberLimit

def Number.lexemes (number : Number) : List Lexeme :=
  if number.value < 0 then [.mark '-', .integer (toString number.value.natAbs)]
  else [.integer (toString number.value.natAbs)]

inductive Bare where
  | word (name : Identifier)
  | integer (written : String) (isNumeral : Scanned.IsNumeral .integer written)
  | decimal (written : String) (isNumeral : Scanned.IsNumeral .decimal written)

def Bare.text : Bare → String
  | .word name => name.text
  | .integer written _ => written
  | .decimal written _ => written

def Bare.lexeme : Bare → Lexeme
  | .word name => .word name.text
  | .integer written _ => .integer written
  | .decimal written _ => .decimal written

inductive Constant where
  | text (value : String)
  | bare (value : Bare)
  | signed (negative : Bool) (value : Bare)
  | aggregate (inside : List Lexeme) (readable : Lexeme.AllReadable inside)
      (balanced : Token.Balanced (inside.map fun lexeme => ⟨lexeme, .none⟩))

def signOf (negative : Bool) : Char := if negative then '-' else '+'

def Constant.kept : Constant → String
  | .text value => value
  | .bare value => value.text
  | .signed negative value => (signOf negative).toString ++ value.text
  | .aggregate inside _ _ =>
    " ".intercalate ("\x7b" :: (inside.map Phrase.aggregateText ++ ["\x7d"]))

def Constant.lexemes : Constant → List Lexeme
  | .text value => [.literal value]
  | .bare value => [value.lexeme]
  | .signed negative value => [.mark (signOf negative), value.lexeme]
  | .aggregate inside _ _ => .mark '\x7b' :: (inside ++ [.mark '\x7d'])

inductive Step where
  | field (name : Identifier)
  | extension (type : Reference)

def Step.part : Step → OptionPart
  | .field name => .field name.text
  | .extension type => .extension type.typeName

def Step.lexemes : Step → List Lexeme
  | .field name => [.word name.text]
  | .extension type => .mark '(' :: (type.lexemes ++ [.mark ')'])

structure Setting where
  first : Step
  rest : List Step
  value : Constant

def Setting.setting (setting : Setting) : OptionSetting :=
  ⟨(setting.first :: setting.rest).map Step.part, setting.value.kept, .none⟩

def Setting.lexemes (setting : Setting) : List Lexeme :=
  setting.first.lexemes ++ (setting.rest.flatMap fun x => .mark '.' :: x.lexemes) ++
    .mark '=' :: setting.value.lexemes

def bracketed : List Setting → List Lexeme
  | [] => []
  | first :: rest =>
    .mark '[' :: (first.lexemes ++ (rest.flatMap fun x => .mark ',' :: x.lexemes) ++ [.mark ']'])

structure Head where
  name : Identifier
  number : Number
  options : List Setting

def Head.settings (head : Head) : List OptionSetting := head.options.map Setting.setting

def Head.lexemes (head : Head) : List Lexeme :=
  .word head.name.text :: .mark '=' :: (head.number.lexemes ++ bracketed head.options)

theorem Head.lexemes_append (head : Head) (behind : List Lexeme) :
    head.lexemes ++ behind = .word head.name.text :: .mark '=' ::
      (head.number.lexemes ++ (bracketed head.options ++ behind)) := by
  rw [Head.lexemes, List.cons_append, List.cons_append, List.append_assoc]

def optionLexemes (setting : Setting) : List Lexeme :=
  .word "option" :: (setting.lexemes ++ [.mark ';'])

inductive EnumItem where
  | value (head : Head) (free : head.name.text ∉ ["option", "reserved"])
  | option (setting : Setting)

namespace EnumItem

def value? : EnumItem → Option Schema.EnumValue
  | .value head _ => some ⟨head.name.text, head.number.value, head.settings, .none⟩
  | .option _ => none

def option? : EnumItem → Option OptionSetting
  | .value _ _ => none
  | .option setting => some setting.setting

def lexemes : EnumItem → List Lexeme
  | .value head _ => head.lexemes ++ [.mark ';']
  | .option setting => optionLexemes setting

end EnumItem

mutual

inductive Member where
  | field (type : HeldType) (head : Head)
  | group (head : Head) (capital : Phrase.startsWithCapital head.name.text = true)
      (body : List Item)

inductive Choice where
  | member (member : Member)
  | option (setting : Setting)

inductive Item where
  | member (label : Option Label) (member : Member)
  | oneof (name : Identifier) (choices : List Choice)
  | message (name : Identifier) (items : List Item)
  | enum (name : Identifier) (items : List EnumItem)
  | option (setting : Setting)

end

/-- The field that a member stands for. A group is a field with a lower-cased name, and the
message of the group is its type. -/
def Member.asField (label : Option Label) (oneof : Option Nat) : Member → Schema.Field
  | .field type head =>
    ⟨head.name.text, head.number.value, label, type.fieldType, oneof, head.settings, .none, .none⟩
  | .group head _ _ =>
    ⟨head.name.text.map Char.toLower, head.number.value, label,
      .single (.simple head.name.text), oneof, head.settings, .none, .none⟩

namespace Choice

def field? (index : Nat) : Choice → Option Schema.Field
  | .member m => some (m.asField none (some index))
  | .option _ => none

def option? : Choice → Option OptionSetting
  | .member _ => none
  | .option setting => some setting.setting

end Choice

namespace Item

def fields (index : Nat) : Item → List Schema.Field
  | .member label m => [m.asField label none]
  | .oneof _ choices => choices.filterMap (Choice.field? index)
  | _ => []

def oneofs : Item → List Schema.Oneof
  | .oneof name choices => [⟨name.text, choices.filterMap Choice.option?, .none⟩]
  | _ => []

def enums : Item → List Schema.Enum
  | .enum name items =>
    [⟨name.text, items.filterMap EnumItem.value?, items.filterMap EnumItem.option?, .none⟩]
  | _ => []

def options : Item → List OptionSetting
  | .option setting => [setting.setting]
  | _ => []

end Item

/-- The fields of the items in their order. A member of a oneof has the number of oneofs that
stand before its own. -/
def fieldsFrom (index : Nat) : List Item → List Schema.Field
  | [] => []
  | item :: rest => item.fields index ++ fieldsFrom (index + item.oneofs.length) rest

def assembled (name : Identifier) (items : List Item) (messages : List Schema.Message) :
    Schema.Message :=
  ⟨name.text, fieldsFrom 0 items, items.flatMap Item.oneofs, messages,
    items.flatMap Item.enums, [], items.flatMap Item.options, .none⟩

mutual

def Member.messages : Member → List Schema.Message
  | .field _ _ => []
  | .group head _ body => [assembled head.name body (itemsMessages body)]

def Choice.messages : Choice → List Schema.Message
  | .member m => m.messages
  | .option _ => []

def Item.messages : Item → List Schema.Message
  | .member _ m => m.messages
  | .oneof _ choices => choicesMessages choices
  | .message name items => [assembled name items (itemsMessages items)]
  | .enum _ _ => []
  | .option _ => []

def itemsMessages : List Item → List Schema.Message
  | [] => []
  | item :: rest => item.messages ++ itemsMessages rest

def choicesMessages : List Choice → List Schema.Message
  | [] => []
  | choice :: rest => choice.messages ++ choicesMessages rest

end

def message (name : Identifier) (items : List Item) : Schema.Message :=
  assembled name items (itemsMessages items)

def braced (inside : List Lexeme) : List Lexeme := .mark '\x7b' :: (inside ++ [.mark '\x7d'])

def labelLexemes : Option Label → List Lexeme
  | none => []
  | some label => [.word label.text]

mutual

def Member.lexemes : Member → List Lexeme
  | .field type head => type.lexemes ++ head.lexemes ++ [.mark ';']
  | .group head _ body => .word "group" :: (head.lexemes ++ braced (itemsLexemes body))

def Choice.lexemes : Choice → List Lexeme
  | .member m => m.lexemes
  | .option setting => optionLexemes setting

def Item.lexemes : Item → List Lexeme
  | .member label m => labelLexemes label ++ m.lexemes
  | .oneof name choices => .word "oneof" :: .word name.text :: braced (choicesLexemes choices)
  | .message name items => .word "message" :: .word name.text :: braced (itemsLexemes items)
  | .enum name items =>
    .word "enum" :: .word name.text :: braced (items.flatMap EnumItem.lexemes)
  | .option setting => optionLexemes setting

def itemsLexemes : List Item → List Lexeme
  | [] => []
  | item :: rest => item.lexemes ++ itemsLexemes rest

def choicesLexemes : List Choice → List Lexeme
  | [] => []
  | choice :: rest => choice.lexemes ++ choicesLexemes rest

end

/-- Also a sign and the dots of a name stand apart. -/
example : Lexeme.text (Item.message ⟨"M", by decide⟩
    [.member (some .optional) (.field
      (.single ⟨true, ⟨"a", by decide⟩, [⟨"T", by decide⟩]⟩ (by simp))
      ⟨⟨"x", by decide⟩, ⟨-1, by decide⟩, []⟩)]).lexemes =
    "message M \x7b optional . a . T x = - 1 ; \x7d" := by
  rfl

theorem itemsLexemes_eq (items : List Item) : itemsLexemes items = items.flatMap Item.lexemes := by
  induction items with
  | nil => rfl
  | cons item rest ih => rw [itemsLexemes, ih, List.flatMap_cons]

theorem choicesLexemes_eq (choices : List Choice) :
    choicesLexemes choices = choices.flatMap Choice.lexemes := by
  induction choices with
  | nil => rfl
  | cons choice rest ih => rw [choicesLexemes, ih, List.flatMap_cons]

section Readable

open Lexeme (AllReadable)

@[simp] theorem Identifier.readable (x : Identifier) : (Lexeme.word x.text).Readable := x.isWord

theorem readable_keyword {word : String} (h : Scanned.isWord word = true) :
    (Lexeme.word word).Readable :=
  Scanned.isWord_iff.mp h

@[simp] theorem Name.readable (name : Name) : AllReadable name.lexemes := by
  simp [Name.lexemes, Scanned.marks]

@[simp] theorem Reference.readable (type : Reference) : AllReadable type.lexemes := by
  unfold Reference.lexemes
  split <;> simp [Scanned.marks]

theorem HeldType.readable (type : HeldType) : AllReadable type.lexemes := by
  cases type with
  | single type free => exact type.readable
  | map key value =>
    have hword : (Lexeme.word "map").Readable := readable_keyword (by decide)
    simp [HeldType.lexemes, Scanned.marks, hword]

theorem Number.readable (number : Number) : AllReadable number.lexemes := by
  have hsize : number.value.natAbs < UInt64.size :=
    Nat.lt_of_le_of_lt number.within (by decide)
  have hnumeral : (Lexeme.integer (toString number.value.natAbs)).Readable :=
    (Numeral.spells_toString _).isNumeral hsize
  unfold Number.lexemes
  split <;> simpa [Scanned.marks] using hnumeral

@[simp] theorem Bare.readable (value : Bare) : value.lexeme.Readable := by
  cases value with
  | word name => exact name.readable
  | integer written h => exact h
  | decimal written h => exact h

theorem Constant.readable (value : Constant) : AllReadable value.lexemes := by
  cases value with
  | text value => simp [Constant.lexemes, Lexeme.Readable]
  | bare value => simp [Constant.lexemes]
  | signed negative value => cases negative <;> simp [Constant.lexemes, signOf, Scanned.marks]
  | aggregate inside readable balanced => simp [Constant.lexemes, Scanned.marks, readable]

@[simp] theorem Step.readable (step : Step) : AllReadable step.lexemes := by
  cases step with
  | field name => simp [Step.lexemes]
  | extension type => simp [Step.lexemes, Scanned.marks]

@[simp] theorem Setting.readable (setting : Setting) : AllReadable setting.lexemes := by
  simp [Setting.lexemes, Scanned.marks, setting.value.readable]

theorem readable_bracketed (options : List Setting) : AllReadable (bracketed options) := by
  cases options with
  | nil => exact Lexeme.allReadable_nil
  | cons first rest => simp [bracketed, Scanned.marks]

theorem Head.readable (head : Head) : AllReadable head.lexemes := by
  simp [Head.lexemes, Scanned.marks, head.number.readable, readable_bracketed]

theorem readable_optionLexemes (setting : Setting) : AllReadable (optionLexemes setting) := by
  have hword : (Lexeme.word "option").Readable := readable_keyword (by decide)
  simp [optionLexemes, Scanned.marks, hword]

theorem EnumItem.readable (item : EnumItem) : AllReadable item.lexemes := by
  cases item with
  | value head free => simp [EnumItem.lexemes, Scanned.marks, head.readable]
  | option setting => exact readable_optionLexemes setting

theorem readable_braced {inside : List Lexeme} (h : AllReadable inside) :
    AllReadable (braced inside) := by
  simp [braced, Scanned.marks, h]

/-- A block behind a keyword and a name. -/
theorem readable_block {word : String} (hword : Scanned.isWord word = true) (name : Identifier)
    {inside : List Lexeme} (h : AllReadable inside) :
    AllReadable (.word word :: .word name.text :: braced inside) :=
  Lexeme.allReadable_cons.mpr ⟨readable_keyword hword,
    Lexeme.allReadable_cons.mpr ⟨name.readable, readable_braced h⟩⟩

theorem readable_labelLexemes (label : Option Label) : AllReadable (labelLexemes label) := by
  cases label with
  | none => exact Lexeme.allReadable_nil
  | some label =>
    have hword : (Lexeme.word label.text).Readable :=
      readable_keyword (by cases label <;> decide)
    simp [labelLexemes, hword]

mutual

theorem Member.readable (m : Member) : AllReadable m.lexemes := by
  cases m with
  | field type head => simp [Member.lexemes, Scanned.marks, type.readable, head.readable]
  | group head capital body =>
    have hword : (Lexeme.word "group").Readable := readable_keyword (by decide)
    have hbody := readable_braced (readable_itemsLexemes body)
    simp [Member.lexemes, hword, head.readable, hbody]

theorem Choice.readable (choice : Choice) : AllReadable choice.lexemes := by
  cases choice with
  | member m => exact m.readable
  | option setting => exact readable_optionLexemes setting

theorem Item.readable (item : Item) : AllReadable item.lexemes := by
  cases item with
  | member label m =>
    exact Lexeme.allReadable_append.mpr ⟨readable_labelLexemes label, m.readable⟩
  | oneof name choices => exact readable_block (by decide) name (readable_choicesLexemes choices)
  | message name items => exact readable_block (by decide) name (readable_itemsLexemes items)
  | enum name items =>
    have hitems : AllReadable (items.flatMap EnumItem.lexemes) := by
      simp [EnumItem.readable]
    exact readable_block (by decide) name hitems
  | option setting => exact readable_optionLexemes setting

theorem readable_itemsLexemes (items : List Item) : AllReadable (itemsLexemes items) := by
  cases items with
  | nil => exact Lexeme.allReadable_nil
  | cons item rest =>
    exact Lexeme.allReadable_append.mpr ⟨item.readable, readable_itemsLexemes rest⟩

theorem readable_choicesLexemes (choices : List Choice) :
    AllReadable (choicesLexemes choices) := by
  cases choices with
  | nil => exact Lexeme.allReadable_nil
  | cons choice rest =>
    exact Lexeme.allReadable_append.mpr ⟨choice.readable, readable_choicesLexemes rest⟩

end

end Readable

end Written

end ProtoSchema
