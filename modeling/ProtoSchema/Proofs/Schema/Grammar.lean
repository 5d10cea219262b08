import ProtoSchema.Proofs.Schema.Files
import ProtoSchema.Proofs.Schema.Pieces

/-!
The statements of a file that was read. Each statement of a file, of a message, of a oneof or of
an extend block is a step that says which tokens it has and what it adds. Bodies of messages
stand in the tokens between their braces, to any depth. A file that was read is made of its
tokens in such steps.
-/

namespace ProtoSchema

open Schema
open Phrase (emptyMessage startsWithCapital addOneofOption)

inductive LabelTokens : List Token → Prop
  | none : LabelTokens []
  | some (label : Label) (position : Position) : LabelTokens [⟨.word label.text, position⟩]

/-- The tokens are a group with the name at the place; its body stands between its braces. -/
inductive GroupTokens (name : String) (position : Position) (inner : List Token) :
    List Token → Prop
  | intro {label middle block : List Token} (start equals : Position) (hlabel : LabelTokens label)
      (hblock : Braces inner block) :
      GroupTokens name position inner (label ++ ⟨.word "group", start⟩ ::
        ⟨.word name, position⟩ :: ⟨.mark '=', equals⟩ :: (middle ++ block))

inductive NumberTokens (name : String) (position : Position) (negative : Bool) (literal : Token) :
    List Token → Prop
  | intro {front sign back : List Token} (equals : Position)
      (hfront : ∀ token ∈ front, token.lexeme.IsInert) (hsign : Sign negative sign) :
      NumberTokens name position negative literal
        (front ++ ⟨.word name, position⟩ :: ⟨.mark '=', equals⟩ :: (sign ++ literal :: back))

def NumberedAs (name : String) (position : Position) (x : Int) (tokens : List Token) : Prop :=
  ∃ negative literal, NumberTokens name position negative literal tokens ∧
    Amounts literal.lexeme negative x

abbrev BodyRelation := List Token → Message → Message → Prop

inductive FieldTokens (B : BodyRelation) (oneof : Option Nat) :
    List Token → Field → List Message → Prop
  | plain {piece : List Token} {field : Field} (hpiece : Plain piece)
      (hnumber : NumberedAs field.name field.position field.number piece)
      (honeof : field.oneof = oneof) :
      FieldTokens B oneof piece field []
  | group {piece inner : List Token} {field : Field} {body : Message} {name : String}
      {position : Position} (hpiece : GroupTokens name position inner piece)
      (hnumber : NumberedAs name position field.number piece)
      (hcapital : startsWithCapital name = true) (hbody : B inner (emptyMessage name position) body)
      (hname : field.name = name.map Char.toLower) (htype : field.type = .single (.simple name))
      (honeof : field.oneof = oneof) (hposition : field.position = position) :
      FieldTokens B oneof piece field [body]

inductive OneofStep (B : BodyRelation) (index : Nat) : List Token → Message → Message → Prop
  | skipped {piece : List Token} {message : Message} (hpiece : Aside [] piece) :
      OneofStep B index piece message message
  | option {piece : List Token} {message : Message} (option : OptionSetting)
      (hpiece : Aside ["option"] piece) :
      OneofStep B index piece message (addOneofOption index option message)
  | field {piece : List Token} {message : Message} {field : Field} {groups : List Message}
      (hfield : FieldTokens B (some index) piece field groups) :
      OneofStep B index piece message
        { message with fields := message.fields ++ [field], messages := message.messages ++ groups }

inductive ExtendStep (B : BodyRelation) : List Token → Extend → Extend → Prop
  | skipped {piece : List Token} {block : Extend} (hpiece : Aside [] piece) :
      ExtendStep B piece block block
  | field {piece : List Token} {block : Extend} {field : Field} {groups : List Message}
      (hfield : FieldTokens B none piece field groups) :
      ExtendStep B piece block
        { block with fields := block.fields ++ [field], groups := block.groups ++ groups }

inductive NamedBlock (word name : String) (position : Position) (inner : List Token) :
    List Token → Prop
  | intro {block : List Token} (start : Position) (hblock : Braces inner block) :
      NamedBlock word name position inner
        (⟨.word word, start⟩ :: ⟨.word name, position⟩ :: block)

inductive ExtendTokens (inner : List Token) : List Token → Prop
  | intro {extendee block : List Token} (start : Position) (hextendee : Inert extendee)
      (hblock : Braces inner block) :
      ExtendTokens inner (⟨.word "extend", start⟩ :: (extendee ++ block))

inductive ExtendRead (B : BodyRelation) (piece : List Token) (block : Extend) : Prop
  | intro {inner : List Token} {extendee : TypeName} {position : Position}
      (hpiece : ExtendTokens inner piece)
      (hsteps : Steps (ExtendStep B) inner ⟨extendee, [], [], position⟩ block)

inductive EnumStep : List Token → Enum → Enum → Prop
  | skipped {piece : List Token} {enum : Enum} (hpiece : Aside ["reserved"] piece) :
      EnumStep piece enum enum
  | option {piece : List Token} {enum : Enum} (option : OptionSetting)
      (hpiece : Aside ["option"] piece) :
      EnumStep piece enum { enum with options := enum.options ++ [option] }
  | value {piece : List Token} {enum : Enum} {value : EnumValue} (hpiece : Plain piece)
      (hnumber : NumberedAs value.name value.position value.number piece) :
      EnumStep piece enum { enum with values := enum.values ++ [value] }

inductive EnumRead (piece : List Token) (enum : Enum) : Prop
  | intro {inner : List Token}
      (hpiece : NamedBlock "enum" enum.name enum.position inner piece)
      (hsteps : Steps EnumStep inner ⟨enum.name, [], [], enum.position⟩ enum)

inductive MessageStep (B : BodyRelation) : List Token → Message → Message → Prop
  | skipped {piece : List Token} {message : Message}
      (hpiece : Aside ["reserved", "extensions"] piece) : MessageStep B piece message message
  | option {piece : List Token} {message : Message} (option : OptionSetting)
      (hpiece : Aside ["option"] piece) :
      MessageStep B piece message { message with options := message.options ++ [option] }
  | field {piece : List Token} {message : Message} {field : Field} {groups : List Message}
      (hfield : FieldTokens B none piece field groups) :
      MessageStep B piece message
        { message with fields := message.fields ++ [field], messages := message.messages ++ groups }
  | message {piece inner : List Token} {message body : Message} {name : String}
      {position : Position} (hpiece : NamedBlock "message" name position inner piece)
      (hbody : B inner (emptyMessage name position) body) :
      MessageStep B piece message { message with messages := message.messages ++ [body] }
  | enum {piece : List Token} {message : Message} {enum : Enum} (henum : EnumRead piece enum) :
      MessageStep B piece message { message with enums := message.enums ++ [enum] }
  | extend {piece : List Token} {message : Message} {block : Extend}
      (hblock : ExtendRead B piece block) :
      MessageStep B piece message { message with extendBlocks := message.extendBlocks ++ [block] }
  | oneof {piece inner : List Token} {message next : Message} {name : String}
      {position : Position} (hpiece : NamedBlock "oneof" name position inner piece)
      (hsteps : Steps (OneofStep B message.oneofs.length) inner
        { message with oneofs := message.oneofs ++ [⟨name, [], position⟩] } next) :
      MessageStep B piece message next

def BodyTokens : Nat → BodyRelation
  | 0 => fun _ _ _ => False
  | depth + 1 => Steps (MessageStep (BodyTokens depth))

inductive FileStep (B : BodyRelation) : List Token → File → File → Prop
  | plain {piece : List Token} {file : File} (dialect : Dialect) (imports : List Import)
      (options : List OptionSetting) (hpiece : Plain piece) :
      FileStep B piece file { file with dialect, imports, options }
  | package {piece : List Token} {file : File} {name : DottedName} (hpiece : Plain piece)
      (hwords : ∀ part ∈ name, ∃ position, ⟨.word part, position⟩ ∈ piece) :
      FileStep B piece file { file with package := some name }
  | message {piece inner : List Token} {file : File} {body : Message} {name : String}
      {position : Position} (hpiece : NamedBlock "message" name position inner piece)
      (hbody : B inner (emptyMessage name position) body) :
      FileStep B piece file { file with messages := file.messages ++ [body] }
  | enum {piece : List Token} {file : File} {enum : Enum} (henum : EnumRead piece enum) :
      FileStep B piece file { file with enums := file.enums ++ [enum] }
  | service {piece inner : List Token} {file : File} {service : Service}
      (hpiece : NamedBlock "service" service.name service.position inner piece) :
      FileStep B piece file { file with services := file.services ++ [service] }
  | extend {piece : List Token} {file : File} {block : Extend}
      (hblock : ExtendRead B piece block) :
      FileStep B piece file { file with extendBlocks := file.extendBlocks ++ [block] }

section Shapes

variable {inner tokens more : List Token} {name word : String} {position : Position}
  {B : BodyRelation} {oneof : Option Nat} {field : Field} {groups : List Message}

theorem LabelTokens.lexemes (h : LabelTokens tokens) : ∀ token ∈ tokens, token.lexeme.IsInert := by
  cases h with
  | none => exact List.forall_mem_nil _
  | some label position => exact List.forall_mem_singleton.mpr (Lexeme.isInert_word _)

theorem LabelTokens.toPiece (h : LabelTokens tokens) : Piece false false tokens := by
  cases h with
  | none => exact .nil
  | some label position => exact .inert (Lexeme.isInert_word _) .nil

theorem NumberTokens.mem {negative : Bool} {literal : Token}
    (h : NumberTokens name position negative literal tokens) :
    ⟨.word name, position⟩ ∈ tokens := by
  obtain ⟨equals, _, _⟩ := h
  simp

theorem NumberedAs.mem {x : Int} (h : NumberedAs name position x tokens) :
    ⟨.word name, position⟩ ∈ tokens := by
  obtain ⟨negative, literal, htokens, _⟩ := h
  exact htokens.mem

/-- An integer behind the equals sign of a name. -/
theorem IntegerTokens.numberedAs {x : Int} {front integer : List Token}
    (h : IntegerTokens x integer) (hfront : ∀ token ∈ front, token.lexeme.IsInert)
    (equals : Position) (back : List Token) : NumberedAs name position x
      (front ++ ⟨.word name, position⟩ :: ⟨.mark '=', equals⟩ :: (integer ++ back)) := by
  obtain @⟨negative, sign, literal, hsign, hamounts⟩ := h
  refine ⟨negative, literal, ?_, hamounts⟩
  rw [List.append_assoc, List.singleton_append]
  exact .intro equals hfront hsign

theorem plain_semicolon (position : Position) : Plain [⟨.mark ';', position⟩] :=
  Phrase.plain_of_piece .nil position

theorem aside_semicolon (words : List String) (position : Position) :
    Aside words [⟨.mark ';', position⟩] :=
  ⟨plain_semicolon position, .inl rfl⟩

theorem NamedBlock.statement (h : NamedBlock word name position inner tokens) :
    Statement false tokens := by
  obtain ⟨start, hblock⟩ := h
  have hfront : Piece false false [(⟨.word word, start⟩ : Token), ⟨.word name, position⟩] :=
    .inert (Lexeme.isInert_word _) (.inert (Lexeme.isInert_word _) .nil)
  exact hfront _ (.block hblock)

theorem EnumRead.statement {enum : Enum} (h : EnumRead tokens enum) : Statement false tokens := by
  obtain ⟨hpiece, _⟩ := h
  exact hpiece.statement

theorem NamedBlock.isInfix (h : NamedBlock word name position inner tokens) :
    inner <:+: tokens := by
  obtain ⟨start, hblock⟩ := h
  exact hblock.isInfix.trans
    (List.suffix_append [(⟨.word word, start⟩ : Token), ⟨.word name, position⟩] _).isInfix

theorem NamedBlock.mem (h : NamedBlock word name position inner tokens) :
    ⟨.word name, position⟩ ∈ tokens := by
  obtain ⟨start, _⟩ := h
  simp

theorem EnumRead.mem {enum : Enum} (h : EnumRead tokens enum) :
    ⟨.word enum.name, enum.position⟩ ∈ tokens := by
  obtain ⟨hpiece, _⟩ := h
  exact hpiece.mem

theorem GroupTokens.isInfix (h : GroupTokens name position inner tokens) : inner <:+: tokens := by
  cases h with
  | @intro label middle block start equals hlabel hblock =>
    refine hblock.isInfix.trans ⟨label ++ ⟨.word "group", start⟩ :: ⟨.word name, position⟩ ::
      ⟨.mark '=', equals⟩ :: middle, [], ?_⟩
    simp

theorem GroupTokens.mem (h : GroupTokens name position inner tokens) :
    ⟨.word name, position⟩ ∈ tokens := by
  obtain ⟨start, equals, _, _⟩ := h
  simp

theorem ExtendTokens.isInfix (h : ExtendTokens inner tokens) : inner <:+: tokens := by
  obtain ⟨start, _, hblock⟩ := h
  refine hblock.isInfix.trans (List.IsSuffix.isInfix ?_)
  exact (List.suffix_append _ _).trans (List.suffix_cons _ _)

theorem ExtendTokens.statement (h : ExtendTokens inner tokens) : Statement false tokens := by
  cases h with
  | @intro extendee block start hextendee hblock =>
    have hfront : Piece false false (⟨.word "extend", start⟩ :: extendee) :=
      .inert (Lexeme.isInert_word _) hextendee.piece
    exact hfront _ (.block hblock)

/-- The statements of an enum keep its name. -/
theorem Steps.enum_keeps {start enum : Enum}
    (h : Steps EnumStep tokens start enum) :
    enum.name = start.name ∧ enum.position = start.position :=
  h.keeps (P := fun s => s.name = start.name ∧ s.position = start.position)
    (fun _ s next hs hstep => by cases hstep <;> exact hs) ⟨rfl, rfl⟩

end Shapes

namespace Phrase

variable {B : BodyRelation} {body : BodyReader} {label : Option Label} {oneof : Option Nat}

theorem reads_failAt_bind {α β : Type} {Q : List Token → β → Prop} (position : Position)
    (fault : SyntaxFault) {f : α → Phrase β} : Reads Q (failAt position fault >>= f) :=
  fun _ => .error (List.suffix_refl _)

def BodyReader.Takes (body : BodyReader) (B : BodyRelation) : Prop :=
  ∀ kind parent, Reads (fun taken message => ∃ inner, Braces inner taken ∧ B inner parent message)
    (body kind parent)

theorem reads_fieldType : Reads (fun taken _ => Inert taken) fieldType := by
  intro t
  rw [fieldType, on_look_bind, on_look_bind]
  split
  · next hmap =>
    obtain ⟨hword, hmark⟩ := hmap
    refine .skip_two_bind hword hmark (reads_typeName.bind fun key => .mark_bind ?_)
    refine reads_typeName.bind fun value => .mark_bind (.pure ?_)
    intro close taken htaken comma first hfirst opening start
    have hvalue : Inert (taken ++ [⟨.mark '>', close⟩]) :=
      htaken.append (.singleton (by simp [Lexeme.IsInert, Lexeme.IsPlain]))
    have hpair : Inert (first ++ ⟨.mark ',', comma⟩ :: (taken ++ [⟨.mark '>', close⟩])) :=
      hfirst.append (.cons (by simp [Lexeme.IsInert, Lexeme.IsPlain]) hvalue)
    exact .cons (Lexeme.isInert_word _) (.cons (by simp [Lexeme.IsInert, Lexeme.IsPlain]) hpair)
  · exact (reads_typeName.bind_pure fun taken name htaken => htaken) t

theorem reads_plainField : Reads (fun taken field => ∀ front, LabelTokens front →
    FieldTokens B oneof (front ++ taken) field [] ∧ Statement false (front ++ taken))
    (plainField label oneof) := by
  refine .place_bind fun typePosition => reads_fieldType.bind fun type => ?_
  refine .named_bind fun position name => .mark_bind (reads_integer.bind fun number => ?_)
  refine reads_settings.bind fun options => .mark_bind (.pure ?_)
  intro stop opts hopts num hnum equals ty hty _ front hfront
  have hnamed : Piece false false
      (front ++ (ty ++ ⟨.word name, position⟩ :: ⟨.mark '=', equals⟩ :: (num ++ opts))) :=
    hfront.toPiece.append (hty.piece.append (.inert (Lexeme.isInert_word name)
      (.equals (hnum.inert.piece.append hopts))))
  have hplain := plain_of_piece hnamed stop
  have hnumber : NumberedAs name position number _ := hnum.numberedAs
    (List.forall_mem_append.mpr ⟨hfront.lexemes, hty.lexemes⟩) equals (opts ++ [⟨.mark ';', stop⟩])
  simp only [List.append_assoc, List.cons_append] at hplain hnumber ⊢
  exact ⟨.plain hplain hnumber rfl, hplain.statement⟩

theorem reads_group (hbody : body.Takes B) : Reads (fun taken found => ∀ front,
    LabelTokens front → FieldTokens B oneof (front ++ taken) found.1 [found.2] ∧
      Statement false (front ++ taken)) (group body label oneof) := by
  refine .keyword_bind (.named_bind fun position name => .ite (fun hcapital => ?_) fun _ =>
    reads_failAt_bind _ _)
  refine .mark_bind (reads_integer.bind fun number => reads_settings.bind fun options => ?_)
  refine (hbody _ _).bind fun message => .pure ?_
  rintro block ⟨inner, hblock, hmessage⟩ opts hopts num hnum equals start front hfront
  have hnamed : Piece false false (front ++ ⟨.word "group", start⟩ :: ⟨.word name, position⟩ ::
      ⟨.mark '=', equals⟩ :: (num ++ opts)) :=
    hfront.toPiece.append (.inert (Lexeme.isInert_word _) (.inert (Lexeme.isInert_word name)
      (.equals (hnum.inert.piece.append hopts))))
  have hstatement := hnamed _ (.block hblock)
  have hlexemes : ∀ token ∈ front ++ [⟨.word "group", start⟩], token.lexeme.IsInert :=
    List.forall_mem_append.mpr ⟨hfront.lexemes,
      List.forall_mem_singleton.mpr (Lexeme.isInert_word _)⟩
  have hnumber : NumberedAs name position number _ :=
    hnum.numberedAs hlexemes equals (opts ++ block)
  have hpiece : GroupTokens name position inner (front ++ ⟨.word "group", start⟩ ::
      ⟨.word name, position⟩ :: ⟨.mark '=', equals⟩ :: (num ++ opts ++ block)) :=
    .intro start equals hfront hblock
  simp only [List.append_assoc, List.cons_append, List.nil_append, List.append_nil]
    at hnumber hpiece hstatement ⊢
  exact ⟨.group hpiece hnumber hcapital hmessage rfl rfl rfl rfl, hstatement⟩

theorem reads_isGroup : Reads (fun taken _ => taken = []) isGroup := by
  refine .look_bind 0 fun found => .look_bind 2 fun second => .ite (fun _ => ?_) fun _ => ?_
  · exact .look_bind 1 fun first => .pure fun _ _ _ => rfl
  · exact .pure fun _ _ => rfl

theorem reads_unlabelled (hbody : body.Takes B) : Reads (fun taken found => ∀ front,
    LabelTokens front → FieldTokens B oneof (front ++ taken) found.1 found.2 ∧
      Statement false (front ++ taken)) (unlabelled body label oneof) := by
  refine reads_isGroup.bind fun isGroup => .ite (fun _ => ?_) fun _ => ?_
  · refine (reads_group hbody).bind_pure ?_
    rintro taken found hfound _ rfl front hfront
    exact hfound front hfront
  · refine (reads_plainField (B := B)).bind_pure ?_
    rintro taken found hfound _ rfl front hfront
    exact hfound front hfront

theorem reads_field (hbody : body.Takes B) : Reads (fun taken found =>
    FieldTokens B oneof taken found.1 found.2 ∧ Statement false taken) (field body oneof) := by
  intro t
  rw [field, on_bind]
  rcases Bond.on_label? t with ht | ⟨label, ht, hlook⟩
  · rw [ht]
    have hbare : Reads _ (unlabelled body none oneof) := reads_unlabelled hbody
    exact hbare.imp (fun taken found h => h [] .none) t
  · rw [ht]
    cases oneof with
    | none =>
      have hlabelled : Reads _ (unlabelled body (some label) none) := reads_unlabelled hbody
      refine .skip_bind hlook (hlabelled.imp ?_)
      exact fun taken found h position => h _ (.some label position)
    | some index => exact Reads.place_bind (fun position => reads_failAt_bind _ _) t

theorem reads_fieldOf (hbody : body.Takes B) (parent : Message) :
    Reads (fun taken next => Statement false taken ∧ ∃ field groups,
      FieldTokens B oneof taken field groups ∧ next = { parent with
        fields := parent.fields ++ [field], messages := parent.messages ++ groups })
      (fieldOf body oneof parent) := by
  refine (reads_field hbody).bind_pure ?_
  rintro taken found ⟨hfield, hstatement⟩
  exact ⟨hstatement, _, _, hfield, rfl⟩

theorem reads_oneofStatement (hbody : body.Takes B) (index : Nat) (parent : Message) :
    Reads (fun taken next => Statement false taken ∧ OneofStep B index taken parent next)
      (oneofStatement body index parent) := by
  refine .take?_bind (.pure fun position => ?_) (.look_bind 0 fun found => .ite ?_ ?_)
  · exact ⟨(plain_semicolon position).statement, .skipped (aside_semicolon _ position)⟩
  · intro _
    refine reads_optionStatement.bind_pure ?_
    rintro taken option ⟨hplain, hstarts⟩ _
    exact ⟨hplain.statement, .option option (hplain.aside hstarts (by simp))⟩
  · intro _
    refine (reads_fieldOf hbody parent).imp ?_
    rintro taken next ⟨hstatement, field, groups, hfield, rfl⟩ _
    exact ⟨hstatement, .field hfield⟩

theorem reads_oneof (hbody : body.Takes B) (parent : Message) :
    Reads (fun taken next => Statement false taken ∧ MessageStep B taken parent next)
      (Phrase.oneof body parent) := by
  refine .keyword_bind (.named_bind fun position name => ?_)
  refine (reads_block (reads_oneofStatement hbody parent.oneofs.length) _).imp ?_
  rintro taken next ⟨inner, hblock, hsteps⟩ start
  have hpiece : NamedBlock "oneof" name position inner _ := .intro start hblock
  exact ⟨hpiece.statement, .oneof hpiece hsteps⟩

theorem reads_enumValue : Reads (fun taken value => Plain taken ∧
    NumberedAs value.name value.position value.number taken) enumValue := by
  refine .named_bind fun position name => .mark_bind (reads_integer.bind fun number => ?_)
  refine reads_settings.bind fun options => .mark_bind (.pure ?_)
  intro stop opts hopts num hnum equals
  have hfront : Piece false false
      (⟨.word name, position⟩ :: ⟨.mark '=', equals⟩ :: (num ++ opts)) :=
    .inert (Lexeme.isInert_word name) (.equals (hnum.inert.piece.append hopts))
  have hplain := plain_of_piece hfront stop
  rw [List.cons_append, List.cons_append, List.append_assoc] at hplain
  exact ⟨hplain, hnum.numberedAs (List.forall_mem_nil _) equals _⟩

theorem reads_enumStatement (enum : Enum) :
    Reads (fun taken next => Statement false taken ∧ EnumStep taken enum next)
      (enumStatement enum) := by
  refine .take?_bind (.pure fun position => ?_) (.first_bind fun t => ?_)
  · exact ⟨(plain_semicolon position).statement, .skipped (aside_semicolon _ position)⟩
  · split
    · refine (reads_optionStatement.bind_pure ?_) t
      rintro taken option ⟨hplain, hstarts⟩
      exact ⟨hplain.statement, .option option (hplain.aside hstarts (by simp))⟩
    · next hlook =>
      refine (took_skippedStatement hlook).bind_pure ?_
      rintro taken _ ⟨hplain, hstarts⟩
      exact ⟨hplain.statement, .skipped (hplain.aside hstarts (by simp))⟩
    · refine (reads_enumValue.bind_pure ?_) t
      rintro taken value ⟨hplain, hnumber⟩
      exact ⟨hplain.statement, .value hplain hnumber⟩

theorem reads_enum : Reads (fun taken enum => EnumRead taken enum) enum := by
  refine .keyword_bind (.named_bind fun position name => ?_)
  refine (reads_block reads_enumStatement _).imp ?_
  rintro taken enum ⟨inner, hblock, hsteps⟩ start
  obtain ⟨rfl, rfl⟩ := hsteps.enum_keeps
  exact .intro (.intro start hblock) hsteps

theorem reads_extendStatement (hbody : body.Takes B) (block : Extend) :
    Reads (fun taken next => Statement false taken ∧ ExtendStep B taken block next)
      (extendStatement body block) := by
  refine .take?_bind (.pure fun position => ?_) ((reads_field hbody).bind_pure ?_)
  · exact ⟨(plain_semicolon position).statement, .skipped (aside_semicolon _ position)⟩
  · rintro taken found ⟨hfield, hstatement⟩
    exact ⟨hstatement, .field hfield⟩

theorem reads_extend (hbody : body.Takes B) :
    Reads (fun taken block => Statement false taken ∧ ExtendRead B taken block)
      (Phrase.extend body) := by
  refine .keyword_bind (.place_bind fun position => reads_typeName.bind fun extendee => ?_)
  refine (reads_block (reads_extendStatement hbody) _).imp ?_
  rintro taken block ⟨inner, hblock, hsteps⟩ name hname _ start
  have hpiece := ExtendTokens.intro start hname hblock
  exact ⟨hpiece.statement, .intro hpiece hsteps⟩

theorem reads_message (hbody : body.Takes B) : Reads (fun taken message =>
    ∃ name position inner, NamedBlock "message" name position inner taken ∧
      B inner (emptyMessage name position) message) (Phrase.message body) := by
  refine .keyword_bind (.named_bind fun position name => (hbody _ _).imp ?_)
  rintro taken message ⟨inner, hblock, hmessage⟩ start
  exact ⟨name, position, inner, .intro start hblock, hmessage⟩

theorem reads_messageStatement (hbody : body.Takes B) (parent : Message) :
    Reads (fun taken next => Statement false taken ∧ MessageStep B taken parent next)
      (messageStatement body parent) := by
  refine .take?_bind (.pure fun position => ?_) (.first_bind fun t => ?_)
  · exact ⟨(plain_semicolon position).statement, .skipped (aside_semicolon _ position)⟩
  rw [Bond.on_startsField_bind]
  generalize decide (t.lexeme? 1 = some (.mark '.') ∨ t.lexeme? 2 = some (.mark '=')) = starts
  have hskipped {word : String} (hlook : t.lexeme? 0 = some (.word word))
      (hword : word ∈ ["reserved", "extensions"]) :
      Took t (fun taken next => Statement false taken ∧ MessageStep B taken parent next)
        ((skippedStatement >>= fun _ => pure parent).on t) := by
    refine (took_skippedStatement hlook).bind_pure ?_
    rintro taken _ ⟨hplain, hstarts⟩
    exact ⟨hplain.statement, .skipped (hplain.aside hstarts hword)⟩
  split
  · refine ((reads_message hbody).bind_pure ?_) t
    rintro taken found ⟨name, position, inner, hpiece, hmessage⟩
    exact ⟨hpiece.statement, .message hpiece hmessage⟩
  · exact (reads_enum.bind_pure fun taken found henum => ⟨henum.statement, .enum henum⟩) t
  · refine ((reads_extend hbody).bind_pure ?_) t
    rintro taken found ⟨hstatement, hblock⟩
    exact ⟨hstatement, .extend hblock⟩
  · exact reads_oneof hbody parent t
  · refine (reads_optionStatement.bind_pure ?_) t
    rintro taken option ⟨hplain, hstarts⟩
    exact ⟨hplain.statement, .option option (hplain.aside hstarts (by simp))⟩
  · next hlook => exact hskipped hlook (by simp)
  · next hlook => exact hskipped hlook (by simp)
  · refine ((reads_fieldOf hbody parent).imp ?_) t
    rintro taken next ⟨hstatement, field, groups, hfield, rfl⟩
    exact ⟨hstatement, .field hfield⟩

theorem takes_bodyWithin (depth : Nat) : (bodyWithin depth).Takes (BodyTokens depth) := by
  induction depth with
  | zero => exact fun kind parent => .place_bind fun position => .failAt position _
  | succ depth ih => exact fun kind parent => reads_block (reads_messageStatement ih) parent

theorem reads_streamedType : Reads (fun taken _ => Inert taken) streamedType := by
  have htyped (streams : Bool) : Reads (fun taken _ => Inert taken) (do
      let position ← place
      let name ← typeName
      mark ')'
      return (streams, name, position)) := by
    refine .place_bind fun position => reads_typeName.bind fun name => .mark_bind (.pure ?_)
    intro close taken htaken _
    exact htaken.append (.singleton (by simp [Lexeme.IsInert, Lexeme.IsPlain]))
  refine .mark_bind (.look_bind 1 fun next => .first_bind fun t => ?_)
  have hopening {taken : List Token} (htaken : Inert taken) (opening : Position) :
      Inert (⟨.mark '(', opening⟩ :: taken) :=
    .cons (by simp [Lexeme.IsInert, Lexeme.IsPlain]) htaken
  by_cases hstreams : t.lexeme? 0 = some (.word "stream") ∧ next ≠ some (.mark ')') ∧
      next ≠ some (.mark '.')
  · rw [decide_eq_true hstreams]
    refine .skip_bind hstreams.1 ((htyped true).imp fun taken _ htaken start _ opening => ?_)
    exact hopening (.cons (Lexeme.isInert_word _) htaken) opening
  · rw [decide_eq_false hstreams]
    refine (htyped false t).imp ?_
    exact fun taken _ htaken _ opening => hopening htaken opening

theorem reads_methodStatement (options : List OptionSetting) :
    Reads (fun taken _ => Statement false taken ∧ True) (methodStatement options) := by
  refine .take?_bind (.pure fun position => ?_) ?_
  · exact ⟨(plain_semicolon position).statement, trivial⟩
  · exact reads_optionStatement.bind_pure fun taken option htaken => ⟨htaken.1.statement, trivial⟩

theorem reads_method : Reads (fun taken _ => Statement false taken) method := by
  refine .keyword_bind (.named_bind fun position name => reads_streamedType.bind fun input => ?_)
  refine .keyword_bind (reads_streamedType.bind fun output => .look_bind 0 fun found => ?_)
  have hfront {output input rest : List Token} (hinput : Inert input) (houtput : Inert output)
      (start returns : Position) (hrest : Statement false rest) :
      Statement false (⟨.word "rpc", start⟩ :: ⟨.word name, position⟩ ::
        (input ++ ⟨.word "returns", returns⟩ :: (output ++ rest))) := by
    have hpiece : Piece false false (⟨.word "rpc", start⟩ :: ⟨.word name, position⟩ ::
        (input ++ ⟨.word "returns", returns⟩ :: output)) :=
      .inert (Lexeme.isInert_word _) (.inert (Lexeme.isInert_word name)
        (hinput.piece.append (.inert (Lexeme.isInert_word _) houtput.piece)))
    have hstatement := hpiece _ hrest
    simpa only [List.append_assoc, List.cons_append] using hstatement
  refine .ite (fun _ => ?_) fun _ => ?_
  · refine (reads_block (R := fun _ _ _ => True) reads_methodStatement _).bind_pure ?_
    rintro block options ⟨inner, hblock, _⟩ _ output houtput returns input hinput start
    exact hfront hinput houtput start returns (.block hblock)
  · refine .mark_bind (.pure fun stop _ output houtput returns input hinput start => ?_)
    exact hfront hinput houtput start returns (.semicolon stop)

theorem reads_serviceStatement (service : Service) :
    Reads (fun taken next => Statement false taken ∧
      next.name = service.name ∧ next.position = service.position) (serviceStatement service) := by
  refine .take?_bind (.pure fun position => ?_) (.first_bind fun t => ?_)
  · exact ⟨(plain_semicolon position).statement, rfl, rfl⟩
  · split
    · exact (reads_optionStatement.bind_pure fun taken option htaken =>
        ⟨htaken.1.statement, rfl, rfl⟩) t
    · exact (reads_method.bind_pure fun taken method htaken => ⟨htaken, rfl, rfl⟩) t
    · exact Reads.expected _ t

theorem reads_service : Reads (fun taken service => ∃ inner,
    NamedBlock "service" service.name service.position inner taken) service := by
  refine .keyword_bind (.named_bind fun position name => ?_)
  refine (reads_block (R := fun _ s next => next.name = s.name ∧ next.position = s.position)
    reads_serviceStatement _).imp ?_
  rintro taken service ⟨inner, hblock, hsteps⟩ start
  have hkeeps : service.name = name ∧ service.position = position :=
    hsteps.keeps (P := fun s => s.name = name ∧ s.position = position)
      (fun _ s next hs hstep => ⟨hstep.1.trans hs.1, hstep.2.trans hs.2⟩) ⟨rfl, rfl⟩
  rw [hkeeps.1, hkeeps.2]
  exact ⟨inner, .intro start hblock⟩

section Files

variable {isFirst : Bool} {file : File} {t : Tape}

theorem took_dialectStatement {word : String} (hlook : t.lexeme? 0 = some (.word word)) :
    Took t (fun taken next => Statement false taken ∧ FileStep B taken file next)
      ((dialectStatement isFirst word file).on t) := by
  cases isFirst with
  | false => exact Reads.place_bind (fun position => reads_failAt_bind _ _) t
  | true =>
    refine .skip_bind hlook (.mark_bind (.place_bind fun position => ?_))
    refine reads_literal.bind fun name => ?_
    split
    · exact .failAt _ _
    · next dialect _ =>
      refine .mark_bind (.pure fun stop taken htaken _ equals start => ?_)
      have hpiece : Piece false false (⟨.word word, start⟩ :: ⟨.mark '=', equals⟩ :: taken) :=
        .inert (Lexeme.isInert_word word) (.equals htaken.piece)
      have hplain := plain_of_piece hpiece stop
      simp only [List.cons_append] at hplain
      exact ⟨hplain.statement, .plain dialect _ _ hplain⟩

theorem reads_packageStatement :
    Reads (fun taken next => Statement false taken ∧ FileStep B taken file next)
      (packageStatement file) := by
  refine .ite (fun _ => .place_bind fun position => reads_failAt_bind _ _) fun _ => ?_
  refine .keyword_bind (reads_dottedName.bind fun name => .mark_bind (.pure ?_))
  rintro stop taken ⟨hinert, hwords⟩ start
  have hpiece : Piece false false (⟨.word "package", start⟩ :: taken) :=
    .inert (Lexeme.isInert_word _) hinert.piece
  have hplain := plain_of_piece hpiece stop
  simp only [List.cons_append] at hplain
  refine ⟨hplain.statement, .package hplain fun part hpart => ?_⟩
  obtain ⟨position, hmem⟩ := hwords part hpart
  exact ⟨position, by simp [hmem]⟩

theorem reads_importKind : Reads (fun taken _ => Piece false false taken) importKind := by
  refine .take?_bind (.pure fun position => .inert (Lexeme.isInert_word _) .nil) ?_
  refine .take?_bind (.pure fun position => .inert (Lexeme.isInert_word _) .nil) (.pure .nil)

theorem reads_importStatement :
    Reads (fun taken next => Statement false taken ∧ FileStep B taken file next)
      (importStatement file) := by
  refine .place_bind fun position => .keyword_bind (reads_importKind.bind fun kind => ?_)
  refine reads_literal.bind fun path => .mark_bind (.pure ?_)
  intro stop path hpath kind hkind start _
  have hpiece : Piece false false (⟨.word "import", start⟩ :: (kind ++ path)) :=
    .inert (Lexeme.isInert_word _) (hkind.append hpath.piece)
  have hplain := plain_of_piece hpiece stop
  simp only [List.cons_append, List.append_assoc] at hplain
  exact ⟨hplain.statement, .plain _ _ _ hplain⟩

theorem reads_fileStatement (hbody : body.Takes B) :
    Reads (fun taken next => Statement false taken ∧ FileStep B taken file next)
      (fileStatement body isFirst file) := by
  refine .take?_bind (.pure fun position => ?_) (.first_bind fun t => ?_)
  · exact ⟨(plain_semicolon position).statement, .plain _ _ _ (plain_semicolon position)⟩
  split
  · next hlook => exact took_dialectStatement hlook
  · next hlook => exact took_dialectStatement hlook
  · exact reads_packageStatement t
  · exact reads_importStatement t
  · exact (reads_optionStatement.bind_pure fun taken option htaken =>
      ⟨htaken.1.statement, .plain _ _ _ htaken.1⟩) t
  · refine ((reads_message hbody).bind_pure ?_) t
    rintro taken found ⟨name, position, inner, hpiece, hmessage⟩
    exact ⟨hpiece.statement, .message hpiece hmessage⟩
  · exact (reads_enum.bind_pure fun taken found henum => ⟨henum.statement, .enum henum⟩) t
  · refine (reads_service.bind_pure ?_) t
    rintro taken found ⟨inner, hpiece⟩
    exact ⟨hpiece.statement, .service hpiece⟩
  · refine ((reads_extend hbody).bind_pure ?_) t
    rintro taken found ⟨hstatement, hblock⟩
    exact ⟨hstatement, .extend hblock⟩
  · exact Reads.expected _ t

/-- Without a new error the statements of a file take all of its tokens. -/
theorem took_fileStatements (hbody : body.Takes B) (isFirst : Bool) (file : File) (t : Tape) :
    t.faults <:+ (fileStatements body isFirst file t).2.faults ∧
      ((fileStatements body isFirst file t).2.faults = t.faults →
        Steps (FileStep B) t.ahead file (fileStatements body isFirst file t).1) := by
  by_cases hahead : t.ahead = []
  · rw [fileStatements_of_nil hahead, hahead]
    exact ⟨List.suffix_refl _, fun _ => .nil file⟩
  · rw [fileStatements_of_ne_nil hahead]
    have hless := length_settled (fileStatement body isFirst) file hahead
    have hstatement : Reads _ (fileStatement body isFirst file) := reads_fileStatement hbody
    obtain ⟨hgrows, hsettled⟩ := took_settled hstatement t
    obtain ⟨hmore, hrest⟩ := took_fileStatements hbody false
      (settled (fileStatement body isFirst) file t).1
      (settled (fileStatement body isFirst) file t).2
    refine ⟨hgrows.trans hmore, fun hfaults => ?_⟩
    have hsame : (settled (fileStatement body isFirst) file t).2.faults = t.faults :=
      (hgrows.eq_of_length_le (hfaults ▸ hmore.length_le)).symm
    obtain ⟨piece, hpiece, hfirst, hstep⟩ := hsettled hsame
    rw [hfirst]
    exact .cons hpiece hstep (hrest (hfaults.trans hsame.symm))
termination_by t.ahead.length

end Files

end Phrase

/-- A file that was read is made of the statements of its text. -/
theorem Schema.File.steps_of_read {text : String} {file : File} (h : File.read text = .ok file) :
    ∃ tokens stop, Token.read text = .ok (tokens, stop) ∧
      Steps (FileStep (BodyTokens tokens.length)) tokens .empty file := by
  unfold File.read at h
  cases hread : Token.read text with
  | error e =>
    rw [hread] at h
    cases h
  | ok found =>
    obtain ⟨tokens, stop⟩ := found
    rw [hread] at h
    refine ⟨tokens, stop, rfl, ?_⟩
    have htook := Phrase.took_fileStatements (Phrase.takes_bodyWithin tokens.length) true .empty
      ⟨tokens, stop, []⟩
    simp only [ofTokens] at h
    split at h
    · next hfaults =>
      cases h
      exact htook.2 hfaults
    · cases h

end ProtoSchema
