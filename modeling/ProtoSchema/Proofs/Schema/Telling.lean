import ProtoSchema.Proofs.Schema.Legible

/-!
The names and the errors of a schema, phrase by phrase. Each phrase of the grammar takes over
names from its tokens, and tells its errors by them. So a file that was read has names without
newlines, and a file that was not read has errors of one line each; but the name of a dialect is
told as it was read, and so is a character that is no escape.
-/

namespace ProtoSchema

open Text (OneLine)

namespace Phrase

open Schema

variable {Q : String → Prop}

namespace Tells

section Settings

theorem dottedName : Tells Q (fun name => ∀ part ∈ name, OneLine part) Phrase.dottedName :=
  separated '.' identifier

theorem typeName : Tells Q TypeName.Legible Phrase.typeName :=
  (take? _).bind fun _ _ => dottedName.bind_pure fun _ hname => hname

theorem optionPart : Tells Q Unasked Phrase.optionPart := by
  refine (take? _).bind fun found _ => ?_
  cases found with
  | true => exact typeName.bind fun _ _ => (mark (by decide)).bind_pure fun _ _ => trivial
  | false => exact identifier.bind_pure fun _ _ => trivial

/-- An aggregate that never ends is told without its tokens. -/
theorem aggregate : Tells Q Unasked Phrase.aggregate := by
  have htold : OneLine SyntaxFault.openAggregate.message := by decide
  refine place.bind fun opening _ => (mark (by decide)).bind fun _ _ t ht => ?_
  rw [on_tape_bind]
  cases hrest : aggregateRest 0 t.ahead with
  | some found => exact .ok (ht.goOn (aggregateRest_suffix hrest)) trivial
  | none => exact .failed (ht.goOn List.nil_suffix) (.inl htold)

theorem signed (sign : Char) : Tells Q Unasked (Phrase.signed sign) := by
  refine (skip 1).bind fun _ _ => (look 0).bind fun found _ => ?_
  split
  · exact (skip 1).bind_pure fun _ _ => trivial
  · exact expected (by decide)

theorem constant (hQ : Joins Q) : Tells Q Unasked Phrase.constant := by
  refine (look 0).bind fun found _ => ?_
  split
  · exact (literal hQ).any
  · exact aggregate
  · exact signed '-'
  · exact signed '+'
  · split
    · exact (skip 1).bind_pure fun _ _ => trivial
    · exact expected (by decide)

theorem setting (hQ : Joins Q) : Tells Q Unasked Phrase.setting :=
  place.bind fun _ _ => (separated '.' optionPart).bind fun _ _ =>
    (mark (by decide)).bind fun _ _ => (constant hQ).bind_pure fun _ _ => trivial

theorem settings (hQ : Joins Q) : Tells Q Unasked Phrase.settings := by
  refine (take? _).bind fun found _ => ?_
  cases found with
  | true =>
    exact (separated ',' (setting hQ)).bind fun _ _ =>
      (mark (by decide)).bind_pure fun _ _ => trivial
  | false => exact .pure trivial

theorem optionStatement (hQ : Joins Q) : Tells Q Unasked Phrase.optionStatement :=
  (keyword (by decide)).bind fun _ _ => (setting hQ).bind fun _ _ =>
    (mark (by decide)).bind_pure fun _ _ => trivial

/-- A statement that never ends is told by the token that it starts with. -/
theorem skippedStatement : Tells Q Unasked Phrase.skippedStatement := by
  refine place.bind fun position _ => (look 0).bind fun start hstart =>
    (skip 1).bind fun _ _ t ht => ?_
  rw [on_tape_bind]
  have hsuffix := skippedRest_suffix t.ahead
  generalize skippedRest t.ahead = rest at hsuffix ⊢
  obtain ⟨ended, behind⟩ := rest
  cases ended with
  | true => exact .ok (ht.goOn hsuffix) trivial
  | false => exact .failed (ht.goOn hsuffix) (SyntaxFault.legible_openStatement hstart)

end Settings

section Bodies

def Bodies (Q : String → Prop) (body : BodyReader) : Prop :=
  ∀ name parent, OneLine (Wanted.closing name).described → Message.Legible parent →
    Tells Q Message.Legible (body name parent)

variable {body : BodyReader} {parent : Message}

theorem legible_emptyMessage {name : String} (h : OneLine name) (position : Position) :
    (emptyMessage name position).Legible := by
  refine .intro h ?_ ?_ ?_ ?_ ?_ ?_ ?_ <;> exact List.forall_mem_nil _

theorem label? : Tells Q Unasked Phrase.label? := by
  refine (look 1).bind fun next _ => ?_
  split
  · exact .pure trivial
  · refine (look 0).bind fun found _ => ?_
    split
    · exact .pure trivial
    · exact .pure trivial
    · exact .pure trivial
    · exact .pure trivial

theorem fieldType : Tells Q FieldType.Legible Phrase.fieldType := by
  refine (look 0).bind fun found _ => (look 1).bind fun next _ => ?_
  split
  · exact (skip 2).bind fun _ _ => typeName.bind fun _ hkey => (mark (by decide)).bind fun _ _ =>
      typeName.bind fun _ hvalue => (mark (by decide)).bind_pure fun _ _ => ⟨hkey, hvalue⟩
  · exact typeName.bind_pure fun _ hname => hname

theorem plainField (hQ : Joins Q) (label : Option Label) (oneof : Option Nat) :
    Tells Q Field.Legible (Phrase.plainField label oneof) :=
  place.bind fun _ _ => fieldType.bind fun _ htype => place.bind fun _ _ =>
    identifier.bind fun _ hname => (mark (by decide)).bind fun _ _ => integer.bind fun _ _ =>
      (settings hQ).bind fun _ _ => (mark (by decide)).bind_pure fun _ _ => ⟨hname, htype⟩

theorem group (hQ : Joins Q) (hbody : Bodies Q body) (label : Option Label) (oneof : Option Nat) :
    Tells Q (fun found => found.1.Legible ∧ found.2.Legible) (Phrase.group body label oneof) := by
  refine (keyword (by decide)).bind fun _ _ => place.bind fun position _ =>
    identifier.bind fun name hname => ?_
  split
  · refine (mark (by decide)).bind fun _ _ => integer.bind fun _ _ =>
      (settings hQ).bind fun _ _ => ?_
    exact (hbody _ _ (by decide) (legible_emptyMessage hname position)).bind_pure fun _ hmessage =>
      ⟨⟨Text.oneLine_map_toLower hname, List.forall_mem_singleton.mpr hname⟩, hmessage⟩
  · exact failAt_bind position (.inl (by decide))

theorem isGroup : Tells Q Unasked Phrase.isGroup := by
  refine (look 0).bind fun found _ => (look 2).bind fun second _ => ?_
  split
  · exact (look 1).bind_pure fun _ _ => trivial
  · exact .pure trivial

def LegibleField (found : Field × List Message) : Prop :=
  found.1.Legible ∧ ∀ message ∈ found.2, message.Legible

theorem unlabelled (hQ : Joins Q) (hbody : Bodies Q body) (label : Option Label)
    (oneof : Option Nat) : Tells Q LegibleField (Phrase.unlabelled body label oneof) := by
  refine isGroup.bind fun isGroup _ => ?_
  split
  · exact (group hQ hbody label oneof).bind_pure fun _ hfound =>
      ⟨hfound.1, List.forall_mem_singleton.mpr hfound.2⟩
  · exact (plainField hQ label oneof).bind_pure fun _ hfield => ⟨hfield, List.forall_mem_nil _⟩

theorem field (hQ : Joins Q) (hbody : Bodies Q body) (oneof : Option Nat) :
    Tells Q LegibleField (Phrase.field body oneof) := by
  refine label?.bind fun label _ => ?_
  split
  · split
    · exact place.bind fun position _ => failAt_bind position (.inl (by decide))
    · exact (skip 1).bind fun _ _ => unlabelled hQ hbody label oneof
  · exact unlabelled hQ hbody label oneof

theorem fieldOf (hQ : Joins Q) (hbody : Bodies Q body) (oneof : Option Nat)
    (hparent : parent.Legible) : Tells Q Message.Legible (Phrase.fieldOf body oneof parent) := by
  refine (field hQ hbody oneof).bind_pure fun found hfound => ?_
  cases hparent with
  | intro name fields oneofs messages enums extendees extensions groups =>
    exact .intro name
      (List.forall_mem_append.mpr ⟨fields, List.forall_mem_singleton.mpr hfound.1⟩) oneofs
      (List.forall_mem_append.mpr ⟨messages, hfound.2⟩) enums extendees extensions groups

theorem oneofStatement (hQ : Joins Q) (hbody : Bodies Q body) (index : Nat)
    (hparent : parent.Legible) :
    Tells Q Message.Legible (Phrase.oneofStatement body index parent) := by
  refine (take? _).bind fun found _ => ?_
  cases found with
  | true => exact .pure hparent
  | false =>
    refine (look 0).bind fun found _ => ?_
    split
    · refine (optionStatement hQ).bind_pure fun option _ => ?_
      cases hparent with
      | intro name fields oneofs messages enums extendees extensions groups =>
        refine .intro name fields ?_ messages enums extendees extensions groups
        intro oneof hmem
        obtain ⟨place, hplace⟩ := List.mem_iff_getElem?.mp hmem
        rw [addOneofOption, List.getElem?_modify] at hplace
        obtain ⟨other, hother, rfl⟩ := Option.map_eq_some_iff.mp hplace
        have hname := oneofs other (List.mem_of_getElem? hother)
        split
        · exact hname
        · exact hname
    · exact fieldOf hQ hbody (some index) hparent

theorem oneof (hQ : Joins Q) (hbody : Bodies Q body) (hparent : parent.Legible) :
    Tells Q Message.Legible (Phrase.oneof body parent) := by
  refine (keyword (by decide)).bind fun _ _ => place.bind fun _ _ =>
    identifier.bind fun name hname => ?_
  refine block (fun s hs => oneofStatement hQ hbody _ hs) (by decide) ?_
  cases hparent with
  | intro name fields oneofs messages enums extendees extensions groups =>
    exact .intro name fields
      (List.forall_mem_append.mpr ⟨oneofs, List.forall_mem_singleton.mpr hname⟩) messages enums
      extendees extensions groups

theorem enumValue (hQ : Joins Q) : Tells Q (fun value => OneLine value.name) Phrase.enumValue :=
  place.bind fun _ _ => identifier.bind fun _ hname => (mark (by decide)).bind fun _ _ =>
    integer.bind fun _ _ => (settings hQ).bind fun _ _ =>
      (mark (by decide)).bind_pure fun _ _ => hname

theorem enumStatement (hQ : Joins Q) {enum : Enum} (henum : enum.Legible) :
    Tells Q Enum.Legible (Phrase.enumStatement enum) := by
  refine (take? _).bind fun found _ => ?_
  cases found with
  | true => exact .pure henum
  | false =>
    refine (look 0).bind fun found _ => ?_
    split
    · exact (optionStatement hQ).bind_pure fun _ _ => { henum with }
    · exact skippedStatement.bind_pure fun _ _ => henum
    · exact (enumValue hQ).bind_pure fun _ hvalue => { henum with
        values := List.forall_mem_append.mpr ⟨henum.values, List.forall_mem_singleton.mpr hvalue⟩ }

theorem enum (hQ : Joins Q) : Tells Q Enum.Legible Phrase.enum :=
  (keyword (by decide)).bind fun _ _ => place.bind fun _ _ => identifier.bind fun _ hname =>
    block (fun _ hs => enumStatement hQ hs) (by decide) ⟨hname, List.forall_mem_nil _⟩

theorem extendStatement (hQ : Joins Q) (hbody : Bodies Q body) {extend : Extend}
    (hextend : ExtendBlock.Legible extend) :
    Tells Q ExtendBlock.Legible (Phrase.extendStatement body extend) := by
  refine (take? _).bind fun found _ => ?_
  cases found with
  | true => exact .pure hextend
  | false =>
    exact (field hQ hbody none).bind_pure fun _ hfound => { hextend with
      fields := List.forall_mem_append.mpr
        ⟨hextend.fields, List.forall_mem_singleton.mpr hfound.1⟩
      groups := List.forall_mem_append.mpr ⟨hextend.groups, hfound.2⟩ }

theorem extend (hQ : Joins Q) (hbody : Bodies Q body) :
    Tells Q ExtendBlock.Legible (Phrase.extend body) :=
  (keyword (by decide)).bind fun _ _ => place.bind fun _ _ => typeName.bind fun _ hname =>
    block (fun _ hs => extendStatement hQ hbody hs) (by decide)
      ⟨hname, List.forall_mem_nil _, List.forall_mem_nil _⟩

theorem message (hbody : Bodies Q body) : Tells Q Message.Legible (Phrase.message body) :=
  (keyword (by decide)).bind fun _ _ => place.bind fun position _ => identifier.bind fun _ hname =>
    hbody _ _ (by decide) (legible_emptyMessage hname position)

theorem startsField : Tells Q Unasked Phrase.startsField :=
  (look 1).bind fun _ _ => (look 2).bind_pure fun _ _ => trivial

theorem messageStatement (hQ : Joins Q) (hbody : Bodies Q body) (hparent : parent.Legible) :
    Tells Q Message.Legible (Phrase.messageStatement body parent) := by
  refine (take? _).bind fun found _ => ?_
  cases found with
  | true => exact .pure hparent
  | false =>
    refine (look 0).bind fun found _ => startsField.bind fun starts _ => ?_
    have hwhole := hparent
    cases hparent with
    | intro name fields oneofs messages enums extendees extensions groups =>
    split
    · exact (message hbody).bind_pure fun inner hinner => .intro name fields oneofs
        (List.forall_mem_append.mpr ⟨messages, List.forall_mem_singleton.mpr hinner⟩) enums
        extendees extensions groups
    · exact (enum hQ).bind_pure fun found hfound => .intro name fields oneofs messages
        (List.forall_mem_append.mpr ⟨enums, List.forall_mem_singleton.mpr hfound⟩) extendees
        extensions groups
    · exact (extend hQ hbody).bind_pure fun block hblock => .intro name fields oneofs messages
        enums
        (List.forall_mem_append.mpr ⟨extendees, List.forall_mem_singleton.mpr hblock.extendee⟩)
        (List.forall_mem_append.mpr ⟨extensions, List.forall_mem_singleton.mpr hblock.fields⟩)
        (List.forall_mem_append.mpr ⟨groups, List.forall_mem_singleton.mpr hblock.groups⟩)
    · exact oneof hQ hbody hwhole
    · exact (optionStatement hQ).bind_pure fun _ _ =>
        .intro name fields oneofs messages enums extendees extensions groups
    · exact skippedStatement.bind_pure fun _ _ => hwhole
    · exact skippedStatement.bind_pure fun _ _ => hwhole
    · exact fieldOf hQ hbody none hwhole

/-- Bodies keep the names legible to any depth. -/
theorem bodyWithin (hQ : Joins Q) (depth : Nat) : Bodies Q (Phrase.bodyWithin depth) := by
  induction depth with
  | zero => exact fun _ _ _ _ => place.bind fun position _ => failAt position (.inl (by decide))
  | succ depth ih =>
    exact fun _ _ hname hparent => block (fun _ hs => messageStatement hQ ih hs) hname hparent

end Bodies

section Services

theorem streamedType : Tells Q (fun found => TypeName.Legible found.2.1) Phrase.streamedType := by
  have htyped (streams : Bool) : Tells Q (fun found => TypeName.Legible found.2.1)
      (do
        let position ← Phrase.place
        let name ← Phrase.typeName
        Phrase.mark ')'
        return (streams, name, position)) :=
    place.bind fun _ _ => typeName.bind fun _ hname => (mark (by decide)).bind_pure fun _ _ => hname
  refine (mark (by decide)).bind fun _ _ => (look 1).bind fun next _ =>
    (look 0).bind fun found _ => ?_
  generalize decide (found = some (.word "stream") ∧ next ≠ some (.mark ')') ∧
    next ≠ some (.mark '.')) = streams
  cases streams with
  | true => exact (skip 1).bind fun _ _ => htyped true
  | false => exact htyped false

theorem methodStatement (hQ : Joins Q) (options : List OptionSetting) :
    Tells Q Unasked (Phrase.methodStatement options) := by
  refine (take? _).bind fun found _ => ?_
  cases found with
  | true => exact .pure trivial
  | false => exact (optionStatement hQ).bind_pure fun _ _ => trivial

theorem method (hQ : Joins Q) : Tells Q Method.Legible Phrase.method := by
  refine (keyword (by decide)).bind fun _ _ => place.bind fun position _ =>
    identifier.bind fun name hname => streamedType.bind fun input hinput => ?_
  refine (keyword (by decide)).bind fun _ _ => streamedType.bind fun output houtput => ?_
  refine (look 0).bind fun found _ => ?_
  split
  · exact (block (fun s _ => methodStatement hQ s) (by decide) trivial).bind_pure
      fun _ _ => ⟨hname, hinput, houtput⟩
  · exact (mark (by decide)).bind fun _ _ => (pure (R := Unasked) trivial).bind_pure
      fun _ _ => ⟨hname, hinput, houtput⟩

theorem serviceStatement (hQ : Joins Q) {service : Service} (hservice : service.Legible) :
    Tells Q Service.Legible (Phrase.serviceStatement service) := by
  refine (take? _).bind fun found _ => ?_
  cases found with
  | true => exact .pure hservice
  | false =>
    refine (look 0).bind fun found _ => ?_
    split
    · exact (optionStatement hQ).bind_pure fun _ _ => { hservice with }
    · exact (method hQ).bind_pure fun _ hmethod => { hservice with
        methods := List.forall_mem_append.mpr
          ⟨hservice.methods, List.forall_mem_singleton.mpr hmethod⟩ }
    · exact expected (by decide)

theorem service (hQ : Joins Q) : Tells Q Service.Legible Phrase.service :=
  (keyword (by decide)).bind fun _ _ => place.bind fun _ _ => identifier.bind fun _ hname =>
    block (fun _ hs => serviceStatement hQ hs) (by decide) ⟨hname, List.forall_mem_nil _⟩

end Services

section Files

variable {body : BodyReader} {file : File}

/-- A name that is no dialect is told as it was read. -/
theorem dialectStatement (hQ : Joins Q) (isFirst : Bool) {word : String} (hword : OneLine word)
    (hfile : file.Legible Q) :
    Tells Q (File.Legible Q) (Phrase.dialectStatement isFirst word file) := by
  cases isFirst with
  | false =>
    exact place.bind fun position _ =>
      failAt_bind position (.inl (.append (.append (by decide) hword) (by decide)))
  | true =>
    refine (skip 1).bind fun _ _ => (mark (by decide)).bind fun _ _ =>
      place.bind fun position _ => ?_
    refine (literal hQ).bind fun name hname => ?_
    split
    · exact failAt position (.inr ⟨name, rfl, hname⟩)
    · exact (mark (by decide)).bind_pure fun _ _ => { hfile with }

theorem packageStatement (hfile : file.Legible Q) :
    Tells Q (File.Legible Q) (Phrase.packageStatement file) := by
  have hrest : Tells Q (File.Legible Q)
      (do
        Phrase.keyword "package"
        let name ← Phrase.dottedName
        Phrase.mark ';'
        return { file with package := some name }) :=
    (keyword (by decide)).bind fun _ _ => dottedName.bind fun name hname =>
      (mark (by decide)).bind_pure fun _ _ => { hfile with
        package := by
          rintro _ ⟨⟩
          exact hname }
  unfold Phrase.packageStatement
  split
  · exact place.bind fun position _ => failAt_bind position (.inl (by decide))
  · exact hrest

theorem importKind : Tells Q Unasked Phrase.importKind := by
  refine (take? _).bind fun found _ => ?_
  cases found with
  | true => exact .pure trivial
  | false =>
    refine (take? _).bind fun found _ => ?_
    cases found with
    | true => exact .pure trivial
    | false => exact .pure trivial

theorem importStatement (hQ : Joins Q) (hfile : file.Legible Q) :
    Tells Q (File.Legible Q) (Phrase.importStatement file) :=
  place.bind fun _ _ => (keyword (by decide)).bind fun _ _ => importKind.bind fun _ _ =>
    (literal hQ).bind fun _ hpath => (mark (by decide)).bind_pure fun _ _ => { hfile with
      imports := List.forall_mem_append.mpr ⟨hfile.imports, List.forall_mem_singleton.mpr hpath⟩ }

theorem fileStatement (hQ : Joins Q) (hbody : Bodies Q body) (isFirst : Bool)
    (hfile : file.Legible Q) :
    Tells Q (File.Legible Q) (Phrase.fileStatement body isFirst file) := by
  refine (take? _).bind fun found _ => ?_
  cases found with
  | true => exact .pure hfile
  | false =>
    refine (look 0).bind fun found _ => ?_
    split
    · exact dialectStatement hQ isFirst (by decide) hfile
    · exact dialectStatement hQ isFirst (by decide) hfile
    · exact packageStatement hfile
    · exact importStatement hQ hfile
    · exact (optionStatement hQ).bind_pure fun _ _ => { hfile with }
    · exact (message hbody).bind_pure fun _ hmessage => { hfile with
        messages := List.forall_mem_append.mpr
          ⟨hfile.messages, List.forall_mem_singleton.mpr hmessage⟩ }
    · exact (enum hQ).bind_pure fun _ henum => { hfile with
        enums := List.forall_mem_append.mpr ⟨hfile.enums, List.forall_mem_singleton.mpr henum⟩ }
    · exact (service hQ).bind_pure fun _ hservice => { hfile with
        services := List.forall_mem_append.mpr
          ⟨hfile.services, List.forall_mem_singleton.mpr hservice⟩ }
    · exact (extend hQ hbody).bind_pure fun _ hblock => { hfile with
        extendBlocks := List.forall_mem_append.mpr
          ⟨hfile.extendBlocks, List.forall_mem_singleton.mpr hblock⟩ }
    · exact expected (by decide)

end Files

end Tells

/-- The statements of a file, with the errors put down on the way. -/
theorem legible_fileStatements (hQ : Joins Q) {body : BodyReader} (hbody : Tells.Bodies Q body)
    (isFirst : Bool) {file : File} {t : Tape} (hfile : file.Legible Q) (ht : t.Legible Q) :
    (fileStatements body isFirst file t).1.Legible Q ∧
      (fileStatements body isFirst file t).2.Legible Q := by
  by_cases hahead : t.ahead = []
  · rw [fileStatements_of_nil hahead]
    exact ⟨hfile, ht⟩
  · rw [fileStatements_of_ne_nil hahead]
    have hless := length_settled (fileStatement body isFirst) file hahead
    obtain ⟨hvalue, htape⟩ :=
      settled_of_tells (Tells.fileStatement hQ hbody isFirst hfile) hfile ht
    exact legible_fileStatements hQ hbody false hvalue htape
termination_by t.ahead.length

end Phrase

namespace Schema.File

variable {Q : String → Prop} {text : String}

open Phrase (Joins)

theorem legible_empty : File.empty.Legible Q := by
  refine ⟨⟨?_, ?_, ?_, ?_, ?_⟩, List.forall_mem_nil _⟩
  · rintro _ ⟨⟩
  all_goals exact List.forall_mem_nil _

/-- What a text is read as, where its literals have the property: the names have no newline, and
neither have the errors, but for an escape that is not known and the name of a dialect. -/
theorem legible_of_read (hQ : Joins Q) (hliterals : ∀ tokens stop,
      Token.read text = .ok (tokens, stop) → ∀ token ∈ tokens, ∀ value,
        token.lexeme = .literal value → Q value) :
    (∀ file, File.read text = .ok file → file.Legible Q) ∧
    ∀ errors, File.read text = .error errors → ∀ e ∈ errors, e.fault.Legible Q ∨
      ∃ c, e.fault = .invalidEscape c ∧ ['\\', c] <:+: text.toList := by
  unfold File.read
  cases hread : Token.read text with
  | error e =>
    constructor
    · rintro _ ⟨⟩
    · rintro _ ⟨⟩
      rw [List.forall_mem_singleton]
      exact (Token.fault_of_readFrom hread).imp_left .inl
  | ok found =>
    obtain ⟨tokens, stop⟩ := found
    have htape : Tape.Legible Q ⟨tokens, stop, []⟩ :=
      ⟨Token.legible_of_readFrom hread (hliterals tokens stop hread), List.forall_mem_nil _⟩
    obtain ⟨hfile, hfaults⟩ := Phrase.legible_fileStatements hQ
      (Phrase.Tells.bodyWithin hQ tokens.length) true legible_empty htape
    simp only [ofTokens]
    split
    · constructor
      · rintro _ ⟨⟩
        exact hfile
      · rintro _ ⟨⟩
    · constructor
      · rintro _ ⟨⟩
      · rintro _ ⟨⟩ e he
        exact .inl (hfaults.faults e (List.mem_reverse.mp he))

/-- Nothing that is told of the text shows a newline of it: no newline stands where an escape has
its sign, none is in the name of a dialect that is not known, and none in the path of an import. -/
structure Unbroken (text : String) : Prop where
  escapes : ∀ errors, File.read text = .error errors → ∀ e ∈ errors, e.fault ≠ .invalidEscape '\n'
  dialects : ∀ errors, File.read text = .error errors → ∀ e ∈ errors, ∀ name,
    e.fault = .unknownDialect name → OneLine name
  imports : ∀ file, File.read text = .ok file → ∀ statement ∈ file.imports,
    OneLine statement.path

/-- The words of a file have no newline, whatever its literals are. -/
theorem worded_of_read {file : File} (hread : File.read text = .ok file) : file.Worded OneLine :=
  ((legible_of_read (fun _ _ => trivial) fun _ _ _ _ _ _ _ => trivial).1 file hread :
    file.Legible fun _ => True).toWorded

theorem oneLine_unknownDialect_iff {name : String} :
    OneLine (SyntaxFault.message (.unknownDialect name)) ↔ OneLine name :=
  ⟨fun h => (Text.oneLine_append.mp (Text.oneLine_append.mp h).1).2,
    fun h => .append (.append (by decide) h) (by decide)⟩

theorem oneLine_invalidEscape_iff {c : Char} :
    OneLine (SyntaxFault.message (.invalidEscape c)) ↔ c ≠ '\n' := by
  have hshown : OneLine c.toString ↔ c ≠ '\n' := by
    rw [OneLine, Char.toString_eq_singleton, String.toList_singleton, List.mem_singleton]
    exact ne_comm
  rw [← hshown]
  exact ⟨fun h => (Text.oneLine_append.mp h).2, fun h => .append (by decide) h⟩

/-- Those are all the ways: the other messages have no newline in any case. -/
theorem unbroken_iff : Unbroken text ↔
    (∀ errors, File.read text = .error errors → ∀ e ∈ errors, OneLine e.message) ∧
      ∀ file, File.read text = .ok file → ∀ statement ∈ file.imports, OneLine statement.path := by
  constructor
  · refine fun h => ⟨fun errors hread e he => ?_, h.imports⟩
    have hjoins : Joins fun _ => True := fun _ _ => trivial
    rcases (legible_of_read hjoins fun _ _ _ _ _ _ _ => trivial).2 errors hread e he with
      (hline | ⟨name, hfault, _⟩) | ⟨c, hfault, _⟩
    · exact hline
    · rw [SyntaxError.message, hfault, oneLine_unknownDialect_iff]
      exact h.dialects errors hread e he name hfault
    · rw [SyntaxError.message, hfault, oneLine_invalidEscape_iff]
      rintro rfl
      exact h.escapes errors hread e he hfault
  · rintro ⟨herrors, himports⟩
    refine ⟨fun errors hread e he hfault => ?_, fun errors hread e he name hfault => ?_, himports⟩
    · have hline := herrors errors hread e he
      rw [SyntaxError.message, hfault, oneLine_invalidEscape_iff] at hline
      exact hline rfl
    · have hline := herrors errors hread e he
      rwa [SyntaxError.message, hfault, oneLine_unknownDialect_iff] at hline

/-- A text without a backslash is such a text. -/
theorem unbroken_of_backslash_notMem (h : '\\' ∉ text.toList) : Unbroken text := by
  have hjoins : Joins OneLine := fun _ hvalues => .join hvalues
  obtain ⟨hfile, herrors⟩ := @legible_of_read OneLine text hjoins fun _ _ htokens =>
    Token.oneLine_literal htokens h
  refine unbroken_iff.mpr ⟨fun errors hread e he => ?_,
    fun file hread => (hfile file hread).imports⟩
  rcases herrors errors hread e he with (hline | ⟨name, hfault, hname⟩) | ⟨c, _, hescape⟩
  · exact hline
  · rw [SyntaxError.message, hfault, oneLine_unknownDialect_iff]
    exact hname
  · exact absurd (hescape.subset List.mem_cons_self) h

end Schema.File

end ProtoSchema
