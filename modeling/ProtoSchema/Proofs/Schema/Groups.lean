import ProtoSchema.Proofs.Schema.Bodies

/-!
Groups as they are written. Where the tokens between some braces are cut into statements, a
statement tells by its first word and its last token what it is. So what is written inside the
braces of a message, a oneof, an extend block or a group, at any depth, has its place in the tree:
the field of a group stands among the fields there, and the body of the group is the message of
that scope which was read between the braces of the group.
-/

namespace ProtoSchema

open Schema
open Phrase (emptyMessage startsWithCapital)

variable {B : BodyRelation} {tokens piece inner inner' : List Token}
  {word word' name name' : String} {position position' : Position}

section Shapes

def EndsInBlock (tokens : List Token) : Prop :=
  ∃ front stop, tokens = front ++ [⟨.mark '\x7d', stop⟩]

theorem Plain.not_endsInBlock (h : Plain tokens) : ¬EndsInBlock tokens := by
  rintro ⟨front, stop, hblock⟩
  obtain ⟨_, other, position, hsemicolon⟩ := h
  obtain ⟨_, hlast⟩ := List.append_inj' (hsemicolon.symm.trans hblock) rfl
  simp at hlast

theorem Braces.endsInBlock (h : Braces inner tokens) (front : List Token) :
    EndsInBlock (front ++ tokens) := by
  obtain ⟨start, stop, _⟩ := h
  exact ⟨front ++ ⟨.mark '\x7b', start⟩ :: inner, stop, by simp⟩

theorem NamedBlock.endsInBlock (h : NamedBlock word name position inner tokens) :
    EndsInBlock tokens := by
  obtain ⟨start, hblock⟩ := h
  exact hblock.endsInBlock [⟨.word word, start⟩, ⟨.word name, position⟩]

theorem NamedBlock.startsWith (h : NamedBlock word name position inner tokens) :
    StartsWith word tokens := by
  obtain ⟨start, _⟩ := h
  rfl

theorem NamedBlock.eq (h : NamedBlock word name position inner tokens)
    (h' : NamedBlock word' name' position' inner' tokens) :
    name = name' ∧ position = position' ∧ inner = inner' := by
  obtain ⟨start, hblock⟩ := h
  generalize heq : (⟨.word word, start⟩ : Token) :: ⟨.word name, position⟩ :: _ = tokens at h'
  obtain ⟨start', hblock'⟩ := h'
  simp only [List.cons.injEq, Token.mk.injEq, Lexeme.word.injEq] at heq
  obtain ⟨_, ⟨rfl, rfl⟩, rfl⟩ := heq
  exact ⟨rfl, rfl, hblock.inner_eq hblock'⟩

theorem ExtendTokens.endsInBlock (h : ExtendTokens inner tokens) : EndsInBlock tokens := by
  obtain ⟨start, _, hblock⟩ := h
  rw [← List.cons_append]
  exact hblock.endsInBlock _

theorem ExtendTokens.startsWith (h : ExtendTokens inner tokens) : StartsWith "extend" tokens := by
  obtain ⟨start, _, _⟩ := h
  rfl

theorem ExtendTokens.eq (h : ExtendTokens inner tokens) (h' : ExtendTokens inner' tokens) :
    inner = inner' := by
  obtain ⟨start, _, hblock⟩ := h
  generalize heq : (⟨.word "extend", start⟩ : Token) :: _ = tokens at h'
  obtain ⟨start', _, hblock'⟩ := h'
  exact hblock.eq_of_append_left hblock' (List.cons.inj heq).2

def groupWords : List String := ["group", "optional", "required", "repeated"]

theorem GroupTokens.endsInBlock (h : GroupTokens name position inner tokens) :
    EndsInBlock tokens := by
  cases h with
  | @intro label middle block start equals _ hblock =>
    have hends := hblock.endsInBlock
      (label ++ ⟨.word "group", start⟩ :: ⟨.word name, position⟩ :: ⟨.mark '=', equals⟩ :: middle)
    simpa using hends

theorem GroupTokens.startsWith (h : GroupTokens name position inner tokens) :
    ∃ word ∈ groupWords, StartsWith word tokens := by
  obtain ⟨start, equals, hlabel, _⟩ := h
  cases hlabel with
  | none => exact ⟨"group", by decide, rfl⟩
  | some label place => exact ⟨label.text, by cases label <;> decide, rfl⟩

theorem GroupTokens.not_startsWith (h : GroupTokens name position inner tokens)
    (hword : word ∉ groupWords) : ¬StartsWith word tokens := by
  intro hstarts
  obtain ⟨other, hother, hgroup⟩ := h.startsWith
  exact hword (hstarts.eq hgroup ▸ hother)

theorem Schema.Label.text_ne_group (label : Label) : label.text ≠ "group" := by
  cases label <;> decide

/-- A label is not the word that stands behind it. -/
theorem LabelTokens.eq_of_append {label label' rest rest' : List Token} {start start' : Position}
    (h : LabelTokens label) (h' : LabelTokens label')
    (heq : label ++ ⟨.word "group", start⟩ :: rest = label' ++ ⟨.word "group", start'⟩ :: rest') :
    rest = rest' := by
  cases h with
  | none =>
    cases h' with
    | none => exact (List.cons.inj heq).2
    | some label place =>
      simp only [List.nil_append, List.cons_append, List.cons.injEq, Token.mk.injEq,
        Lexeme.word.injEq] at heq
      exact absurd heq.1.1.symm label.text_ne_group
  | some label place =>
    cases h' with
    | none =>
      simp only [List.nil_append, List.cons_append, List.cons.injEq, Token.mk.injEq,
        Lexeme.word.injEq] at heq
      exact absurd heq.1.1 label.text_ne_group
    | some label' place' => exact (List.cons.inj (List.cons.inj heq).2).2

theorem GroupTokens.eq (h : GroupTokens name position inner tokens)
    (h' : GroupTokens name' position' inner' tokens) :
    name = name' ∧ position = position' ∧ inner = inner' := by
  cases h with
  | @intro label middle block start equals hlabel hblock =>
    generalize heq : label ++ (⟨.word "group", start⟩ : Token) :: _ = tokens at h'
    obtain ⟨start', equals', hlabel', hblock'⟩ := h'
    have hrest := hlabel.eq_of_append hlabel' heq
    simp only [List.cons.injEq, Token.mk.injEq, Lexeme.word.injEq] at hrest
    obtain ⟨⟨rfl, rfl⟩, _, hrest⟩ := hrest
    exact ⟨rfl, rfl, hblock.eq_of_append_left hblock' hrest⟩

end Shapes

section Inversion

variable {oneof : Option Nat} {index : Nat} {field : Field} {groups : List Message}
  {message next : Message} {block after : Extend} {file later : File}

structure Schema.Field.IsGroup (field : Field) (name : String) (position : Position) : Prop where
  capital : startsWithCapital name = true
  name_eq : field.name = name.map Char.toLower
  type_eq : field.type = .single (.simple name)
  position_eq : field.position = position

theorem FieldTokens.of_group (h : FieldTokens B oneof piece field groups)
    (hpiece : GroupTokens name position inner piece) :
    ∃ body, groups = [body] ∧ field.IsGroup name position ∧
      B inner (emptyMessage name position) body := by
  cases h with
  | plain hplain => exact absurd hpiece.endsInBlock hplain.not_endsInBlock
  | group hgroup _ hcapital hbody hname htype _ hposition =>
    obtain ⟨rfl, rfl, rfl⟩ := hgroup.eq hpiece
    exact ⟨_, rfl, ⟨hcapital, hname, htype, hposition⟩, hbody⟩

/-- A field that ends in a block is a group, and starts like one. -/
theorem FieldTokens.not_startsWith (h : FieldTokens B oneof piece field groups)
    (hends : EndsInBlock piece) (hword : word ∉ groupWords) : ¬StartsWith word piece := by
  cases h with
  | plain hplain => exact absurd hends hplain.not_endsInBlock
  | group hgroup => exact hgroup.not_startsWith hword

theorem EnumRead.startsWith {enum : Enum} (h : EnumRead piece enum) : StartsWith "enum" piece := by
  obtain ⟨htokens, _⟩ := h
  exact htokens.startsWith

theorem EnumRead.of_enum {enum : Enum} (h : EnumRead piece enum)
    (hpiece : NamedBlock "enum" name position inner piece) :
    Steps EnumStep inner ⟨enum.name, [], [], enum.position⟩ enum := by
  obtain ⟨htokens, hsteps⟩ := h
  rwa [← (htokens.eq hpiece).2.2]

theorem ExtendRead.startsWith (h : ExtendRead B piece block) : StartsWith "extend" piece := by
  obtain ⟨htokens, _⟩ := h
  exact htokens.startsWith

theorem ExtendRead.of_extend (h : ExtendRead B piece block) (hpiece : ExtendTokens inner piece) :
    ∃ start, Steps (ExtendStep B) inner start block := by
  obtain ⟨htokens, hsteps⟩ := h
  rw [← htokens.eq hpiece]
  exact ⟨_, hsteps⟩

theorem OneofStep.of_group (h : OneofStep B index piece message next)
    (hpiece : GroupTokens name position inner piece) :
    ∃ field ∈ next.fields, ∃ body ∈ next.messages, field.IsGroup name position ∧
      B inner (emptyMessage name position) body := by
  cases h with
  | skipped haside => exact absurd hpiece.endsInBlock haside.plain.not_endsInBlock
  | option _ haside => exact absurd hpiece.endsInBlock haside.plain.not_endsInBlock
  | field hfield =>
    obtain ⟨body, rfl, hgroup, hbody⟩ := hfield.of_group hpiece
    exact ⟨_, by simp, body, by simp, hgroup, hbody⟩

theorem ExtendStep.of_group (h : ExtendStep B piece block after)
    (hpiece : GroupTokens name position inner piece) :
    ∃ field ∈ after.fields, ∃ body ∈ after.groups, field.IsGroup name position ∧
      B inner (emptyMessage name position) body := by
  cases h with
  | skipped haside => exact absurd hpiece.endsInBlock haside.plain.not_endsInBlock
  | field hfield =>
    obtain ⟨body, rfl, hgroup, hbody⟩ := hfield.of_group hpiece
    exact ⟨_, by simp, body, by simp, hgroup, hbody⟩

theorem MessageStep.of_group (h : MessageStep B piece message next)
    (hpiece : GroupTokens name position inner piece) :
    ∃ field ∈ next.fields, ∃ body ∈ next.messages, field.IsGroup name position ∧
      B inner (emptyMessage name position) body := by
  cases h with
  | skipped haside => exact absurd hpiece.endsInBlock haside.plain.not_endsInBlock
  | option _ haside => exact absurd hpiece.endsInBlock haside.plain.not_endsInBlock
  | field hfield =>
    obtain ⟨body, rfl, hgroup, hbody⟩ := hfield.of_group hpiece
    exact ⟨_, by simp, body, by simp, hgroup, hbody⟩
  | message hother => exact absurd hother.startsWith (hpiece.not_startsWith (by decide))
  | enum hother => exact absurd hother.startsWith (hpiece.not_startsWith (by decide))
  | extend hother => exact absurd hother.startsWith (hpiece.not_startsWith (by decide))
  | oneof hother => exact absurd hother.startsWith (hpiece.not_startsWith (by decide))

theorem MessageStep.of_message (h : MessageStep B piece message next)
    (hpiece : NamedBlock "message" name position inner piece) :
    ∃ body ∈ next.messages, B inner (emptyMessage name position) body := by
  cases h with
  | skipped haside => exact absurd hpiece.endsInBlock haside.plain.not_endsInBlock
  | option _ haside => exact absurd hpiece.endsInBlock haside.plain.not_endsInBlock
  | field hfield =>
    exact absurd hpiece.startsWith (hfield.not_startsWith hpiece.endsInBlock (by decide))
  | message hother hbody =>
    obtain ⟨rfl, rfl, rfl⟩ := hother.eq hpiece
    exact ⟨_, by simp, hbody⟩
  | enum hother => exact absurd (hother.startsWith.eq hpiece.startsWith) (by decide)
  | extend hother => exact absurd (hother.startsWith.eq hpiece.startsWith) (by decide)
  | oneof hother => exact absurd (hother.startsWith.eq hpiece.startsWith) (by decide)

theorem MessageStep.of_enum (h : MessageStep B piece message next)
    (hpiece : NamedBlock "enum" name position inner piece) :
    ∃ enum ∈ next.enums, Steps EnumStep inner ⟨enum.name, [], [], enum.position⟩ enum := by
  cases h with
  | skipped haside => exact absurd hpiece.endsInBlock haside.plain.not_endsInBlock
  | option _ haside => exact absurd hpiece.endsInBlock haside.plain.not_endsInBlock
  | field hfield =>
    exact absurd hpiece.startsWith (hfield.not_startsWith hpiece.endsInBlock (by decide))
  | message hother => exact absurd (hother.startsWith.eq hpiece.startsWith) (by decide)
  | enum henum => exact ⟨_, by simp, henum.of_enum hpiece⟩
  | extend hother => exact absurd (hother.startsWith.eq hpiece.startsWith) (by decide)
  | oneof hother => exact absurd (hother.startsWith.eq hpiece.startsWith) (by decide)

theorem MessageStep.of_extend (h : MessageStep B piece message next)
    (hpiece : ExtendTokens inner piece) :
    ∃ block ∈ next.extendBlocks, ∃ start, Steps (ExtendStep B) inner start block := by
  cases h with
  | skipped haside => exact absurd hpiece.endsInBlock haside.plain.not_endsInBlock
  | option _ haside => exact absurd hpiece.endsInBlock haside.plain.not_endsInBlock
  | field hfield =>
    exact absurd hpiece.startsWith (hfield.not_startsWith hpiece.endsInBlock (by decide))
  | message hother => exact absurd (hother.startsWith.eq hpiece.startsWith) (by decide)
  | enum hother => exact absurd (hother.startsWith.eq hpiece.startsWith) (by decide)
  | extend hblock => exact ⟨_, by simp, hblock.of_extend hpiece⟩
  | oneof hother => exact absurd (hother.startsWith.eq hpiece.startsWith) (by decide)

theorem MessageStep.of_oneof (h : MessageStep B piece message next)
    (hpiece : NamedBlock "oneof" name position inner piece) :
    ∃ index start, Steps (OneofStep B index) inner start next := by
  cases h with
  | skipped haside => exact absurd hpiece.endsInBlock haside.plain.not_endsInBlock
  | option _ haside => exact absurd hpiece.endsInBlock haside.plain.not_endsInBlock
  | field hfield =>
    exact absurd hpiece.startsWith (hfield.not_startsWith hpiece.endsInBlock (by decide))
  | message hother => exact absurd (hother.startsWith.eq hpiece.startsWith) (by decide)
  | enum hother => exact absurd (hother.startsWith.eq hpiece.startsWith) (by decide)
  | extend hother => exact absurd (hother.startsWith.eq hpiece.startsWith) (by decide)
  | oneof hother hsteps =>
    obtain ⟨rfl, rfl, rfl⟩ := hother.eq hpiece
    exact ⟨_, _, hsteps⟩

theorem FileStep.of_message (h : FileStep B piece file later)
    (hpiece : NamedBlock "message" name position inner piece) :
    ∃ body ∈ later.messages, B inner (emptyMessage name position) body := by
  cases h with
  | plain _ _ _ hplain => exact absurd hpiece.endsInBlock hplain.not_endsInBlock
  | package hplain => exact absurd hpiece.endsInBlock hplain.not_endsInBlock
  | message hother hbody =>
    obtain ⟨rfl, rfl, rfl⟩ := hother.eq hpiece
    exact ⟨_, by simp, hbody⟩
  | enum hother => exact absurd (hother.startsWith.eq hpiece.startsWith) (by decide)
  | service hother => exact absurd (hother.startsWith.eq hpiece.startsWith) (by decide)
  | extend hother => exact absurd (hother.startsWith.eq hpiece.startsWith) (by decide)

theorem FileStep.of_enum (h : FileStep B piece file later)
    (hpiece : NamedBlock "enum" name position inner piece) :
    ∃ enum ∈ later.enums, Steps EnumStep inner ⟨enum.name, [], [], enum.position⟩ enum := by
  cases h with
  | plain _ _ _ hplain => exact absurd hpiece.endsInBlock hplain.not_endsInBlock
  | package hplain => exact absurd hpiece.endsInBlock hplain.not_endsInBlock
  | message hother => exact absurd (hother.startsWith.eq hpiece.startsWith) (by decide)
  | enum henum => exact ⟨_, by simp, henum.of_enum hpiece⟩
  | service hother => exact absurd (hother.startsWith.eq hpiece.startsWith) (by decide)
  | extend hother => exact absurd (hother.startsWith.eq hpiece.startsWith) (by decide)

theorem FileStep.of_extend (h : FileStep B piece file later) (hpiece : ExtendTokens inner piece) :
    ∃ block ∈ later.extendBlocks, ∃ start, Steps (ExtendStep B) inner start block := by
  cases h with
  | plain _ _ _ hplain => exact absurd hpiece.endsInBlock hplain.not_endsInBlock
  | package hplain => exact absurd hpiece.endsInBlock hplain.not_endsInBlock
  | message hother => exact absurd (hother.startsWith.eq hpiece.startsWith) (by decide)
  | enum hother => exact absurd (hother.startsWith.eq hpiece.startsWith) (by decide)
  | service hother => exact absurd (hother.startsWith.eq hpiece.startsWith) (by decide)
  | extend hblock => exact ⟨_, by simp, hblock.of_extend hpiece⟩

end Inversion

section Growth

variable {message next last : Message} {index : Nat}

structure Schema.Message.Within (message next : Message) : Prop where
  fields : message.fields ⊆ next.fields
  messages : message.messages ⊆ next.messages
  enums : message.enums ⊆ next.enums
  extendBlocks : message.extendBlocks ⊆ next.extendBlocks

theorem Schema.Message.Within.refl (message : Message) : message.Within message :=
  ⟨List.Subset.refl _, List.Subset.refl _, List.Subset.refl _, List.Subset.refl _⟩

theorem Schema.Message.Within.trans (h : message.Within next) (hnext : next.Within last) :
    message.Within last :=
  ⟨List.Subset.trans h.fields hnext.fields, List.Subset.trans h.messages hnext.messages,
    List.Subset.trans h.enums hnext.enums, List.Subset.trans h.extendBlocks hnext.extendBlocks⟩

theorem OneofStep.within (h : OneofStep B index piece message next) : message.Within next := by
  cases h with
  | field =>
    exact { Schema.Message.Within.refl message with
      fields := List.subset_append_left _ _, messages := List.subset_append_left _ _ }
  | _ => exact { Schema.Message.Within.refl message with }

theorem Steps.oneof_within (h : Steps (OneofStep B index) tokens message last) :
    message.Within last :=
  h.keeps (P := message.Within) (fun _ _ _ hs hstep => hs.trans hstep.within) (.refl _)

theorem MessageStep.within (h : MessageStep B piece message next) : message.Within next := by
  cases h with
  | field =>
    exact { Schema.Message.Within.refl message with
      fields := List.subset_append_left _ _, messages := List.subset_append_left _ _ }
  | message =>
    exact { Schema.Message.Within.refl message with messages := List.subset_append_left _ _ }
  | enum => exact { Schema.Message.Within.refl message with enums := List.subset_append_left _ _ }
  | extend =>
    exact { Schema.Message.Within.refl message with
      extendBlocks := List.subset_append_left _ _ }
  | oneof _ hsteps => exact { hsteps.oneof_within with }
  | _ => exact { Schema.Message.Within.refl message with }

theorem Steps.message_within (h : Steps (MessageStep B) tokens message last) :
    message.Within last :=
  h.keeps (P := message.Within) (fun _ _ _ hs hstep => hs.trans hstep.within) (.refl _)

theorem Steps.extend_subset {block after : Extend} (h : Steps (ExtendStep B) tokens block after) :
    block.fields ⊆ after.fields ∧ block.groups ⊆ after.groups := by
  refine h.keeps (P := fun b => block.fields ⊆ b.fields ∧ block.groups ⊆ b.groups)
    (fun _ b later hb hstep => ?_) ⟨List.Subset.refl _, List.Subset.refl _⟩
  cases hstep with
  | skipped => exact hb
  | field =>
    exact ⟨List.subset_append_of_subset_left _ hb.1, List.subset_append_of_subset_left _ hb.2⟩

theorem Steps.file_subset {file later : File} (h : Steps (FileStep B) tokens file later) :
    file.messages ⊆ later.messages ∧ file.enums ⊆ later.enums ∧
      file.extendBlocks ⊆ later.extendBlocks := by
  refine h.keeps (P := fun f => file.messages ⊆ f.messages ∧ file.enums ⊆ f.enums ∧
    file.extendBlocks ⊆ f.extendBlocks) (fun _ f later hf hstep => ?_)
    ⟨List.Subset.refl _, List.Subset.refl _, List.Subset.refl _⟩
  cases hstep with
  | message => exact ⟨List.subset_append_of_subset_left _ hf.1, hf.2⟩
  | enum => exact ⟨hf.1, List.subset_append_of_subset_left _ hf.2.1, hf.2.2⟩
  | extend => exact ⟨hf.1, hf.2.1, List.subset_append_of_subset_left _ hf.2.2⟩
  | _ => exact hf

end Growth

/-- What some tokens between braces are the statements of. -/
inductive Home where
  | file
  | message
  | oneof
  | extendBlock
deriving DecidableEq

/-- The tokens stand inside what they are the statements of, in the scope. A group is a message
of the scope that it is written in. -/
inductive Inside (tokens : List Token) (outermost : DottedName) :
    Home → DottedName → List Token → Prop
  | file : Inside tokens outermost .file outermost tokens
  | message {home : Home} {scope : DottedName} {around piece inner : List Token} {name : String}
      {position : Position} (h : Inside tokens outermost home scope around)
      (hhome : home = .file ∨ home = .message) (hstatement : HasStatement around piece)
      (hpiece : NamedBlock "message" name position inner piece) :
      Inside tokens outermost .message (scope.member name) inner
  | oneof {scope : DottedName} {around piece inner : List Token} {name : String}
      {position : Position} (h : Inside tokens outermost .message scope around)
      (hstatement : HasStatement around piece)
      (hpiece : NamedBlock "oneof" name position inner piece) :
      Inside tokens outermost .oneof scope inner
  | extendBlock {home : Home} {scope : DottedName} {around piece inner : List Token}
      (h : Inside tokens outermost home scope around) (hhome : home = .file ∨ home = .message)
      (hstatement : HasStatement around piece) (hpiece : ExtendTokens inner piece) :
      Inside tokens outermost .extendBlock scope inner
  | group {home : Home} {scope : DottedName} {around piece inner : List Token} {name : String}
      {position : Position} (h : Inside tokens outermost home scope around)
      (hhome : home ≠ .file) (hstatement : HasStatement around piece)
      (hpiece : GroupTokens name position inner piece) :
      Inside tokens outermost .message (scope.member name) inner

namespace Schema.File

inductive Holds (tree : File) : Home → DottedName → List Token → Prop
  | file {depth : Nat} {inside : List Token}
      (hsteps : Steps (FileStep (BodyTokens depth)) inside .empty tree) :
      tree.Holds .file tree.scope inside
  | message {depth : Nat} {inside : List Token} {region : Region} {start message : Message}
      (hregion : tree.HasRegion region) (hmessage : message ∈ region.messages)
      (hsteps : Steps (MessageStep (BodyTokens depth)) inside start message) :
      tree.Holds .message (region.scope.member message.name) inside
  | oneof {depth index : Nat} {inside : List Token} {region : Region}
      {start last message : Message} (hregion : tree.HasRegion region)
      (hmessage : message ∈ region.messages)
      (hsteps : Steps (OneofStep (BodyTokens depth) index) inside start last)
      (hlast : last.Within message) :
      tree.Holds .oneof (region.scope.member message.name) inside
  | extendBlock {depth : Nat} {inside : List Token} {region : Region} {start block : Extend}
      (hregion : tree.HasRegion region) (hblock : block ∈ region.extendBlocks)
      (hsteps : Steps (ExtendStep (BodyTokens depth)) inside start block) :
      tree.Holds .extendBlock region.scope inside

inductive HasGroup (tree : File) : Home → DottedName → Field → Message → Prop
  | message {home : Home} {region : Region} {message : Message} {field : Field} {body : Message}
      (hhome : home = .message ∨ home = .oneof) (hregion : tree.HasRegion region)
      (hmessage : message ∈ region.messages) (hfield : field ∈ message.fields)
      (hbody : body ∈ message.messages) :
      tree.HasGroup home (region.scope.member message.name) field body
  | extendBlock {region : Region} {block : Extend} {field : Field} {body : Message}
      (hregion : tree.HasRegion region) (hblock : block ∈ region.extendBlocks)
      (hfield : field ∈ block.fields) (hbody : body ∈ block.groups) :
      tree.HasGroup .extendBlock region.scope field body

variable {tree : File} {home : Home} {scope : DottedName} {around : List Token}

theorem HasRegion.groups_subset {region : Region} (h : tree.HasRegion region) {block : Extend}
    (hblock : block ∈ region.extendBlocks) : block.groups ⊆ region.messages := by
  intro body hbody
  cases h with
  | outer => exact Linked.Declaration.mem_declaredMessages.mpr (.inr ⟨block, hblock, hbody⟩)
  | inner => exact Linked.Declaration.mem_declaredMessages.mpr (.inr ⟨block, hblock, hbody⟩)

/-- The body of a group is a message of the scope that the group is written in. -/
theorem HasGroup.exists_region {field : Field} {body : Message}
    (h : tree.HasGroup home scope field body) :
    ∃ region, tree.HasRegion region ∧ region.scope = scope ∧ body ∈ region.messages := by
  cases h with
  | message _ hregion hmessage _ hbody =>
    exact ⟨_, .inner hregion hmessage, rfl,
      Linked.Declaration.mem_declaredMessages.mpr (.inl hbody)⟩
  | extendBlock hregion hblock _ hbody =>
    exact ⟨_, hregion, rfl, hregion.groups_subset hblock hbody⟩

/-- The statements between the braces of a message of the scope are those of its body. -/
theorem holds_of_body {depth : Nat} {region : Region} {body : Message}
    (hregion : tree.HasRegion region) (hbody : body ∈ region.messages)
    (h : BodyTokens depth inner (emptyMessage name position) body) :
    tree.Holds .message (region.scope.member name) inner := by
  obtain ⟨rfl, _⟩ : body.name = name ∧ body.position = position := h.named
  cases depth with
  | zero => exact h.elim
  | succ depth => exact .message hregion hbody h

theorem Holds.message_inside (h : tree.Holds home scope around)
    (hhome : home = .file ∨ home = .message) (hstatement : HasStatement around piece)
    (hpiece : NamedBlock "message" name position inner piece) :
    tree.Holds .message (scope.member name) inner := by
  cases h with
  | file hsteps =>
    obtain ⟨_, _, _, hstep, hback⟩ := hsteps.exists_of_hasStatement hstatement
    obtain ⟨body, hbody, htokens⟩ := hstep.of_message hpiece
    have hmem := hback.file_subset.1 hbody
    exact holds_of_body .outer (Linked.Declaration.mem_declaredMessages.mpr (.inl hmem)) htokens
  | message hregion hmessage hsteps =>
    obtain ⟨_, _, _, hstep, hback⟩ := hsteps.exists_of_hasStatement hstatement
    obtain ⟨body, hbody, htokens⟩ := hstep.of_message hpiece
    have hmem := hback.message_within.messages hbody
    exact holds_of_body (.inner hregion hmessage)
      (Linked.Declaration.mem_declaredMessages.mpr (.inl hmem)) htokens
  | oneof => simp at hhome
  | extendBlock => simp at hhome

theorem Holds.extend_inside (h : tree.Holds home scope around)
    (hhome : home = .file ∨ home = .message) (hstatement : HasStatement around piece)
    (hpiece : ExtendTokens inner piece) : tree.Holds .extendBlock scope inner := by
  cases h with
  | file hsteps =>
    obtain ⟨_, _, _, hstep, hback⟩ := hsteps.exists_of_hasStatement hstatement
    obtain ⟨block, hblock, start, hinner⟩ := hstep.of_extend hpiece
    exact .extendBlock .outer (hback.file_subset.2.2 hblock) hinner
  | message hregion hmessage hsteps =>
    obtain ⟨_, _, _, hstep, hback⟩ := hsteps.exists_of_hasStatement hstatement
    obtain ⟨block, hblock, start, hinner⟩ := hstep.of_extend hpiece
    exact .extendBlock (.inner hregion hmessage) (hback.message_within.extendBlocks hblock) hinner
  | oneof => simp at hhome
  | extendBlock => simp at hhome

theorem Holds.oneof_inside (h : tree.Holds .message scope around)
    (hstatement : HasStatement around piece)
    (hpiece : NamedBlock "oneof" name position inner piece) : tree.Holds .oneof scope inner := by
  cases h with
  | message hregion hmessage hsteps =>
    obtain ⟨_, _, _, hstep, hback⟩ := hsteps.exists_of_hasStatement hstatement
    obtain ⟨index, start, hinner⟩ := hstep.of_oneof hpiece
    exact .oneof hregion hmessage hinner hback.message_within

/-- A group that is written inside something has its field and its body there. -/
theorem Holds.group_inside (h : tree.Holds home scope around) (hhome : home ≠ .file)
    (hstatement : HasStatement around piece) (hpiece : GroupTokens name position inner piece) :
    ∃ field body depth, tree.HasGroup home scope field body ∧ field.IsGroup name position ∧
      BodyTokens depth inner (emptyMessage name position) body := by
  cases h with
  | file => exact absurd rfl hhome
  | message hregion hmessage hsteps =>
    obtain ⟨_, _, _, hstep, hback⟩ := hsteps.exists_of_hasStatement hstatement
    obtain ⟨field, hfield, body, hbody, hgroup, htokens⟩ := hstep.of_group hpiece
    have hwithin := hback.message_within
    exact ⟨field, body, _, .message (.inl rfl) hregion hmessage (hwithin.fields hfield)
      (hwithin.messages hbody), hgroup, htokens⟩
  | oneof hregion hmessage hsteps hlast =>
    obtain ⟨_, _, _, hstep, hback⟩ := hsteps.exists_of_hasStatement hstatement
    obtain ⟨field, hfield, body, hbody, hgroup, htokens⟩ := hstep.of_group hpiece
    have hwithin := hback.oneof_within.trans hlast
    exact ⟨field, body, _, .message (.inr rfl) hregion hmessage (hwithin.fields hfield)
      (hwithin.messages hbody), hgroup, htokens⟩
  | extendBlock hregion hblock hsteps =>
    obtain ⟨_, _, _, hstep, hback⟩ := hsteps.exists_of_hasStatement hstatement
    obtain ⟨field, hfield, body, hbody, hgroup, htokens⟩ := hstep.of_group hpiece
    obtain ⟨hfields, hgroups⟩ := hback.extend_subset
    exact ⟨field, body, _, .extendBlock hregion hblock (hfields hfield) (hgroups hbody), hgroup,
      htokens⟩

/-- What is written inside something at any depth is in the tree. -/
theorem holds_of_inside {depth : Nat}
    (hsteps : Steps (FileStep (BodyTokens depth)) tokens .empty tree)
    (h : Inside tokens tree.scope home scope around) : tree.Holds home scope around := by
  induction h with
  | file => exact .file hsteps
  | message _ hhome hstatement hpiece ih => exact ih.message_inside hhome hstatement hpiece
  | oneof _ hstatement hpiece ih => exact ih.oneof_inside hstatement hpiece
  | extendBlock _ hhome hstatement hpiece ih => exact ih.extend_inside hhome hstatement hpiece
  | group _ hhome hstatement hpiece ih =>
    -- The body is in the tree next to its field, whatever the group is written in.
    obtain ⟨field, body, depth, hgroup, _, htokens⟩ := ih.group_inside hhome hstatement hpiece
    obtain ⟨region, hregion, rfl, hbody⟩ := hgroup.exists_region
    exact holds_of_body hregion hbody htokens

end Schema.File

section Reading

inductive Schema.Field.ReadFrom (tokens : List Token) (field : Field) : Prop
  | plain (hname : ⟨.word field.name, field.position⟩ ∈ tokens)
  | group {name : String} (hgroup : field.IsGroup name field.position)
      (hname : ⟨.word name, field.position⟩ ∈ tokens)

theorem FieldTokens.field_readFrom {oneof : Option Nat} {field : Field} {groups : List Message}
    (h : FieldTokens B oneof piece field groups) (hpiece : piece <:+: tokens) :
    field.ReadFrom tokens := by
  cases h with
  | plain _ hnumber => exact .plain (hpiece.subset hnumber.mem)
  | group hgroup _ hcapital _ hname htype _ hposition =>
    rw [← hposition] at hgroup
    exact .group ⟨hcapital, hname, htype, rfl⟩ (hpiece.subset hgroup.mem)

theorem FieldTokens.fields_readFrom {oneof : Option Nat} {field : Field} {groups : List Message}
    (h : FieldTokens B oneof piece field groups) (hpiece : piece <:+: tokens) {fields : List Field}
    (hfields : ∀ field ∈ fields, field.ReadFrom tokens) :
    ∀ other ∈ fields ++ [field], other.ReadFrom tokens := by
  refine List.forall_mem_append.mpr ⟨hfields, ?_⟩
  rw [List.forall_mem_singleton]
  exact h.field_readFrom hpiece

theorem OneofStep.fields_readFrom {index : Nat} {message next : Message}
    (h : OneofStep B index piece message next) (hpiece : piece <:+: tokens)
    (hfields : ∀ field ∈ message.fields, field.ReadFrom tokens) :
    ∀ field ∈ next.fields, field.ReadFrom tokens := by
  cases h with
  | field hfield => exact hfield.fields_readFrom hpiece hfields
  | _ => exact hfields

theorem MessageStep.fields_readFrom {message next : Message}
    (h : MessageStep B piece message next) (hpiece : piece <:+: tokens)
    (hfields : ∀ field ∈ message.fields, field.ReadFrom tokens) :
    ∀ field ∈ next.fields, field.ReadFrom tokens := by
  cases h with
  | field hfield => exact hfield.fields_readFrom hpiece hfields
  | oneof htokens hsteps =>
    exact hsteps.keepsWithin (P := fun m => ∀ field ∈ m.fields, field.ReadFrom tokens)
      (htokens.isInfix.trans hpiece)
      (fun _ _ _ hpiece hstep hs => hstep.fields_readFrom hpiece hs) hfields
  | _ => exact hfields

theorem Schema.Message.ReadFrom.fields {message : Message} (h : message.ReadFrom tokens) :
    ∀ field ∈ message.fields, field.ReadFrom tokens := by
  obtain @⟨depth, inner, _, hinner, hbody⟩ := h
  cases depth with
  | zero => exact hbody.elim
  | succ depth =>
    exact Steps.keepsWithin (P := fun m => ∀ field ∈ m.fields, field.ReadFrom tokens) hinner
      (fun _ _ _ hpiece hstep hs => hstep.fields_readFrom hpiece hs) hbody (List.forall_mem_nil _)

theorem Schema.ExtendBlock.ReadFrom.fields {block : Extend} (h : block.ReadFrom tokens) :
    ∀ field ∈ block.fields, field.ReadFrom tokens := by
  obtain ⟨hinner, hsteps⟩ := h
  refine hsteps.keepsWithin (P := fun b => ∀ field ∈ b.fields, field.ReadFrom tokens) hinner
    (fun piece b next hpiece hstep hb => ?_) (List.forall_mem_nil _)
  cases hstep with
  | skipped => exact hb
  | field hfield => exact hfield.fields_readFrom hpiece hb

end Reading

end ProtoSchema
