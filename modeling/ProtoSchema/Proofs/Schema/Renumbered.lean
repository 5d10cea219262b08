import ProtoSchema.Proofs.Schema.Renumbering

/-!
The numbers of a schema when one integer of its text is written in another way. Each phrase of
the grammar is followed by its reading in the other text, and the numbers that it finds are
found there under the same names: each of them is what the literal behind its name stands for,
in either text.
-/

namespace ProtoSchema

open Schema

namespace Schema

def Field.HasNumber (field : Field) (name : String) (position : Position) (x : Int) : Prop :=
  field.name = name ∧ field.position = position ∧ field.number = x

def EnumValue.HasNumber (value : EnumValue) (name : String) (position : Position) (x : Int) :
    Prop :=
  value.name = name ∧ value.position = position ∧ value.number = x

def Enum.HasNumber (enum : Enum) (name : String) (position : Position) (x : Int) : Prop :=
  ∃ value ∈ enum.values, value.HasNumber name position x

inductive Message.HasNumber : Message → String → Position → Int → Prop
  | field {message : Message} {field : Field} {name : String} {position : Position} {x : Int}
      (hmem : field ∈ message.fields) (h : field.HasNumber name position x) :
      HasNumber message name position x
  | enum {message : Message} {enum : Enum} {name : String} {position : Position} {x : Int}
      (hmem : enum ∈ message.enums) (h : enum.HasNumber name position x) :
      HasNumber message name position x
  | extension {message : Message} {block : Extend} {field : Field} {name : String}
      {position : Position} {x : Int} (hblock : block ∈ message.extendBlocks)
      (hmem : field ∈ block.fields) (h : field.HasNumber name position x) :
      HasNumber message name position x
  | message {message inner : Message} {name : String} {position : Position} {x : Int}
      (hmem : inner ∈ message.messages) (h : HasNumber inner name position x) :
      HasNumber message name position x
  | group {message inner : Message} {block : Extend} {name : String} {position : Position}
      {x : Int} (hblock : block ∈ message.extendBlocks) (hmem : inner ∈ block.groups)
      (h : HasNumber inner name position x) : HasNumber message name position x

def ExtendBlock.HasNumber (block : Extend) (name : String) (position : Position) (x : Int) :
    Prop :=
  (∃ field ∈ block.fields, field.HasNumber name position x) ∨
    ∃ message ∈ block.groups, message.HasNumber name position x

/-- Some field or enum value of the file has the name and the number. -/
def File.HasNumber (file : File) (name : String) (position : Position) (x : Int) : Prop :=
  (∃ message ∈ file.messages, message.HasNumber name position x) ∨
    (∃ enum ∈ file.enums, enum.HasNumber name position x) ∨
    ∃ block ∈ file.extendBlocks, ExtendBlock.HasNumber block name position x

variable {name : String} {position : Position} {x : Int}

theorem Message.hasNumber_iff {message : Message} : message.HasNumber name position x ↔
    (∃ field ∈ message.fields, field.HasNumber name position x) ∨
    (∃ inner ∈ message.messages, inner.HasNumber name position x) ∨
    (∃ enum ∈ message.enums, enum.HasNumber name position x) ∨
    ∃ block ∈ message.extendBlocks, ExtendBlock.HasNumber block name position x := by
  constructor
  · intro h
    cases h with
    | field hmem h => exact .inl ⟨_, hmem, h⟩
    | enum hmem h => exact .inr (.inr (.inl ⟨_, hmem, h⟩))
    | extension hblock hmem h => exact .inr (.inr (.inr ⟨_, hblock, .inl ⟨_, hmem, h⟩⟩))
    | message hmem h => exact .inr (.inl ⟨_, hmem, h⟩)
    | group hblock hmem h => exact .inr (.inr (.inr ⟨_, hblock, .inr ⟨_, hmem, h⟩⟩))
  · rintro (⟨_, hmem, h⟩ | ⟨_, hmem, h⟩ | ⟨_, hmem, h⟩ | ⟨_, hblock, ⟨_, hmem, h⟩ | ⟨_, hmem, h⟩⟩)
    · exact .field hmem h
    · exact .message hmem h
    · exact .enum hmem h
    · exact .extension hblock hmem h
    · exact .group hblock hmem h

namespace File

variable (file : File)

theorem hasNumber_addMessage (message : Message) :
    File.HasNumber { file with messages := file.messages ++ [message] } name position x ↔
      file.HasNumber name position x ∨ message.HasNumber name position x := by
  simp only [File.HasNumber, List.mem_append, List.mem_singleton, or_and_right, exists_or,
    exists_eq_left]
  exact or_right_comm

theorem hasNumber_addEnum (enum : Enum) :
    File.HasNumber { file with enums := file.enums ++ [enum] } name position x ↔
      file.HasNumber name position x ∨ enum.HasNumber name position x := by
  simp only [File.HasNumber, List.mem_append, List.mem_singleton, or_and_right, exists_or,
    exists_eq_left]
  exact (or_congr_right or_right_comm).trans or_assoc.symm

theorem hasNumber_addBlock (block : Extend) :
    File.HasNumber { file with extendBlocks := file.extendBlocks ++ [block] } name position x ↔
      file.HasNumber name position x ∨ block.HasNumber name position x := by
  simp only [File.HasNumber, List.mem_append, List.mem_singleton, or_and_right, exists_or,
    exists_eq_left]
  exact (or_congr_right or_assoc.symm).trans or_assoc.symm

end File

end Schema

namespace Renumbering

abbrev Numbers := String → Position → Int → Prop

def Found (found : Field × List Message) : Numbers := fun name position x =>
  found.1.HasNumber name position x ∨
    ∃ message ∈ found.2, message.HasNumber name position x

section Additions

variable (parent : Message) {name : String} {position : Position} {x : Int}

theorem hasNumber_addFound (found : Field × List Message) :
    Message.HasNumber { parent with
        fields := parent.fields ++ [found.1]
        messages := parent.messages ++ found.2 } name position x ↔
      parent.HasNumber name position x ∨ Found found name position x := by
  rw [Message.hasNumber_iff, Message.hasNumber_iff]
  simp only [List.mem_append, List.mem_singleton, or_and_right, exists_or, exists_eq_left, Found]
  exact (or_congr_right or_right_comm).trans or_or_or_comm

theorem hasNumber_addMessage (message : Message) :
    Message.HasNumber { parent with messages := parent.messages ++ [message] } name position x ↔
      parent.HasNumber name position x ∨ message.HasNumber name position x := by
  rw [Message.hasNumber_iff, Message.hasNumber_iff]
  simp only [List.mem_append, List.mem_singleton, or_and_right, exists_or, exists_eq_left]
  exact (or_congr_right or_right_comm).trans or_assoc.symm

theorem hasNumber_addEnum (enum : Enum) :
    Message.HasNumber { parent with enums := parent.enums ++ [enum] } name position x ↔
      parent.HasNumber name position x ∨ enum.HasNumber name position x := by
  rw [Message.hasNumber_iff, Message.hasNumber_iff]
  simp only [List.mem_append, List.mem_singleton, or_and_right, exists_or, exists_eq_left]
  exact (or_congr_right ((or_congr_right or_right_comm).trans or_assoc.symm)).trans or_assoc.symm

theorem hasNumber_addBlock (block : Extend) :
    Message.HasNumber { parent with extendBlocks := parent.extendBlocks ++ [block] }
        name position x ↔
      parent.HasNumber name position x ∨ block.HasNumber name position x := by
  rw [Message.hasNumber_iff, Message.hasNumber_iff]
  simp only [List.mem_append, List.mem_singleton, or_and_right, exists_or, exists_eq_left]
  exact (or_congr_right ((or_congr_right or_assoc.symm).trans or_assoc.symm)).trans or_assoc.symm

end Additions

variable {r : Renumbering} {t u : Tape} {n m : Numbers} {body : Phrase.BodyReader}

def Fits (r : Renumbering) (n m : Numbers) : Prop :=
  ∀ name position x, n name position x →
    ∃ y, m name (r.move position) y ∧ r.SameLiteral position x y

abbrev Keeps {α : Type} (r : Renumbering) (has : α → Numbers) (a b : α) : Prop :=
  r.Fits (has a) (has b)

def KeepsFile (r : Renumbering) (a b : File) : Prop :=
  r.Keeps File.HasNumber a b ∧ b.package.isSome = a.package.isSome

namespace Fits

theorem none (h : ∀ name position x, ¬n name position x) : r.Fits n m :=
  fun name position x hn => absurd hn (h name position x)

/-- One number under a name. -/
theorem one {word : String} {position : Position} {x y : Int}
    (h : r.SameLiteral position x y) :
    r.Fits (fun name place z => word = name ∧ position = place ∧ x = z)
      (fun name place z => word = name ∧ r.move position = place ∧ y = z) := by
  rintro _ _ _ ⟨rfl, rfl, rfl⟩
  exact ⟨y, ⟨rfl, rfl, rfl⟩, h⟩

theorem singleton {α : Type} {has has' : α → Numbers} {a b : α} (h : r.Fits (has a) (has' b)) :
    r.Fits (fun name position x => ∃ c ∈ [a], has c name position x)
      (fun name position x => ∃ c ∈ [b], has' c name position x) := by
  intro name position x hx
  obtain ⟨y, hy, hsame⟩ := h name position x (by simpa using hx)
  exact ⟨y, ⟨b, List.mem_singleton_self b, hy⟩, hsame⟩

theorem or {n' m' : Numbers} (h : r.Fits n m) (h' : r.Fits n' m') :
    r.Fits (fun name position x => n name position x ∨ n' name position x)
      (fun name position x => m name position x ∨ m' name position x) := by
  rintro name position x (hx | hx)
  · obtain ⟨y, hy, hsame⟩ := h name position x hx
    exact ⟨y, .inl hy, hsame⟩
  · obtain ⟨y, hy, hsame⟩ := h' name position x hx
    exact ⟨y, .inr hy, hsame⟩

theorem congr {n' m' : Numbers} (h : r.Fits n m)
    (hn : ∀ name position x, n' name position x ↔ n name position x)
    (hm : ∀ name position x, m' name position x ↔ m name position x) : r.Fits n' m' := by
  intro name position x hx
  obtain ⟨y, hy, hsame⟩ := h name position x ((hn name position x).mp hx)
  exact ⟨y, (hm _ _ _).mpr hy, hsame⟩

end Fits

namespace Follows

theorem dottedName : r.Follows Any Phrase.dottedName Phrase.dottedName := separated identifier.any

theorem typeName : r.Follows Any Phrase.typeName Phrase.typeName := by
  refine take?_bind (by simp) ?_ ?_
  · exact dottedName.bind fun _ _ _ => .pure trivial
  · exact dottedName.bind fun _ _ _ => .pure trivial

theorem optionPart : r.Follows Any Phrase.optionPart Phrase.optionPart := by
  refine take?_bind (by simp) (typeName.bind fun _ _ _ => mark_bind (.pure trivial)) ?_
  exact identifier.bind fun _ _ _ => .pure trivial

theorem aggregate : r.Follows Any Phrase.aggregate Phrase.aggregate := by
  refine place_bind fun position => mark_bind fun t u hties => ?_
  rw [Phrase.on_tape_bind, Phrase.on_tape_bind, hties.ahead]
  cases hrest : Phrase.aggregateRest 0 t.ahead with
  | none => exact .of_error
  | some found =>
    obtain ⟨parts, behind⟩ := found
    obtain ⟨others, hothers⟩ := aggregateRest_token (r := r) hrest
    rw [hothers]
    exact .ok (hties.goOn (Phrase.aggregateRest_suffix hrest)) rfl rfl trivial

/-- The text of a value may differ, but not whether there is one. -/
theorem bareValue?_bind {α : Type} {R : α → α → Prop} {found found' : Option Lexeme}
    {f g : String → Phrase α} {p q : Phrase α} (hlook : SameLook found found')
    (hsome : ∀ a b, r.Follows R (f a) (g b)) (hnone : r.Follows R p q) :
    r.Follows R
      (match Phrase.bareValue? found with
        | some s => f s
        | none => p)
      (match Phrase.bareValue? found' with
        | some s => g s
        | none => q) := by
  rcases hlook with rfl | ⟨s, s', rfl, rfl⟩
  · split
    · exact hsome _ _
    · exact hnone
  · exact hsome s s'

theorem signed (sign : Char) : r.Follows Any (Phrase.signed sign) (Phrase.signed sign) :=
  skip_bind 1 (look_bind 0 fun _ _ hlook =>
    bareValue?_bind hlook (fun _ _ => skip_bind 1 (.pure trivial)) (.expected _))

theorem constant : r.Follows Any Phrase.constant Phrase.constant := by
  refine look_bind 0 fun found found' hlook => ?_
  have hbare := bareValue?_bind (r := r) (R := Any) (p := Phrase.expected .constant)
    (q := (Phrase.expected .constant : Phrase String)) hlook
    (fun a b => skip_bind (f := fun _ => Pure.pure a) (g := fun _ => Pure.pure b) 1
      (.pure trivial)) (.expected _)
  rcases hlook with rfl | ⟨s, s', rfl, rfl⟩
  · split
    · exact literal.any
    · exact aggregate
    · exact signed '-'
    · exact signed '+'
    · exact hbare
  · exact hbare

theorem setting : r.Follows Any Phrase.setting Phrase.setting :=
  place_bind fun _ => (separated optionPart).bind fun _ _ _ => mark_bind
    (constant.bind fun _ _ _ => .pure trivial)

theorem settings : r.Follows Any Phrase.settings Phrase.settings :=
  take?_bind (by simp) ((separated setting).bind fun _ _ _ => mark_bind (.pure trivial))
    (.pure trivial)

theorem optionStatement : r.Follows Any Phrase.optionStatement Phrase.optionStatement :=
  keyword_bind (setting.bind fun _ _ _ => mark_bind (.pure trivial))

theorem skippedStatement : r.Follows Any Phrase.skippedStatement Phrase.skippedStatement := by
  refine place_bind fun position => look_bind 0 fun found found' _ => skip_bind 1 ?_
  intro t u hties
  rw [Phrase.on_tape_bind, Phrase.on_tape_bind, hties.ahead, skippedRest_token]
  have hbehind := hties.goOn (Phrase.skippedRest_suffix t.ahead)
  generalize Phrase.skippedRest t.ahead = rest at hbehind ⊢
  obtain ⟨ended, behind⟩ := rest
  cases ended with
  | true => exact .ok hbehind rfl rfl trivial
  | false => exact .of_error

theorem label? : r.Follows Eq Phrase.label? Phrase.label? := by
  refine look_bind 1 fun _ _ hnext => ?_
  refine .ite (hnext.eq_some_iff (.mark '=') (by simp)) (fun _ => .pure rfl) ?_
  refine fun _ => look_bind 0 fun found found' hlook => ?_
  rcases hlook with rfl | ⟨s, s', rfl, rfl⟩
  · split
    · exact .pure rfl
    · exact .pure rfl
    · exact .pure rfl
    · exact .pure rfl
  · exact .pure rfl

theorem fieldType : r.Follows Any Phrase.fieldType Phrase.fieldType := by
  refine look_bind 0 fun found found' hlook => look_bind 1 fun next next' hnext => ?_
  have hsame := and_congr (hlook.eq_some_iff (.word "map") (by simp))
    (hnext.eq_some_iff (.mark '<') (by simp))
  refine .ite hsame (fun _ => skip_bind 2 ?_) fun _ => ?_
  · exact typeName.bind fun _ _ _ => mark_bind (typeName.bind fun _ _ _ =>
      mark_bind (.pure trivial))
  · exact typeName.bind fun _ _ _ => .pure trivial

theorem isGroup : r.Follows Eq Phrase.isGroup Phrase.isGroup := by
  refine look_bind 0 fun found found' hlook => look_bind 2 fun second second' hsecond => ?_
  have hsame := and_congr (hlook.eq_some_iff (.word "group") (by simp))
    (hsecond.eq_some_iff (.mark '=') (by simp))
  refine .ite hsame (fun _ => look_bind 1 fun first first' hfirst => .pure ?_) fun _ => .pure rfl
  rcases hfirst with rfl | ⟨s, s', rfl, rfl⟩
  · rfl
  · rfl

theorem plainField (label : Option Label) (oneof other : Option Nat) :
    r.Follows (r.Keeps Field.HasNumber) (Phrase.plainField label oneof)
      (Phrase.plainField label other) := by
  refine place_bind fun _ => fieldType.bind fun type type' _ => named_bind ?_
  refine fun position name t u hties hfront => .number_bind hties hfront fun x y hsame => ?_
  refine settings.bind fun options options' _ => mark_bind (.pure (.one hsame))

theorem enumValue : r.Follows (r.Keeps EnumValue.HasNumber) Phrase.enumValue
    Phrase.enumValue := by
  refine named_bind fun position name t u hties hfront => .number_bind hties hfront ?_
  refine fun x y hsame => settings.bind fun options options' _ => mark_bind (.pure (.one hsame))

theorem streamedType : r.Follows Any Phrase.streamedType Phrase.streamedType := by
  refine mark_bind (look_bind 1 fun next next' hnext => look_bind 0 fun found found' hlook => ?_)
  have hclose := not_congr (hnext.eq_some_iff (.mark ')') (by simp))
  have hdot := not_congr (hnext.eq_some_iff (.mark '.') (by simp))
  have hsame := and_congr (hlook.eq_some_iff (.word "stream") (by simp)) (and_congr hclose hdot)
  have hrest (streams streams' : Bool) : r.Follows Any
      (do
        let position ← Phrase.place
        let name ← Phrase.typeName
        Phrase.mark ')'
        return (streams, name, position))
      (do
        let position ← Phrase.place
        let name ← Phrase.typeName
        Phrase.mark ')'
        return (streams', name, position)) :=
    place_bind fun _ => typeName.bind fun _ _ _ => mark_bind (.pure trivial)
  refine .ite ?_ (fun _ => skip_bind 1 (hrest _ _)) fun _ => hrest _ _
  rw [decide_eq_true_iff, decide_eq_true_iff]
  exact hsame

end Follows

structure Bodies (r : Renumbering) (body : Phrase.BodyReader) : Prop where
  takes : ∃ B, body.Takes B
  settles : ∀ name parent parent', r.Keeps Message.HasNumber parent parent' →
    r.Settles (r.Keeps Message.HasNumber) (body name parent) (body name parent')

namespace Settles

theorem fits_emptyMessage (name : String) (position position' : Position) :
    r.Fits (Phrase.emptyMessage name position).HasNumber
      (Phrase.emptyMessage name position').HasNumber := by
  refine .none fun _ _ _ h => ?_
  rw [Message.hasNumber_iff] at h
  simp [Phrase.emptyMessage] at h

theorem group (hbody : r.Bodies body) (label : Option Label) (oneof other : Option Nat) :
    r.Settles (fun a b => r.Fits (Found (a.1, [a.2])) (Found (b.1, [b.2])))
      (Phrase.group body label oneof) (Phrase.group body label other) := by
  refine keyword_bind (named_bind fun position name t u hties hfront => ?_)
  by_cases hcapital : Phrase.startsWithCapital name = true
  · rw [if_pos hcapital, if_pos hcapital]
    refine .number_bind hties hfront fun x y hsame => Follows.settings.bind_settles fun _ _ _ => ?_
    have hempty := fits_emptyMessage (r := r) name position (r.move position)
    refine (hbody.settles _ _ _ hempty).bind_pure fun message message' hmessage => ?_
    exact (Fits.one hsame).or (.singleton hmessage)
  · rw [if_neg hcapital, if_neg hcapital]
    exact (Follows.failAt_bind _ _).settles t u hties

theorem unlabelled (hbody : r.Bodies body) (label : Option Label) (oneof other : Option Nat) :
    r.Settles (r.Keeps Found)
      (Phrase.unlabelled body label oneof) (Phrase.unlabelled body label other) := by
  refine Follows.isGroup.bind_settles fun isGroup _ heq => ?_
  subst heq
  refine ite Iff.rfl (fun _ => (group hbody label oneof other).bind_pure fun _ _ h => h) fun _ => ?_
  refine (Follows.plainField label oneof other).settles.bind_pure fun a b h => ?_
  exact h.congr (by simp [Found]) (by simp [Found])

theorem field (hbody : r.Bodies body) (oneof other : Option Nat)
    (hsome : other.isSome = oneof.isSome) :
    r.Settles (r.Keeps Found) (Phrase.field body oneof)
      (Phrase.field body other) := by
  refine Follows.label?.bind_settles fun label _ heq => ?_
  subst heq
  cases label with
  | none => exact unlabelled hbody none oneof other
  | some label =>
    cases oneof with
    | none =>
      cases other with
      | none => exact fun t u hties => unlabelled hbody (some label) none none _ _ (hties.drop 1)
      | some index => cases hsome
    | some index => exact fun _ _ _ => FollowsAt.of_error.settlesAt

theorem fieldOf (hbody : r.Bodies body) (oneof other : Option Nat)
    (hsome : other.isSome = oneof.isSome) {parent parent' : Message}
    (hparent : r.Keeps Message.HasNumber parent parent') :
    r.Settles (r.Keeps Message.HasNumber) (Phrase.fieldOf body oneof parent)
      (Phrase.fieldOf body other parent') := by
  refine (field hbody oneof other hsome).bind_pure fun a b hfound => ?_
  exact (hparent.or hfound).congr (fun _ _ _ => hasNumber_addFound _ _)
    fun _ _ _ => hasNumber_addFound _ _

theorem oneofStatement (hbody : r.Bodies body) (index other : Nat) {parent parent' : Message}
    (hparent : r.Keeps Message.HasNumber parent parent') :
    r.Settles (r.Keeps Message.HasNumber) (Phrase.oneofStatement body index parent)
      (Phrase.oneofStatement body other parent') := by
  have hoption (index : Nat) (option : OptionSetting) (parent : Message) (name : String)
      (position : Position) (x : Int) :
      (Phrase.addOneofOption index option parent).HasNumber name position x ↔
        parent.HasNumber name position x := by
    rw [Message.hasNumber_iff, Message.hasNumber_iff, Phrase.addOneofOption]
  have hfield := fieldOf hbody (some index) (some other) rfl hparent
  refine take?_bind (by simp) (.pure hparent) (look_bind 0 fun found found' hlook => ?_)
  refine ite (hlook.eq_some_iff (.word "option") (by simp)) (fun _ => ?_) fun _ => hfield
  exact Follows.optionStatement.settles.bind_pure fun _ _ _ =>
    hparent.congr (hoption _ _ _) (hoption _ _ _)

theorem oneof (hbody : r.Bodies body) {parent parent' : Message}
    (hparent : r.Keeps Message.HasNumber parent parent') :
    r.Settles (r.Keeps Message.HasNumber) (Phrase.oneof body parent)
      (Phrase.oneof body parent') := by
  obtain ⟨B, htakes⟩ := hbody.takes
  have hreads (index : Nat) (s : Message) : Phrase.Reads (fun piece _ => Statement false piece)
      (Phrase.oneofStatement body index s) :=
    (Phrase.reads_oneofStatement htakes index s).imp fun _ _ h => h.1
  refine keyword_bind (named_bind fun position name t u hties _ => ?_)
  refine Settles.block (hreads _) (hreads _) (fun _ _ hs => oneofStatement hbody _ _ hs)
    (hparent.congr ?_ ?_) t u hties
  · exact fun _ _ _ => by rw [Message.hasNumber_iff, Message.hasNumber_iff]
  · exact fun _ _ _ => by rw [Message.hasNumber_iff, Message.hasNumber_iff]

theorem enumStatement {enum enum' : Enum} (henum : r.Keeps Enum.HasNumber enum enum') :
    r.Settles (r.Keeps Enum.HasNumber) (Phrase.enumStatement enum)
      (Phrase.enumStatement enum') := by
  have hadded (enum : Enum) (value : EnumValue) (name : String) (position : Position) (x : Int) :
      Enum.HasNumber { enum with values := enum.values ++ [value] } name position x ↔
        enum.HasNumber name position x ∨ value.HasNumber name position x := by
    simp [Enum.HasNumber, or_and_right, exists_or]
  have hvalue : r.Follows (r.Keeps Enum.HasNumber)
      (do return { enum with values := enum.values ++ [← Phrase.enumValue] })
      (do return { enum' with values := enum'.values ++ [← Phrase.enumValue] }) :=
    Follows.enumValue.bind fun _ _ h => .pure ((henum.or h).congr (hadded _ _) (hadded _ _))
  refine take?_bind (by simp) (.pure henum) (look_bind 0 fun found found' hlook => ?_)
  rcases hlook with rfl | ⟨s, s', rfl, rfl⟩
  · split
    · exact Follows.optionStatement.settles.bind_pure fun _ _ _ => henum
    · exact (Follows.skippedStatement.bind fun _ _ _ => .pure henum).settles
    · exact hvalue.settles
  · exact hvalue.settles

theorem enum : r.Settles (r.Keeps Enum.HasNumber) Phrase.enum Phrase.enum := by
  have hreads (s : Enum) : Phrase.Reads (fun piece _ => Statement false piece)
      (Phrase.enumStatement s) := (Phrase.reads_enumStatement s).imp fun _ _ h => h.1
  refine keyword_bind (named_bind fun position name t u hties _ => ?_)
  exact Settles.block hreads hreads (fun _ _ hs => enumStatement hs)
    (.none fun _ _ _ ⟨_, hmem, _⟩ => by cases hmem) t u hties

theorem extendStatement (hbody : r.Bodies body) {block block' : Extend}
    (hblock : r.Keeps ExtendBlock.HasNumber block block') :
    r.Settles (r.Keeps ExtendBlock.HasNumber) (Phrase.extendStatement body block)
      (Phrase.extendStatement body block') := by
  have hadded (block : Extend) (found : Field × List Message) (name : String)
      (position : Position) (x : Int) :
      ExtendBlock.HasNumber { block with
          fields := block.fields ++ [found.1]
          groups := block.groups ++ found.2 } name position x ↔
        block.HasNumber name position x ∨ Found found name position x := by
    simp only [ExtendBlock.HasNumber, Found, List.mem_append, List.mem_singleton, or_and_right,
      exists_or, exists_eq_left]
    exact or_or_or_comm
  refine take?_bind (by simp) (.pure hblock) ?_
  exact (field hbody none none rfl).bind_pure fun _ _ h =>
    (hblock.or h).congr (hadded _ _) (hadded _ _)

theorem extend (hbody : r.Bodies body) :
    r.Settles (r.Keeps ExtendBlock.HasNumber) (Phrase.extend body)
      (Phrase.extend body) := by
  obtain ⟨B, htakes⟩ := hbody.takes
  have hreads (s : Extend) : Phrase.Reads (fun piece _ => Statement false piece)
      (Phrase.extendStatement body s) :=
    (Phrase.reads_extendStatement htakes s).imp fun _ _ h => h.1
  refine keyword_bind (place_bind fun position => Follows.typeName.bind_settles fun _ _ _ => ?_)
  refine .block hreads hreads (fun _ _ hs => extendStatement hbody hs) (.none fun _ _ _ h => ?_)
  simp [ExtendBlock.HasNumber] at h

theorem message (hbody : r.Bodies body) :
    r.Settles (r.Keeps Message.HasNumber) (Phrase.message body)
      (Phrase.message body) := by
  refine keyword_bind (named_bind fun position name t u hties _ => ?_)
  exact hbody.settles _ _ _ (fits_emptyMessage name position _) t u hties

theorem messageStatement (hbody : r.Bodies body) {parent parent' : Message}
    (hparent : r.Keeps Message.HasNumber parent parent') :
    r.Settles (r.Keeps Message.HasNumber) (Phrase.messageStatement body parent)
      (Phrase.messageStatement body parent') := by
  have hfield := fieldOf hbody none none rfl hparent
  have hskipped : r.Settles (r.Keeps Message.HasNumber)
      (Phrase.skippedStatement >>= fun _ => Pure.pure parent)
      (Phrase.skippedStatement >>= fun _ => Pure.pure parent') :=
    (Follows.skippedStatement.bind fun _ _ _ => .pure hparent).settles
  refine take?_bind (by simp) (.pure hparent) (look_bind 0 fun found found' hlook => ?_)
  intro t u hties
  have hdot := (hties.look 1).eq_some_iff (.mark '.') (by simp)
  have hsign := (hties.look 2).eq_some_iff (.mark '=') (by simp)
  rw [Bond.on_startsField_bind, Bond.on_startsField_bind,
    decide_eq_decide.mpr (or_congr hdot hsign)]
  generalize decide (t.lexeme? 1 = some (.mark '.') ∨ t.lexeme? 2 = some (.mark '=')) = starts
  rcases hlook with rfl | ⟨s, s', rfl, rfl⟩
  · split
    · refine (message hbody).bind_pure (fun _ _ h => ?_) t u hties
      exact (hparent.or h).congr (fun _ _ _ => hasNumber_addMessage _ _)
        fun _ _ _ => hasNumber_addMessage _ _
    · refine enum.bind_pure (fun _ _ h => ?_) t u hties
      exact (hparent.or h).congr (fun _ _ _ => hasNumber_addEnum _ _)
        fun _ _ _ => hasNumber_addEnum _ _
    · refine (extend hbody).bind_pure (fun _ _ h => ?_) t u hties
      exact (hparent.or h).congr (fun _ _ _ => hasNumber_addBlock _ _)
        fun _ _ _ => hasNumber_addBlock _ _
    · exact oneof hbody hparent t u hties
    · refine Follows.optionStatement.settles.bind_pure (fun _ _ _ => ?_) t u hties
      exact hparent.congr (fun _ _ _ => by rw [Message.hasNumber_iff, Message.hasNumber_iff])
        fun _ _ _ => by rw [Message.hasNumber_iff, Message.hasNumber_iff]
    · exact hskipped t u hties
    · exact hskipped t u hties
    · exact hfield t u hties
  · exact hfield t u hties

/-- Bodies in bodies to any depth. -/
theorem bodyWithin (depth : Nat) : r.Bodies (Phrase.bodyWithin depth) := by
  refine ⟨⟨_, Phrase.takes_bodyWithin depth⟩, ?_⟩
  induction depth with
  | zero =>
    exact fun name parent parent' _ => place_bind fun _ _ _ _ => FollowsAt.of_error.settlesAt
  | succ depth ih =>
    have hreads (s : Message) : Phrase.Reads (fun piece _ => Statement false piece)
        (Phrase.messageStatement (Phrase.bodyWithin depth) s) :=
      (Phrase.reads_messageStatement (Phrase.takes_bodyWithin depth) s).imp fun _ _ h => h.1
    have hbody : r.Bodies (Phrase.bodyWithin depth) := ⟨⟨_, Phrase.takes_bodyWithin depth⟩, ih⟩
    exact fun name parent parent' hparent =>
      .block hreads hreads (fun _ _ hs => messageStatement hbody hs) hparent

theorem methodStatement (options options' : List OptionSetting) :
    r.Settles Any (Phrase.methodStatement options) (Phrase.methodStatement options') :=
  take?_bind (by simp) (.pure trivial)
    (Follows.optionStatement.settles.bind_pure fun _ _ _ => trivial)

theorem method : r.Settles Any Phrase.method Phrase.method := by
  have hreads (s : List OptionSetting) : Phrase.Reads (fun piece _ => Statement false piece)
      (Phrase.methodStatement s) := (Phrase.reads_methodStatement s).imp fun _ _ h => h.1
  refine keyword_bind (named_bind fun position name t u hties _ => ?_)
  refine Follows.streamedType.bind_settles (fun input input' _ => keyword_bind ?_) t u hties
  refine Follows.streamedType.bind_settles fun output output' _ => ?_
  refine look_bind 0 fun found found' hlook => ?_
  refine ite (hlook.eq_some_iff (.mark '\x7b') (by simp)) (fun _ => ?_) fun _ => ?_
  · exact (Settles.block hreads hreads (fun _ _ _ => methodStatement _ _) trivial).bind_pure
      fun _ _ _ => trivial
  · exact (Follows.mark ';').settles.bind_pure fun _ _ _ => trivial

theorem serviceStatement (service service' : Service) :
    r.Settles Any (Phrase.serviceStatement service) (Phrase.serviceStatement service') := by
  refine take?_bind (by simp) (.pure trivial) (look_bind 0 fun found found' hlook => ?_)
  rcases hlook with rfl | ⟨s, s', rfl, rfl⟩
  · split
    · exact Follows.optionStatement.settles.bind_pure fun _ _ _ => trivial
    · exact method.bind_pure fun _ _ _ => trivial
    · exact (Follows.expected _).settles
  · exact (Follows.expected _).settles

theorem service : r.Settles Any Phrase.service Phrase.service := by
  have hreads (s : Service) : Phrase.Reads (fun piece _ => Statement false piece)
      (Phrase.serviceStatement s) := (Phrase.reads_serviceStatement s).imp fun _ _ h => h.1
  refine keyword_bind (named_bind fun position name t u hties _ => ?_)
  exact Settles.block hreads hreads (fun _ _ _ => serviceStatement _ _) trivial t u hties

section Files

variable {file file' : File}

theorem dialectStatement (hfile : r.KeepsFile file file') (isFirst : Bool) (word : String) :
    r.Follows r.KeepsFile (Phrase.dialectStatement isFirst word file)
      (Phrase.dialectStatement isFirst word file') := by
  refine .ite Iff.rfl (fun _ => ?_) fun _ => .place_bind fun _ => .failAt_bind _ _
  refine .skip_bind 1 (.mark_bind (.place_bind fun position => Follows.literal.bind ?_))
  rintro name _ rfl
  split
  · exact .failAt _ _
  · exact .mark_bind (.pure hfile)

theorem packageStatement (hfile : r.KeepsFile file file') :
    r.Follows r.KeepsFile (Phrase.packageStatement file) (Phrase.packageStatement file') := by
  refine .ite (by rw [hfile.2]) (fun _ => .place_bind fun _ => .failAt_bind _ _) fun _ => ?_
  exact .keyword_bind (Follows.dottedName.bind fun _ _ _ => .mark_bind (.pure ⟨hfile.1, rfl⟩))

theorem importStatement (hfile : r.KeepsFile file file') :
    r.Follows r.KeepsFile (Phrase.importStatement file) (Phrase.importStatement file') := by
  have hkind : r.Follows Any Phrase.importKind Phrase.importKind :=
    .take?_bind (by simp) (.pure trivial) (.take?_bind (by simp) (.pure trivial) (.pure trivial))
  exact .place_bind fun _ => .keyword_bind (hkind.bind fun _ _ _ =>
    Follows.literal.bind fun _ _ _ => .mark_bind (.pure hfile))

theorem fileStatement (hbody : r.Bodies body) (hfile : r.KeepsFile file file') (isFirst : Bool) :
    r.Settles r.KeepsFile (Phrase.fileStatement body isFirst file)
      (Phrase.fileStatement body isFirst file') := by
  refine take?_bind (by simp) (.pure hfile) (look_bind 0 fun found found' hlook => ?_)
  rcases hlook with rfl | ⟨s, s', rfl, rfl⟩
  · split
    · exact (dialectStatement hfile _ _).settles
    · exact (dialectStatement hfile _ _).settles
    · exact (packageStatement hfile).settles
    · exact (importStatement hfile).settles
    · exact Follows.optionStatement.settles.bind_pure fun _ _ _ => hfile
    · refine (message hbody).bind_pure fun a b h => ⟨(hfile.1.or h).congr ?_ ?_, hfile.2⟩
      · exact fun _ _ _ => File.hasNumber_addMessage _ _
      · exact fun _ _ _ => File.hasNumber_addMessage _ _
    · refine enum.bind_pure fun a b h => ⟨(hfile.1.or h).congr ?_ ?_, hfile.2⟩
      · exact fun _ _ _ => File.hasNumber_addEnum _ _
      · exact fun _ _ _ => File.hasNumber_addEnum _ _
    · exact service.bind_pure fun _ _ _ => hfile
    · refine (extend hbody).bind_pure fun a b h => ⟨(hfile.1.or h).congr ?_ ?_, hfile.2⟩
      · exact fun _ _ _ => File.hasNumber_addBlock _ _
      · exact fun _ _ _ => File.hasNumber_addBlock _ _
    · exact (Follows.expected _).settles
  · exact (Follows.expected _).settles

/-- The statements of a file: the numbers fit, or the error at the changed integer is there. -/
theorem fileStatements (hbody : r.Bodies body) (isFirst : Bool) {file file' : File} {t u : Tape}
    (hfile : r.KeepsFile file file') (hties : r.Tied t u)
    (hfaults : (Phrase.fileStatements body isFirst file t).2.faults = t.faults) :
    r.Settled r.KeepsFile (Phrase.fileStatements body isFirst file t) t.faults u.faults
      (Phrase.fileStatements body isFirst file' u) := by
  obtain ⟨B, htakes⟩ := hbody.takes
  by_cases hahead : t.ahead = []
  · have hnil : u.ahead = [] := by rw [hties.ahead, hahead, List.map_nil]
    rw [Phrase.fileStatements_of_nil hahead, Phrase.fileStatements_of_nil hnil]
    exact .kept hties rfl rfl hfile
  · have hcons : u.ahead ≠ [] := by
      rw [hties.ahead]
      simpa using hahead
    rw [Phrase.fileStatements_of_ne_nil hahead] at hfaults ⊢
    rw [Phrase.fileStatements_of_ne_nil hcons]
    have hless := Phrase.length_settled (Phrase.fileStatement body isFirst) file hahead
    have hreads (file : File) : Phrase.Reads (fun piece _ => Statement false piece)
        (Phrase.fileStatement body isFirst file) :=
      (Phrase.reads_fileStatement htakes).imp fun _ _ h => h.1
    have hgrows := Phrase.grows_settled (hreads file) t
    have hsame : (Phrase.settled (Phrase.fileStatement body isFirst) file t).2.faults = t.faults :=
      (hgrows.eq_of_length_le (hfaults ▸
        (Phrase.took_fileStatements htakes false _ _).1.length_le)).symm
    cases settled (hreads file) (fileStatement hbody hfile isFirst) hties hahead hsame with
    | kept hties' ht hu hfile' =>
      have hend := fileStatements hbody false hfile' hties' (hfaults.trans hsame.symm)
      rwa [ht, hu] at hend
    | putDown hunfit hlater =>
      exact .putDown hunfit
        (exists_later hlater (Phrase.took_fileStatements htakes false _ _).1)
termination_by t.ahead.length

end Files

end Settles

/-- A file that was read off its tokens is read off the tokens of the other text too, with
numbers that fit, or it is rejected there, first of all for the changed integer. -/
theorem ofTokens {file : File} {stop : Position} (h : File.ofTokens r.tokens stop = .ok file) :
    (∃ file', File.ofTokens (r.tokens.map r.token) (r.move stop) = .ok file' ∧
      r.Keeps File.HasNumber file file') ∨
    r.Unfit ∧ ∃ more,
      File.ofTokens (r.tokens.map r.token) (r.move stop) = .error (r.fault :: more) := by
  have hties : r.Tied ⟨r.tokens, stop, []⟩ ⟨r.tokens.map r.token, r.move stop, []⟩ :=
    ⟨rfl, rfl, List.suffix_refl _⟩
  have hempty : r.KeepsFile .empty .empty := by
    refine ⟨.none fun _ _ _ hnone => ?_, rfl⟩
    simp [File.HasNumber, File.empty] at hnone
  simp only [File.ofTokens, List.length_map] at h ⊢
  split at h
  swap
  · cases h
  next hfaults =>
  cases h
  cases Settles.fileStatements (Settles.bodyWithin r.tokens.length) true hempty hties hfaults with
  | kept _ _ hu hfile => exact .inl ⟨_, if_pos hu, hfile.1⟩
  | putDown hunfit hlater =>
    obtain ⟨later, hlater⟩ := hlater
    refine .inr ⟨hunfit, later.reverse, ?_⟩
    rw [hlater, if_neg (by simp), List.reverse_append]
    rfl

end Renumbering

end ProtoSchema
