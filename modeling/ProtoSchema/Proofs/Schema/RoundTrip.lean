import ProtoSchema.Proofs.Schema.Files
import ProtoSchema.Proofs.Schema.Parts

/-!
Messages written out and read back. A statement of a message takes the lexemes of its item and
adds to the message what the item stands for; groups, oneofs and nested messages hold items
themselves, and their bodies are shorter than they are. So a reader of bodies that is deep
enough reads the whole message back.
-/

namespace ProtoSchema.Written

open Phrase (Takes)
open Schema (OptionSetting Label)

variable {more lexemes rest : List Lexeme} {α : Type} {Q : α → Prop}

section Members

/-- No label comes first. -/
theorem takes_label?_none {f : Option Label → Phrase α}
    (hsetting : (lexemes ++ more)[1]? ≠ some (Lexeme.mark '='))
    (hlabel : ∀ label : Label, (lexemes ++ more)[0]? ≠ some (Lexeme.word label.text))
    (h : (f none).Takes lexemes more Q) : (Phrase.label? >>= f).Takes lexemes more Q := by
  have hnone : Phrase.label?.Takes [] (lexemes ++ more) (· = none) := by
    unfold Phrase.label?
    apply Takes.look_bind
    rw [List.nil_append, if_neg hsetting]
    apply Takes.look_bind
    rw [List.nil_append]
    split
    · next hlook => exact absurd hlook (hlabel .optional)
    · next hlook => exact absurd hlook (hlabel .required)
    · next hlook => exact absurd hlook (hlabel .repeated)
    · exact .pure rfl
  apply Takes.bind hnone
  intro found hfound
  rwa [hfound]

theorem takes_label?_some {f : Option Label → Phrase α} {label : Label}
    (hsetting : (rest ++ more)[0]? ≠ some (Lexeme.mark '='))
    (h : (f (some label)).Takes (.word label.text :: rest) more Q) :
    (Phrase.label? >>= f).Takes (.word label.text :: rest) more Q := by
  have hsome : Phrase.label?.Takes [] (.word label.text :: rest ++ more) (· = some label) := by
    unfold Phrase.label?
    apply Takes.look_bind
    rw [List.nil_append, List.cons_append, List.getElem?_cons_succ, if_neg hsetting]
    apply Takes.look_bind
    cases label with
    | optional => exact .pure rfl
    | required => exact .pure rfl
    | repeated => exact .pure rfl
  apply Takes.bind hsome
  intro found hfound
  rwa [hfound]

theorem takes_isGroup_of_ne {f : Bool → Phrase α}
    (hgroup : (lexemes ++ more)[0]? ≠ some (Lexeme.word "group"))
    (h : (f false).Takes lexemes more Q) : (Phrase.isGroup >>= f).Takes lexemes more Q := by
  have hfalse : Phrase.isGroup.Takes [] (lexemes ++ more) (· = false) := by
    unfold Phrase.isGroup
    apply Takes.look_bind
    apply Takes.look_bind
    rw [List.nil_append, if_neg fun h => hgroup h.1]
    exact .pure rfl
  apply Takes.bind hfalse
  intro found hfound
  rwa [hfound]

theorem takes_isGroup {f : Bool → Phrase α} {name : String}
    (h : (f true).Takes (.word "group" :: .word name :: .mark '=' :: rest) more Q) :
    (Phrase.isGroup >>= f).Takes (.word "group" :: .word name :: .mark '=' :: rest) more Q := by
  have htrue : Phrase.isGroup.Takes []
      (.word "group" :: .word name :: .mark '=' :: rest ++ more) (· = true) := by
    unfold Phrase.isGroup
    apply Takes.look_bind
    apply Takes.look_bind
    rw [if_pos ⟨rfl, rfl⟩]
    apply Takes.look_bind
    exact .pure rfl
  apply Takes.bind htrue
  intro found hfound
  rwa [hfound]

end Members

def Item.addTo (parent : Schema.Message) (item : Item) : Schema.Message :=
  { parent with
    fields := parent.fields ++ item.fields parent.oneofs.length
    oneofs := parent.oneofs ++ item.oneofs
    messages := parent.messages ++ item.messages
    enums := parent.enums ++ item.enums
    options := parent.options ++ item.options }

theorem foldl_addTo (items : List Item) (parent : Schema.Message) :
    items.foldl Item.addTo parent =
      { parent with
        fields := parent.fields ++ fieldsFrom parent.oneofs.length items
        oneofs := parent.oneofs ++ items.flatMap Item.oneofs
        messages := parent.messages ++ itemsMessages items
        enums := parent.enums ++ items.flatMap Item.enums
        options := parent.options ++ items.flatMap Item.options } := by
  induction items generalizing parent with
  | nil =>
    cases parent
    simp [fieldsFrom, itemsMessages]
  | cons item rest ih =>
    rw [List.foldl_cons, ih]
    simp [Item.addTo, fieldsFrom, itemsMessages]

def ReadsBodies (body : Phrase.BodyReader) (n : Nat) : Prop :=
  ∀ (items : List Item) (name : String) (parent : Schema.Message) (more : List Lexeme),
    (itemsLexemes items).length < n →
      (body name parent).Takes (braced (itemsLexemes items)) more
        (fun found => found.unplaced = items.foldl Item.addTo parent.unplaced)

variable {body : Phrase.BodyReader} {n : Nat}

theorem takes_group (hbody : ReadsBodies body n) (label : Option Label) (oneof : Option Nat)
    (head : Head) (capital : Phrase.startsWithCapital head.name.text = true) (items : List Item)
    (hitems : (itemsLexemes items).length < n) :
    (Phrase.group body label oneof).Takes
      (.word "group" :: (head.lexemes ++ braced (itemsLexemes items))) more
      (fun found =>
        found.1.unplaced = (Member.group head capital items).asField label oneof ∧
          found.2.unplaced = message head.name items) := by
  unfold Phrase.group
  rw [Head.lexemes_append]
  apply Takes.keyword_bind
  apply Takes.place_bind
  intro position
  apply Takes.identifier_bind
  rw [if_pos capital]
  apply Takes.mark_bind
  apply Takes.bind (takes_integer head.number)
  intro number hnumber
  apply Takes.bind (takes_settings head.options (by simp [braced]))
  intro options hoptions
  apply Takes.bind_last (hbody items "group" _ _ hitems)
  intro inner hinner
  apply Takes.pure
  refine ⟨?_, ?_⟩
  · simp only [Schema.Field.unplaced, hoptions, hnumber]
    rfl
  · rw [hinner, foldl_addTo]
    rfl

def Declares (m : Member) (label : Option Label) (oneof : Option Nat)
    (found : Schema.Field × List Schema.Message) : Prop :=
  found.1.unplaced = m.asField label oneof ∧ Schema.unplacedMessages found.2 = m.messages

/-- A member behind its label. -/
theorem takes_unlabelled (hbody : ReadsBodies body n) (label : Option Label) (oneof : Option Nat)
    (m : Member) (hm : m.lexemes.length ≤ n) :
    (Phrase.unlabelled body label oneof).Takes m.lexemes more (Declares m label oneof) := by
  cases m with
  | field type head =>
    rw [Member.lexemes, List.append_assoc]
    apply takes_isGroup_of_ne
    · rw [List.append_assoc]
      exact getElem?_heldType type (by decide) (by decide)
    · apply Takes.bind_last (takes_plainField label oneof type head)
      intro found hfound
      exact .pure ⟨hfound, rfl⟩
  | group head capital items =>
    have hitems : (itemsLexemes items).length < n := by
      simp only [Member.lexemes, braced, List.length_cons, List.length_append] at hm
      omega
    apply takes_isGroup
    apply Takes.bind_last (takes_group hbody label oneof head capital items hitems)
    intro found hfound
    apply Takes.pure
    refine ⟨hfound.1, ?_⟩
    rw [Schema.unplacedMessages, hfound.2]
    rfl

theorem getElem?_member (m : Member) {word : String} (hword : word ∈ leadingWords)
    (hmap : word ≠ "map") (hgroup : word ≠ "group") :
    (m.lexemes ++ more)[0]? ≠ some (Lexeme.word word) := by
  cases m with
  | field type head =>
    rw [Member.lexemes, List.append_assoc, List.append_assoc]
    exact getElem?_heldType type hword hmap
  | group head capital items => simpa [Member.lexemes] using hgroup.symm

/-- A member does not start like a setting. -/
theorem getElem?_one_member (m : Member) : (m.lexemes ++ more)[1]? ≠ some (Lexeme.mark '=') := by
  cases m with
  | field type head =>
    rw [Member.lexemes, List.append_assoc, List.append_assoc]
    exact getElem?_one_heldType type _
  | group head capital items => simp [Member.lexemes, Head.lexemes]

theorem getElem?_mark_member (m : Member) {c : Char} (hc : c ≠ '.') :
    (m.lexemes ++ more)[0]? ≠ some (Lexeme.mark c) := by
  cases m with
  | field type head =>
    cases type with
    | single type free =>
      obtain ⟨absolute, name⟩ := type
      cases absolute with
      | true => simpa [Member.lexemes, HeldType.lexemes, Reference.lexemes] using hc.symm
      | false => simp [Member.lexemes, HeldType.lexemes, Reference.lexemes, Name.lexemes]
    | map key value => simp [Member.lexemes, HeldType.lexemes]
  | group head capital items => simp [Member.lexemes]

theorem takes_field (hbody : ReadsBodies body n) (label : Option Label) (m : Member)
    (hm : m.lexemes.length ≤ n) :
    (Phrase.field body none).Takes (labelLexemes label ++ m.lexemes) more
      (Declares m label none) := by
  unfold Phrase.field
  cases label with
  | none =>
    apply takes_label?_none
    · exact getElem?_one_member m
    · intro label
      cases label <;> exact getElem?_member m (by decide) (by decide) (by decide)
    · exact takes_unlabelled hbody none none m hm
  | some label =>
    apply takes_label?_some
    · exact getElem?_mark_member m (by decide)
    · apply Takes.skip_bind [.word label.text]
      exact takes_unlabelled hbody (some label) none m hm

theorem takes_choice (hbody : ReadsBodies body n) (index : Nat) (m : Member)
    (hm : m.lexemes.length ≤ n) :
    (Phrase.field body (some index)).Takes m.lexemes more (Declares m none (some index)) := by
  unfold Phrase.field
  apply takes_label?_none
  · exact getElem?_one_member m
  · intro label
    cases label <;> exact getElem?_member m (by decide) (by decide) (by decide)
  · exact takes_unlabelled hbody none (some index) m hm

def withOptions (options : List OptionSetting) (oneof : Schema.Oneof) : Schema.Oneof :=
  { oneof with options := oneof.options ++ options }

theorem withOptions_nil : withOptions [] = id := by
  funext oneof
  cases oneof
  simp [withOptions]

theorem withOptions_comp (options others : List OptionSetting) :
    withOptions others ∘ withOptions options = withOptions (options ++ others) := by
  funext oneof
  simp [withOptions]

def Choice.addTo (index : Nat) (parent : Schema.Message) (choice : Choice) : Schema.Message :=
  { parent with
    fields := parent.fields ++ (choice.field? index).toList
    messages := parent.messages ++ choice.messages
    oneofs := parent.oneofs.modify index (withOptions choice.option?.toList) }

theorem foldl_addTo_oneof (index : Nat) (choices : List Choice) (parent : Schema.Message) :
    choices.foldl (Choice.addTo index) parent =
      { parent with
        fields := parent.fields ++ choices.filterMap (Choice.field? index)
        messages := parent.messages ++ choicesMessages choices
        oneofs := parent.oneofs.modify index
          (withOptions (choices.filterMap Choice.option?)) } := by
  induction choices generalizing parent with
  | nil =>
    cases parent
    simp [choicesMessages, withOptions_nil]
  | cons choice rest ih =>
    rw [List.foldl_cons, ih]
    simp only [Choice.addTo, choicesMessages, List.modify_modify_eq, withOptions_comp,
      List.append_assoc]
    cases choice <;> rfl

theorem takes_oneofStatement (hbody : ReadsBodies body n) (index : Nat) (choice : Choice)
    (h : choice.lexemes.length ≤ n) (parent : Schema.Message) :
    (Phrase.oneofStatement body index parent).Takes choice.lexemes more
      (fun found => found.unplaced = choice.addTo index parent.unplaced) := by
  unfold Phrase.oneofStatement
  cases choice with
  | member m =>
    apply Takes.not_take?_bind (getElem?_mark_member m (by decide))
    apply Takes.look_bind
    rw [if_neg (getElem?_member m (by decide) (by decide) (by decide))]
    unfold Phrase.fieldOf
    apply Takes.bind_last (takes_choice hbody index m h)
    intro found hfound
    apply Takes.pure
    obtain ⟨hfield, hgroups⟩ := hfound
    cases parent
    simp [Schema.Message.unplaced, Choice.addTo, Choice.field?, Choice.option?, Choice.messages,
      hfield, hgroups, Schema.unplacedMessages_append, withOptions_nil]
  | option setting =>
    have hother : (optionLexemes setting ++ more)[0]? ≠ some (Lexeme.mark ';') := by
      simp [optionLexemes]
    have hoption : (optionLexemes setting ++ more)[0]? = some (Lexeme.word "option") := rfl
    rw [Choice.lexemes]
    apply Takes.not_take?_bind hother
    apply Takes.look_bind
    rw [if_pos hoption]
    apply Takes.bind_last (takes_optionStatement setting)
    intro found hfound
    apply Takes.pure
    obtain ⟨name, fields, oneofs, messages, enums, extendBlocks, options, position⟩ := parent
    have honeofs := Schema.Oneof.map_unplaced_modify oneofs index [found]
    simp only [List.map_cons, List.map_nil, hfound] at honeofs
    simp [Phrase.addOneofOption, Schema.Message.unplaced, Choice.addTo, Choice.field?,
      Choice.option?, Choice.messages]
    exact honeofs

theorem Member.starts (m : Member) :
    ∃ lexeme others, m.lexemes = lexeme :: others ∧ lexeme ≠ .mark '\x7d' := by
  have hclose : (m.lexemes ++ [])[0]? ≠ some (Lexeme.mark '\x7d') :=
    getElem?_mark_member m (by decide)
  cases hlexemes : m.lexemes with
  | nil => cases m <;> simp [Member.lexemes] at hlexemes
  | cons lexeme others =>
    refine ⟨lexeme, others, rfl, fun heq => hclose ?_⟩
    rw [hlexemes, heq]
    rfl

theorem Choice.starts (choice : Choice) :
    ∃ lexeme others, choice.lexemes = lexeme :: others ∧ lexeme ≠ .mark '\x7d' := by
  cases choice with
  | member m => exact m.starts
  | option setting => exact ⟨_, _, rfl, by simp⟩

theorem Item.starts (item : Item) :
    ∃ lexeme others, item.lexemes = lexeme :: others ∧ lexeme ≠ .mark '\x7d' := by
  cases item with
  | member label m =>
    cases label with
    | none => exact m.starts
    | some label => exact ⟨.word label.text, m.lexemes, rfl, by simp⟩
  | oneof name choices => exact ⟨_, _, rfl, by simp⟩
  | message name items => exact ⟨_, _, rfl, by simp⟩
  | enum name items => exact ⟨_, _, rfl, by simp⟩
  | option setting => exact ⟨_, _, rfl, by simp⟩

theorem length_le_of_mem {ι : Type} {written : ι → List Lexeme} {items : List ι} {item : ι}
    (h : item ∈ items) : (written item).length ≤ (items.flatMap written).length := by
  rw [List.flatMap_def]
  exact (List.sublist_flatten_of_mem (List.mem_map_of_mem h)).length_le

theorem modify_last (oneofs : List Schema.Oneof) (last : Schema.Oneof)
    (f : Schema.Oneof → Schema.Oneof) :
    (oneofs ++ [last]).modify oneofs.length f = oneofs ++ [f last] := by
  induction oneofs with
  | nil => rfl
  | cons oneof rest ih => simp [ih]

theorem takes_oneof (hbody : ReadsBodies body n) (name : Identifier) (choices : List Choice)
    (h : (choicesLexemes choices).length ≤ n) (parent : Schema.Message) :
    (Phrase.oneof body parent).Takes (Item.oneof name choices).lexemes more
      (fun found => found.unplaced = (Item.oneof name choices).addTo parent.unplaced) := by
  rw [choicesLexemes_eq] at h
  rw [Item.lexemes, choicesLexemes_eq]
  unfold Phrase.oneof
  apply Takes.keyword_bind
  apply Takes.place_bind
  intro position
  apply Takes.identifier_bind
  apply Takes.imp (Phrase.takes_block Schema.Message.unplaced
    (Choice.addTo parent.oneofs.length) Choice.lexemes "oneof" choices
    (fun choice hchoice s _ => takes_oneofStatement hbody _ choice
      (Nat.le_trans (length_le_of_mem hchoice) h) s)
    (fun choice _ => choice.starts) _)
  intro found hfound
  rw [hfound, foldl_addTo_oneof]
  obtain ⟨_, fields, oneofs, _, _, _, _, _⟩ := parent
  have hlast := modify_last (oneofs.map Schema.Oneof.unplaced) ⟨name.text, [], .none⟩
    (withOptions (choices.filterMap Choice.option?))
  rw [List.length_map] at hlast
  simp [Schema.Message.unplaced, Item.addTo]
  exact ⟨rfl, hlast, rfl, rfl, rfl⟩

theorem takes_startsField {f : Bool → Phrase α}
    (h : (f (decide ((lexemes ++ more)[1]? = some (Lexeme.mark '.') ∨
      (lexemes ++ more)[2]? = some (Lexeme.mark '=')))).Takes lexemes more Q) :
    (Phrase.startsField >>= f).Takes lexemes more Q := by
  intro t ht
  rw [Bond.on_startsField_bind, Phrase.lexeme?_eq ht, Phrase.lexeme?_eq ht]
  exact h t ht

/-- A field or a group does not start like a statement of another kind, with or without a label. -/
theorem getElem?_labelled (label : Option Label) (m : Member) {word : String}
    (hword : word ∈ ["message", "enum", "extend", "oneof", "option", "reserved", "extensions"]) :
    (labelLexemes label ++ m.lexemes ++ more)[0]? ≠ some (Lexeme.word word) := by
  cases label with
  | none =>
    apply getElem?_member m
    · revert word; decide
    · rintro rfl
      revert hword
      decide
    · rintro rfl
      revert hword
      decide
  | some label =>
    intro hfirst
    have hlabel : label.text = word := Lexeme.word.inj (Option.some.inj hfirst)
    subst hlabel
    revert hword
    cases label <;> decide

theorem takes_fieldOf (hbody : ReadsBodies body n) (label : Option Label) (m : Member)
    (hm : m.lexemes.length ≤ n) (parent : Schema.Message) :
    (Phrase.fieldOf body none parent).Takes (labelLexemes label ++ m.lexemes) more
      (fun found => found.unplaced = (Item.member label m).addTo parent.unplaced) := by
  unfold Phrase.fieldOf
  apply Takes.bind_last (takes_field hbody label m hm)
  intro found hfound
  apply Takes.pure
  obtain ⟨hfield, hgroups⟩ := hfound
  cases parent
  simp [Schema.Message.unplaced, Item.addTo, hfield, hgroups, Schema.unplacedMessages_append]
  exact ⟨rfl, rfl, rfl, rfl, rfl⟩

theorem takes_message (hbody : ReadsBodies body n) (name : Identifier) (items : List Item)
    (h : (itemsLexemes items).length < n) :
    (Phrase.message body).Takes (Item.message name items).lexemes more
      (fun found => found.unplaced = message name items) := by
  unfold Phrase.message
  rw [Item.lexemes]
  apply Takes.keyword_bind
  apply Takes.place_bind
  intro position
  apply Takes.identifier_bind
  apply Takes.imp (hbody items "message" _ _ h)
  intro found hfound
  rw [hfound, foldl_addTo]
  rfl

theorem getElem?_mark_item (item : Item) {c : Char} (hc : c ≠ '.') :
    (item.lexemes ++ more)[0]? ≠ some (Lexeme.mark c) := by
  cases item with
  | member label m =>
    cases label with
    | none => exact getElem?_mark_member m hc
    | some label => simp [Item.lexemes, labelLexemes]
  | oneof name choices => simp [Item.lexemes]
  | message name items => simp [Item.lexemes]
  | enum name items => simp [Item.lexemes]
  | option setting => simp [Item.lexemes, optionLexemes]

theorem takes_messageStatement (hbody : ReadsBodies body n) (item : Item)
    (h : item.lexemes.length ≤ n) (parent : Schema.Message) :
    (Phrase.messageStatement body parent).Takes item.lexemes more
      (fun found => found.unplaced = item.addTo parent.unplaced) := by
  unfold Phrase.messageStatement
  apply Takes.not_take?_bind (getElem?_mark_item item (by decide))
  apply Takes.look_bind
  apply takes_startsField
  cases item with
  | member label m =>
    have hm : m.lexemes.length ≤ n := by
      rw [Item.lexemes, List.length_append] at h
      omega
    have hother (word : String) (hword : word ∈
        ["message", "enum", "extend", "oneof", "option", "reserved", "extensions"]) :
        (labelLexemes label ++ m.lexemes ++ more)[0]? ≠ some (Lexeme.word word) :=
      getElem?_labelled label m hword
    rw [Item.lexemes]
    split
    · next hlook _ => exact absurd hlook (hother "message" (by decide))
    · next hlook _ => exact absurd hlook (hother "enum" (by decide))
    · next hlook _ => exact absurd hlook (hother "extend" (by decide))
    · next hlook _ => exact absurd hlook (hother "oneof" (by decide))
    · next hlook => exact absurd hlook (hother "option" (by decide))
    · next hlook => exact absurd hlook (hother "reserved" (by decide))
    · next hlook => exact absurd hlook (hother "extensions" (by decide))
    · exact takes_fieldOf hbody label m hm parent
  | oneof name choices =>
    have hchoices : (choicesLexemes choices).length ≤ n := by
      simp only [Item.lexemes, braced, List.length_cons, List.length_append] at h
      omega
    exact takes_oneof hbody name choices hchoices parent
  | message name items =>
    have hitems : (itemsLexemes items).length < n := by
      simp only [Item.lexemes, braced, List.length_cons, List.length_append] at h
      omega
    apply Takes.bind_last (takes_message hbody name items hitems)
    intro found hfound
    apply Takes.pure
    cases parent
    have hmessages : Schema.unplacedMessages [found] = [message name items] := by
      rw [Schema.unplacedMessages, hfound]
      rfl
    simp [Schema.Message.unplaced, Item.addTo, Schema.unplacedMessages_append]
    exact ⟨rfl, rfl, hmessages, rfl, rfl⟩
  | enum name items =>
    apply Takes.bind_last (takes_enum name items)
    intro found hfound
    apply Takes.pure
    cases parent
    simp [Schema.Message.unplaced, Item.addTo, hfound]
    exact ⟨rfl, rfl, rfl, rfl, rfl⟩
  | option setting =>
    apply Takes.bind_last (takes_optionStatement setting)
    intro found hfound
    apply Takes.pure
    cases parent
    simp [Schema.Message.unplaced, Item.addTo, hfound]
    exact ⟨rfl, rfl, rfl, rfl, rfl⟩

theorem readsBodies_bodyWithin (d : Nat) : ReadsBodies (Phrase.bodyWithin d) d := by
  induction d with
  | zero => exact fun _ _ _ _ h => absurd h (Nat.not_lt_zero _)
  | succ d ih =>
    intro items name parent more hitems
    rw [itemsLexemes_eq] at hitems ⊢
    apply Phrase.takes_block Schema.Message.unplaced Item.addTo Item.lexemes name items
    · intro item hitem s behind
      apply takes_messageStatement ih item
      exact Nat.le_trans (length_le_of_mem hitem) (Nat.le_of_lt_succ hitems)
    · exact fun item _ => item.starts

def Holds (expected : Schema.Message) (file : Schema.File) : Prop :=
  ∃ found : Schema.Message,
    file = { Schema.File.empty with messages := [found] } ∧ found.unplaced = expected

theorem takes_fileStatement (hbody : ReadsBodies body n) (name : Identifier) (items : List Item)
    (h : (itemsLexemes items).length < n) :
    (Phrase.fileStatement body true .empty).Takes (Item.message name items).lexemes more
      (Holds (message name items)) := by
  unfold Phrase.fileStatement
  apply Takes.not_take?_bind (getElem?_mark_item _ (by decide))
  apply Takes.look_bind
  apply Takes.bind_last (takes_message hbody name items h)
  intro found hfound
  exact .pure ⟨found, rfl, hfound⟩

/-- A text that is one statement of a file, taken whole, is a file of that statement. -/
theorem ofTokens_of_takes {P : Schema.File → Prop} {tokens : List Token} {stop : Position}
    (h : tokens.map (·.lexeme) = lexemes) (hne : lexemes ≠ [])
    (htakes : (Phrase.fileStatement (Phrase.bodyWithin tokens.length) true .empty).Takes
      lexemes [] P) :
    ∃ file, Schema.File.ofTokens tokens stop = .ok file ∧ P file := by
  have htape : (⟨tokens, stop, []⟩ : Tape).ahead.map (·.lexeme) = lexemes ++ [] := by
    rw [List.append_nil]
    exact h
  obtain ⟨file, hon, hfile⟩ := htakes _ htape
  have hlength : tokens.length = lexemes.length := by rw [← h, List.length_map]
  have hend : (⟨tokens, stop, []⟩ : Tape).drop lexemes.length = ⟨[], stop, []⟩ := by
    rw [← hlength, Tape.drop, List.drop_length]
  refine ⟨file, ?_, hfile⟩
  rw [Schema.File.ofTokens, Phrase.fileStatements_of_ok hon (Phrase.length_drop_lt htape hne), hend,
    Phrase.fileStatements_of_nil rfl]
  rfl

theorem ofTokens_written (name : Identifier) (items : List Item) (tokens : List Token)
    (stop : Position) (h : tokens.map (·.lexeme) = (Item.message name items).lexemes) :
    ∃ file, Schema.File.ofTokens tokens stop = .ok file ∧ Holds (message name items) file := by
  have hitems : (itemsLexemes items).length < tokens.length := by
    rw [← List.length_map (f := Token.lexeme), h]
    simp only [Item.lexemes, braced, List.length_cons, List.length_append]
    omega
  exact ofTokens_of_takes h (by simp [Item.lexemes])
    (takes_fileStatement (readsBodies_bodyWithin tokens.length) name items hitems)

/-- A message that is written out is read back, places aside, as the only declaration of its
file: with its fields, oneofs, nested messages and groups, enums and options in their order. -/
theorem messages_read_back_as_written (name : Identifier) (items : List Item) :
    ∃ found : Schema.Message,
      Schema.File.read (Lexeme.text (Item.message name items).lexemes) =
          .ok { Schema.File.empty with messages := [found] } ∧
        found.unplaced = message name items := by
  obtain ⟨tokens, stop, hread, htokens⟩ :=
    Token.read_text _ (Item.message name items).readable
  obtain ⟨file, hfile, found, rfl, hfound⟩ := ofTokens_written name items tokens stop htokens
  refine ⟨found, ?_, hfound⟩
  rw [Schema.File.read, hread]
  exact hfile

end ProtoSchema.Written
