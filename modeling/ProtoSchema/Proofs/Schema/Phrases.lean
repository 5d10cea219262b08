import ProtoSchema.Proofs.Schema.Places
import ProtoSchema.Proofs.Schema.Recovery

/-!
Every phrase of the grammar reads alike what is the same but for its places, and gives what is
the same but for its places. The lemmas follow the phrases one by one; messages, groups, oneofs
and extend blocks are handed a reader of message bodies, and the bodies of two depths read
alike as long as the tokens are too few to nest that deeply.
-/

namespace ProtoSchema

open Schema

def Phrase.unlabelled (body : BodyReader) (label : Option Label) (oneof : Option Nat) :
    Phrase (Field × List Message) := do
  if ← isGroup then
    let found ← group body label oneof
    return (found.1, [found.2])
  else
    return (← plainField label oneof, [])

namespace Bond

open Token (Encloses)

variable {l : Bond} {n m : Nat} {c : Option (List Token)} {t u : Tape} {lexeme : Lexeme}

section Settings

theorem map_eq_of_same {α γ : Type} {view : α → γ} {a b : List α}
    (h : List.Forall₂ (Same view) a b) : a.map view = b.map view := by
  induction h with
  | nil => rfl
  | cons hfirst _ ih => rw [List.map_cons, List.map_cons, hfirst, ih]

theorem eq_of_sameWords {a b : List String} (h : List.Forall₂ l.SameWord a b) : a = b :=
  List.forall₂_eq_eq_eq (α := String) ▸ h.imp fun _ _ hword => hword.1

theorem dottedName : l.Alike n 1 (fun a b => a ≠ [] ∧ List.Forall₂ l.SameWord a b)
    Phrase.dottedName Phrase.dottedName :=
  .separated (by decide) .identifier

theorem typeName : l.Alike n 1 Eq Phrase.typeName Phrase.typeName := by
  refine (Alike.took (by decide)).bind fun absolute _ habsolute => ?_
  subst habsolute
  refine dottedName.bind fun name _ hname => .pure ?_
  rw [eq_of_sameWords hname.2]

theorem optionPart : l.Alike n 1 Eq Phrase.optionPart Phrase.optionPart := by
  refine .take? (by decide) ?_ ?_
  · refine typeName.bind fun name _ hname => (Alike.mark (by decide)).bind fun _ _ _ => .pure ?_
    rw [hname]
  · exact Alike.identifier.bind fun name _ hname => .pure (congrArg OptionPart.field hname.1)

/-- An aggregate in a block ends before the block does. -/
theorem aggregate : l.Alike n 1 Eq Phrase.aggregate Phrase.aggregate := by
  refine Alike.place.bind fun opening opening' hopening => ?_
  refine .open_bind fun _ c d t u hwithin hinside => ?_
  have haround := hinside.around
  rw [Phrase.on_tape_bind, Phrase.on_tape_bind, hinside.ahead, aggregateRest_carried haround]
  cases hrest : Phrase.aggregateRest 0 t.ahead with
  | some found =>
    obtain ⟨parts, behind⟩ := found
    have hsuffix := Phrase.aggregateRest_suffix hrest
    have hbehind : l.Around d behind := by
      cases c with
      | none =>
        subst hwithin
        exact haround
      | some after =>
        obtain ⟨others, hothers⟩ := haround.aggregateRest
        rw [hrest] at hothers
        cases hothers
        exact hwithin
    exact ⟨.ok rfl, (hinside.goOn hsuffix hbehind).mono (Nat.sub_le n 1), hsuffix,
      fun _ _ => hsuffix.length_le⟩
  | none =>
    cases c with
    | none =>
      subst hwithin
      obtain ⟨rfl, hspot⟩ := hopening
      have hsuffix : [] <:+ t.ahead := List.nil_suffix
      have hnone : l.Around none [] := haround
      have hend := (hinside.goOn hsuffix hnone).mono (Nat.sub_le n 1)
      rw [carried_nil hnone] at hend
      exact ⟨.error hspot, hend, hsuffix, fun _ ha => by cases ha⟩
    | some after =>
      obtain ⟨others, hothers⟩ := haround.aggregateRest
      rw [hrest] at hothers
      cases hothers

theorem isPlain_of_bareValue? {found : Option Lexeme} {value : String}
    (h : Phrase.bareValue? found = some value) :
    ∃ lexeme, found = some lexeme ∧ lexeme.IsPlain := by
  unfold Phrase.bareValue? at h
  split at h
  · exact ⟨_, rfl, by simp [Lexeme.IsPlain]⟩
  · exact ⟨_, rfl, by simp [Lexeme.IsPlain]⟩
  · exact ⟨_, rfl, by simp [Lexeme.IsPlain]⟩
  · cases h

theorem bareValue {α : Type} {R : α → α → Prop} {f g : String → Phrase α} {p q : Phrase α}
    (hsome : ∀ value, l.Alike (n - 1) (m - 1) R (f value) (g value)) (hnone : l.Alike n m R p q) :
    l.Alike n m R
      (Phrase.look 0 >>= fun found =>
        match Phrase.bareValue? found with
        | some value => Phrase.skip 1 >>= fun _ => f value
        | none => p)
      (Phrase.look 0 >>= fun found =>
        match Phrase.bareValue? found with
        | some value => Phrase.skip 1 >>= fun _ => g value
        | none => q) := by
  refine .first_bind fun c t u hties => ?_
  cases hvalue : Phrase.bareValue? (t.lexeme? 0) with
  | some value =>
    obtain ⟨lexeme, hlook, hplain⟩ := isPlain_of_bareValue? hvalue
    exact .skip_bind hties hlook hplain (hsome value)
  | none => exact hnone c t u hties

theorem signed {sign : Char} (hties : l.Ties n c t u) (hlook : t.lexeme? 0 = some (.mark sign))
    (hplain : (Lexeme.mark sign).IsPlain) :
    l.Outcome n c 0 Eq t ((Phrase.signed sign).on t) ((Phrase.signed sign).on u) :=
  .skip_bind hties hlook hplain (bareValue (fun _ => .pure rfl) (.expected _))

theorem constant : l.Alike n 0 Eq Phrase.constant Phrase.constant := by
  refine .first_bind fun c t u hties => ?_
  split
  · exact .of_alike hties Alike.literal.relax
  · exact .of_alike hties aggregate.relax
  · next hlook => exact signed hties hlook (by decide)
  · next hlook => exact signed hties hlook (by decide)
  · split
    · next value hvalue =>
      obtain ⟨lexeme, hlook, hplain⟩ := isPlain_of_bareValue? hvalue
      exact .skip_bind hties hlook hplain (.pure rfl)
    · exact Alike.expected _ c t u hties

theorem setting : l.Alike n 1 (Same OptionSetting.unplaced) Phrase.setting Phrase.setting := by
  refine Alike.place.bind fun _ _ _ => ?_
  refine (Alike.separated (by decide) optionPart).bind fun name name' hname => ?_
  refine (Alike.mark (by decide)).bind fun _ _ _ => constant.bind fun value _ hvalue => .pure ?_
  have hsame : name = name' := List.forall₂_eq_eq_eq (α := OptionPart) ▸ hname.2
  rw [hsame, hvalue, Same, OptionSetting.unplaced, OptionSetting.unplaced]

theorem settings : l.Alike n 0 (Same (List.map OptionSetting.unplaced)) Phrase.settings
    Phrase.settings := by
  refine .take? (by decide) ?_ (.pure rfl)
  exact (Alike.separated (by decide) setting).bind fun _ _ hfound =>
    (Alike.mark (by decide)).bind fun _ _ _ => .pure (map_eq_of_same hfound.2)

theorem optionStatement : l.Alike n 1 (Same OptionSetting.unplaced) Phrase.optionStatement
    Phrase.optionStatement :=
  (Alike.keyword _).bind fun _ _ _ => setting.bind fun _ _ hfound =>
    (Alike.mark (by decide)).bind fun _ _ _ => .pure hfound

/-- A statement that is passed over ends in its block. -/
theorem skippedStatement (hties : l.Ties n c t u) (hlook : t.lexeme? 0 = some lexeme)
    (hplain : lexeme.IsPlain) :
    l.Outcome n c 1 Any t (Phrase.skippedStatement.on t) (Phrase.skippedStatement.on u) := by
  have hstart := hties.place
  unfold Phrase.skippedStatement
  rw [Phrase.on_place_bind, Phrase.on_place_bind, Phrase.on_look_bind, Phrase.on_look_bind,
    hties.first]
  generalize t.place = start at hstart ⊢
  generalize u.place = start' at hstart ⊢
  generalize t.lexeme? 0 = found
  refine .skip_bind hties hlook hplain ?_
  intro c t u hties
  rw [Phrase.on_tape_bind, Phrase.on_tape_bind, hties.ahead, skippedRest_carried]
  have hbehind := hties.goOn (Phrase.skippedRest_suffix t.ahead) hties.around.skippedRest
  have hsuffix := Phrase.skippedRest_suffix t.ahead
  obtain ⟨rfl, hspot⟩ := hstart
  generalize Phrase.skippedRest t.ahead = rest at hbehind hsuffix ⊢
  obtain ⟨ended, behind⟩ := rest
  cases ended with
  | true => exact ⟨.ok trivial, hbehind, hsuffix, fun _ _ => hsuffix.length_le⟩
  | false => exact ⟨.error hspot, hbehind, hsuffix, fun _ ha => by cases ha⟩

end Settings

section Bodies

variable {body body' : Phrase.BodyReader}

def Named (l : Bond) (a b : Message) : Prop := a.unplaced = b.unplaced ∧ l.Word a.name

theorem unplacedMessages_eq {a b : List Message} (h : List.Forall₂ l.Named a b) :
    unplacedMessages a = unplacedMessages b := by
  induction h with
  | nil => rfl
  | cons hfirst _ ih => rw [unplacedMessages, unplacedMessages, hfirst.1, ih]

theorem words_of_named {a b : List Message} (h : List.Forall₂ l.Named a b) :
    ∀ m ∈ a, l.Word m.name := by
  induction h with
  | nil => exact List.forall_mem_nil _
  | cons hfirst _ ih => exact List.forall_mem_cons.mpr ⟨hfirst.2, ih⟩

def Bodies (l : Bond) (n : Nat) (body body' : Phrase.BodyReader) : Prop :=
  ∀ name parent parent', l.Named parent parent' →
    l.Alike n 1 l.Named (body name parent) (body' name parent')

theorem Bodies.mono {k : Nat} (h : l.Bodies n body body') (hk : k ≤ n) : l.Bodies k body body' :=
  fun name parent parent' hparent => (h name parent parent' hparent).mono hk

theorem on_label? (t : Tape) : Phrase.label?.on t = (.ok none, t) ∨
    ∃ label, Phrase.label?.on t = (.ok (some label), t) ∧
      t.lexeme? 0 = some (.word label.text) := by
  unfold Phrase.label?
  rw [Phrase.on_look_bind]
  split
  · exact .inl rfl
  · rw [Phrase.on_look_bind]
    split
    · next hlook => exact .inr ⟨.optional, rfl, hlook⟩
    · next hlook => exact .inr ⟨.required, rfl, hlook⟩
    · next hlook => exact .inr ⟨.repeated, rfl, hlook⟩
    · exact .inl rfl

theorem label? : l.Alike n 0 Eq Phrase.label? Phrase.label? := by
  refine (Alike.look 1).bind fun found found' hfound => ?_
  refine .ite (hfound.eq_some_iff _ (by decide)) (fun _ => .pure rfl) fun _ => ?_
  refine Alike.first.bind fun first _ hfirst => ?_
  subst hfirst
  split
  · exact .pure rfl
  · exact .pure rfl
  · exact .pure rfl
  · exact .pure rfl

/-- A label that was found is a word still ahead. -/
theorem label?_bind {α : Type} {R : α → α → Prop} {f g : Option Label → Phrase α}
    (hsome : ∀ label c t u, l.Ties n c t u → (∃ word, t.lexeme? 0 = some (.word word)) →
      l.Outcome n c m R t ((f (some label)).on t) ((g (some label)).on u))
    (hnone : l.Alike n m R (f none) (g none)) :
    l.Alike n m R (Phrase.label? >>= f) (Phrase.label? >>= g) := by
  intro c t u hties
  have hboth := label? c t u hties
  rw [Phrase.on_bind, Phrase.on_bind]
  rcases on_label? t with ht | ⟨label, ht, hlook⟩
  · rcases on_label? u with hu | ⟨label', hu, hlook'⟩
    · rw [ht, hu]
      exact hnone c t u hties
    · rw [ht, hu] at hboth
      cases hboth.results with
      | ok hR => cases hR
  · rcases on_label? u with hu | ⟨label', hu, hlook'⟩
    · rw [ht, hu] at hboth
      cases hboth.results with
      | ok hR => cases hR
    · rw [ht, hu] at hboth ⊢
      cases hboth.results with
      | ok hR =>
        cases hR
        exact hsome label c t u hties ⟨label.text, hlook⟩

theorem fieldType : l.Alike n 1 Eq Phrase.fieldType Phrase.fieldType := by
  refine .first_bind fun c t u hties => ?_
  have hnext := (hties.lexeme? 1).eq_some_iff (.mark '<') (by decide)
  rw [Phrase.on_look_bind, Phrase.on_look_bind]
  by_cases hmap : t.lexeme? 0 = some (.word "map") ∧ t.lexeme? 1 = some (.mark '<')
  · rw [if_pos hmap, if_pos ⟨hmap.1, hnext.mpr hmap.2⟩]
    refine .skip_two_bind hties hmap.1 (by decide) hmap.2 (by decide) ?_
    refine typeName.bind fun key _ hkey => (Alike.mark (by decide)).bind fun _ _ _ => ?_
    refine typeName.bind fun value _ hvalue => (Alike.mark (by decide)).bind fun _ _ _ => .pure ?_
    rw [hkey, hvalue]
  · rw [if_neg hmap, if_neg fun h => hmap ⟨h.1, hnext.mp h.2⟩]
    exact .of_alike hties (typeName.bind fun _ _ hname => .pure (congrArg FieldType.single hname))

theorem plainField (label : Option Label) (oneof : Option Nat) :
    l.Alike n 1 (Same Field.unplaced) (Phrase.plainField label oneof)
      (Phrase.plainField label oneof) := by
  refine Alike.place.bind fun _ _ _ => fieldType.bind fun type _ htype => ?_
  refine Alike.place.bind fun _ _ _ => Alike.identifier.bind fun name _ hname => ?_
  refine (Alike.mark (by decide)).bind fun _ _ _ => Alike.integer.bind fun number _ hnumber => ?_
  refine settings.bind fun options options' hoptions => ?_
  refine (Alike.mark (by decide)).bind fun _ _ _ => .pure ?_
  obtain ⟨rfl, _⟩ := hname
  subst htype hnumber
  rw [Same, Field.unplaced, Field.unplaced, hoptions]

theorem group (hbody : l.Bodies n body body') (label : Option Label) (oneof : Option Nat) :
    l.Alike n 1 (fun a b => a.1.unplaced = b.1.unplaced ∧ l.Named a.2 b.2)
      (Phrase.group body label oneof) (Phrase.group body' label oneof) := by
  refine (Alike.keyword _).bind fun _ _ _ => Alike.place.bind fun position position' hposition => ?_
  refine Alike.identifier.bind fun name _ hname => ?_
  obtain ⟨rfl, hword⟩ := hname
  have hempty : l.Named (Phrase.emptyMessage name position)
      (Phrase.emptyMessage name position') := ⟨rfl, hword⟩
  refine .ite Iff.rfl (fun _ => ?_) fun _ => .failAt_bind hposition _
  refine (Alike.mark (by decide)).bind fun _ _ _ => Alike.integer.bind fun number _ hnumber => ?_
  refine settings.bind fun options options' hoptions => ?_
  refine (hbody _ _ _ hempty).bind fun message _ hmessage => .pure ⟨?_, hmessage⟩
  subst hnumber
  rw [Field.unplaced, Field.unplaced, hoptions]

theorem isGroup : l.Alike n 0 Eq Phrase.isGroup Phrase.isGroup := by
  refine Alike.first.bind fun found _ hfound => (Alike.look 2).bind fun second _ hsecond => ?_
  subst hfound
  refine .ite (and_congr_right fun _ => hsecond.eq_some_iff _ (by decide)) (fun _ => ?_)
    fun _ => .pure rfl
  refine (Alike.look 1).bind fun first _ hfirst => .pure ?_
  rcases hfirst with rfl | ⟨rfl, rfl⟩
  · rfl
  · rfl

theorem unlabelled (hbody : l.Bodies n body body') (label : Option Label) (oneof : Option Nat) :
    l.Alike n 1 (fun a b => a.1.unplaced = b.1.unplaced ∧ List.Forall₂ l.Named a.2 b.2)
      (Phrase.unlabelled body label oneof) (Phrase.unlabelled body' label oneof) := by
  refine isGroup.bind fun isGroup _ heq => ?_
  subst heq
  refine .ite Iff.rfl (fun _ => ?_) fun _ => ?_
  · exact (group hbody label oneof).bind fun _ _ hfound => .pure ⟨hfound.1, .cons hfound.2 .nil⟩
  · exact (plainField label oneof).bind fun _ _ hfound => .pure ⟨hfound, .nil⟩

theorem field (hbody : l.Bodies n body body') (oneof : Option Nat) :
    l.Alike n 1 (fun a b => a.1.unplaced = b.1.unplaced ∧ List.Forall₂ l.Named a.2 b.2)
      (Phrase.field body oneof) (Phrase.field body' oneof) := by
  refine label?_bind (fun label c t u hties hword => ?_) (unlabelled hbody none oneof)
  obtain ⟨word, hlook⟩ := hword
  cases oneof with
  | none =>
    exact .skip_bind hties hlook (by simp [Lexeme.IsPlain])
      ((unlabelled hbody (some label) none).mono (Nat.sub_le n 1)).relax
  | some index => exact .of_alike hties (Alike.place.bind fun _ _ hspot => .failAt_bind hspot _)

theorem fieldOf (hbody : l.Bodies n body body') (oneof : Option Nat) {parent parent' : Message}
    (hparent : l.Named parent parent') :
    l.Alike n 1 l.Named (Phrase.fieldOf body oneof parent)
      (Phrase.fieldOf body' oneof parent') := by
  refine (field hbody oneof).bind fun found found' hfound => .pure ⟨?_, hparent.2⟩
  obtain ⟨hfield, hgroups⟩ := hfound
  have hsame := Message.unplaced_eq_iff.mp hparent.1
  simp [Message.unplaced_eq_iff, hsame, hfield, unplacedMessages_append,
    unplacedMessages_eq hgroups]

theorem addOneofOption (index : Nat) {option option' : OptionSetting}
    (hoption : option.unplaced = option'.unplaced) {parent parent' : Message}
    (hparent : l.Named parent parent') :
    l.Named (Phrase.addOneofOption index option parent)
      (Phrase.addOneofOption index option' parent') := by
  refine ⟨?_, hparent.2⟩
  have hsame := Message.unplaced_eq_iff.mp hparent.1
  have honeofs (parent : Message) (option : OptionSetting) :=
    Oneof.map_unplaced_modify parent.oneofs index [option]
  simp [Message.unplaced_eq_iff, Phrase.addOneofOption, hsame, honeofs, hoption]

theorem oneofStatement (hbody : l.Bodies n body body') (index : Nat) {parent parent' : Message}
    (hparent : l.Named parent parent') :
    l.Alike n 1 l.Named (Phrase.oneofStatement body index parent)
      (Phrase.oneofStatement body' index parent') := by
  refine .take? (by decide) (.pure hparent) (Alike.first.bind fun found _ hfound => ?_)
  subst hfound
  refine .ite Iff.rfl (fun _ => ?_) fun _ => fieldOf hbody (some index) hparent
  exact optionStatement.bind fun _ _ hoption => .pure (addOneofOption index hoption hparent)

theorem oneof (hbody : l.Bodies (n - 1) body body') {parent parent' : Message}
    (hparent : l.Named parent parent') :
    l.Alike n 1 l.Named (Phrase.oneof body parent) (Phrase.oneof body' parent') := by
  refine (Alike.keyword _).bind fun _ _ _ => Alike.place.bind fun position position' _ => ?_
  refine Alike.identifier.bind fun name _ hname => ?_
  obtain ⟨rfl, _⟩ := hname
  have hsame := Message.unplaced_eq_iff.mp hparent.1
  have hstate : l.Named
      { parent with oneofs := parent.oneofs ++ [⟨name, [], position⟩] }
      { parent' with oneofs := parent'.oneofs ++ [⟨name, [], position'⟩] } := by
    refine ⟨?_, hparent.2⟩
    simp [Message.unplaced_eq_iff, hsame, Oneof.unplaced]
  have hlength : parent'.oneofs.length = parent.oneofs.length := by
    simpa using (congrArg List.length hsame.2.2.1).symm
  rw [hlength]
  exact (Alike.block (fun _ s s' hs => oneofStatement hbody _ hs) "oneof" hstate).relax

theorem enumValue : l.Alike n 1 (Same EnumValue.unplaced) Phrase.enumValue Phrase.enumValue := by
  refine Alike.place.bind fun _ _ _ => Alike.identifier.bind fun name _ hname => ?_
  refine (Alike.mark (by decide)).bind fun _ _ _ => Alike.integer.bind fun number _ hnumber => ?_
  refine settings.bind fun options options' hoptions => ?_
  refine (Alike.mark (by decide)).bind fun _ _ _ => .pure ?_
  obtain ⟨rfl, _⟩ := hname
  subst hnumber
  rw [Same, EnumValue.unplaced, EnumValue.unplaced, hoptions]

def NamedEnum (l : Bond) (a b : Enum) : Prop := a.unplaced = b.unplaced ∧ l.Word a.name

theorem enumStatement {enum enum' : Enum} (henum : l.NamedEnum enum enum') :
    l.Alike n 1 l.NamedEnum (Phrase.enumStatement enum) (Phrase.enumStatement enum') := by
  have hsame := henum.1
  simp only [Enum.unplaced, Enum.mk.injEq] at hsame
  refine .take? (by decide) (.pure henum) (.first_bind fun c t u hties => ?_)
  split
  · refine .of_alike hties (optionStatement.bind fun option option' hoption => .pure ⟨?_, henum.2⟩)
    rw [Same] at hoption
    simp [Enum.unplaced, hsame, hoption]
  · next hlook =>
    exact (skippedStatement hties hlook (by decide)).bind fun _ _ _ => .pure henum
  · refine .of_alike hties (enumValue.bind fun value value' hvalue => .pure ⟨?_, henum.2⟩)
    rw [Same] at hvalue
    simp [Enum.unplaced, hsame, hvalue]

theorem enum : l.Alike n 1 l.NamedEnum Phrase.enum Phrase.enum := by
  refine (Alike.keyword _).bind fun _ _ _ => Alike.place.bind fun position position' _ => ?_
  refine Alike.identifier.bind fun name _ hname => ?_
  obtain ⟨rfl, hword⟩ := hname
  have hstate : l.NamedEnum ⟨name, [], [], position⟩ ⟨name, [], [], position'⟩ := ⟨rfl, hword⟩
  exact (Alike.block (fun _ s s' hs => enumStatement hs) "enum" hstate).relax

def NamesGroups (l : Bond) (a b : Extend) : Prop :=
  unplacedExtends [a] = unplacedExtends [b] ∧ ∀ m ∈ a.groups, l.Word m.name

theorem extendStatement (hbody : l.Bodies n body body') {extend extend' : Extend}
    (hextend : l.NamesGroups extend extend') :
    l.Alike n 1 l.NamesGroups (Phrase.extendStatement body extend)
      (Phrase.extendStatement body' extend') := by
  refine .take? (by decide) (.pure hextend)
    ((field hbody none).bind fun found found' hfound => .pure ⟨?_, ?_⟩)
  · have hsame := unplacedExtends_eq_iff.mp hextend.1
    simp [unplacedExtends_eq_iff, hsame, hfound.1, unplacedMessages_append,
      unplacedMessages_eq hfound.2]
  · exact List.forall_mem_append.mpr ⟨hextend.2, words_of_named hfound.2⟩

theorem extend (hbody : l.Bodies (n - 1) body body') :
    l.Alike n 1 l.NamesGroups (Phrase.extend body) (Phrase.extend body') := by
  refine (Alike.keyword _).bind fun _ _ _ => Alike.place.bind fun position position' _ => ?_
  refine typeName.bind fun extendee _ hextendee => ?_
  subst hextendee
  have hstate : l.NamesGroups ⟨extendee, [], [], position⟩ ⟨extendee, [], [], position'⟩ :=
    ⟨rfl, List.forall_mem_nil _⟩
  exact (Alike.block (fun _ s s' hs => extendStatement hbody hs) "extend" hstate).relax

theorem message (hbody : l.Bodies n body body') :
    l.Alike n 1 l.Named (Phrase.message body) (Phrase.message body') := by
  refine (Alike.keyword _).bind fun _ _ _ => Alike.place.bind fun position position' _ => ?_
  refine Alike.identifier.bind fun name _ hname => ?_
  obtain ⟨rfl, hword⟩ := hname
  have hempty : l.Named (Phrase.emptyMessage name position)
      (Phrase.emptyMessage name position') := ⟨rfl, hword⟩
  exact (hbody _ _ _ hempty).relax

theorem on_startsField_bind {α : Type} (f : Bool → Phrase α) (t : Tape) :
    (Phrase.startsField >>= f).on t =
      (f (decide (t.lexeme? 1 = some (.mark '.') ∨ t.lexeme? 2 = some (.mark '=')))).on t :=
  rfl

theorem messageStatement (hbody : l.Bodies n body body') {parent parent' : Message}
    (hparent : l.Named parent parent') :
    l.Alike n 1 l.Named (Phrase.messageStatement body parent)
      (Phrase.messageStatement body' parent') := by
  have hinner := hbody.mono (Nat.sub_le n 1)
  have hsame := Message.unplaced_eq_iff.mp hparent.1
  refine .take? (by decide) (.pure hparent) (.first_bind fun c t u hties => ?_)
  have hdot := (hties.lexeme? 1).eq_some_iff (.mark '.') (by decide)
  have hsign := (hties.lexeme? 2).eq_some_iff (.mark '=') (by decide)
  rw [on_startsField_bind, on_startsField_bind, decide_eq_decide.mpr (or_congr hdot hsign)]
  generalize decide (t.lexeme? 1 = some (.mark '.') ∨ t.lexeme? 2 = some (.mark '=')) = starts
  split
  · refine .of_alike hties ((message hbody).bind fun _ _ hfound => .pure ⟨?_, hparent.2⟩)
    simp [Message.unplaced_eq_iff, hsame, unplacedMessages_append, unplacedMessages_singleton,
      hfound.1]
  · refine .of_alike hties (enum.bind fun _ _ hfound => .pure ⟨?_, hparent.2⟩)
    simp [Message.unplaced_eq_iff, hsame, hfound.1]
  · refine .of_alike hties ((extend hinner).bind fun _ _ hfound => .pure ⟨?_, hparent.2⟩)
    simp [Message.unplaced_eq_iff, hsame, unplacedExtends_append, hfound.1]
  · exact .of_alike hties (oneof hinner hparent)
  · refine .of_alike hties (optionStatement.bind fun _ _ hfound => .pure ⟨?_, hparent.2⟩)
    rw [Same] at hfound
    simp [Message.unplaced_eq_iff, hsame, hfound]
  · next hlook =>
    exact (skippedStatement hties hlook (by decide)).bind fun _ _ _ => .pure hparent
  · next hlook =>
    exact (skippedStatement hties hlook (by decide)).bind fun _ _ _ => .pure hparent
  · exact .of_alike hties (fieldOf hbody none hparent)

/-- Bodies read alike at two depths that the tokens do not reach. -/
theorem bodyWithin (d e : Nat) (h : d = e ∨ n < d ∧ n < e) :
    l.Bodies n (Phrase.bodyWithin d) (Phrase.bodyWithin e) := by
  induction d generalizing e n with
  | zero =>
    intro name parent parent' hparent
    rcases h with rfl | ⟨hd, _⟩
    · exact Alike.place.bind fun _ _ hspot => .failAt hspot _
    · exact absurd hd (Nat.not_lt_zero n)
  | succ d ih =>
    intro name parent parent' hparent
    cases e with
    | zero =>
      rcases h with habsurd | ⟨_, he⟩
      · cases habsurd
      · exact absurd he (Nat.not_lt_zero n)
    | succ e =>
      refine .block (fun hn s s' hs => messageStatement (ih e ?_) hs) name hparent
      omega

end Bodies

section Services

def SameSide (a b : Bool × TypeName × Position) : Prop := a.1 = b.1 ∧ a.2.1 = b.2.1

theorem streamedType : l.Alike n 1 SameSide Phrase.streamedType Phrase.streamedType := by
  have htyped (m : Nat) (streams : Bool) : l.Alike m 0 SameSide
      (do
        let position ← Phrase.place
        let name ← Phrase.typeName
        Phrase.mark ')'
        return (streams, name, position))
      (do
        let position ← Phrase.place
        let name ← Phrase.typeName
        Phrase.mark ')'
        return (streams, name, position)) :=
    Alike.place.bind fun _ _ _ => typeName.bind fun _ _ hname =>
      (Alike.mark (by decide)).bind fun _ _ _ => .pure ⟨rfl, hname⟩
  refine (Alike.mark (by decide)).bind fun _ _ _ => (Alike.look 1).bind fun next next' hnext => ?_
  refine .first_bind fun c t u hties => ?_
  have hclose := not_congr (hnext.eq_some_iff (.mark ')') (by decide))
  have hdot := not_congr (hnext.eq_some_iff (.mark '.') (by decide))
  by_cases hstreams : t.lexeme? 0 = some (.word "stream") ∧ next ≠ some (.mark ')') ∧
      next ≠ some (.mark '.')
  · rw [decide_eq_true hstreams,
      decide_eq_true ⟨hstreams.1, hclose.mpr hstreams.2.1, hdot.mpr hstreams.2.2⟩]
    exact .skip_bind hties hstreams.1 (by decide) (htyped _ true)
  · rw [decide_eq_false hstreams,
      decide_eq_false fun h => hstreams ⟨h.1, hclose.mp h.2.1, hdot.mp h.2.2⟩]
    exact .of_alike hties (htyped n false)

theorem methodStatement {options options' : List OptionSetting}
    (h : Same (List.map OptionSetting.unplaced) options options') :
    l.Alike n 1 (Same (List.map OptionSetting.unplaced)) (Phrase.methodStatement options)
      (Phrase.methodStatement options') := by
  refine .take? (by decide) (.pure h) (optionStatement.bind fun _ _ hoption => .pure ?_)
  rw [Same] at h hoption ⊢
  simp [h, hoption]

theorem method : l.Alike n 1 (Same Method.unplaced) Phrase.method Phrase.method := by
  refine (Alike.keyword _).bind fun _ _ _ => Alike.place.bind fun position position' _ => ?_
  refine Alike.identifier.bind fun name _ hname => streamedType.bind fun input input' hinput => ?_
  refine (Alike.keyword _).bind fun _ _ _ => streamedType.bind fun output output' houtput => ?_
  refine Alike.first.bind fun found _ hfound => ?_
  subst hfound
  obtain ⟨rfl, _⟩ := hname
  have hmethod {options options' : List OptionSetting}
      (hoptions : Same (List.map OptionSetting.unplaced) options options') :
      Same Method.unplaced
        ⟨name, input.2.1, input.2.2, input.1, output.2.1, output.2.2, output.1, options, position⟩
        ⟨name, input'.2.1, input'.2.2, input'.1, output'.2.1, output'.2.2, output'.1, options',
          position'⟩ := by
    rw [Same] at hoptions ⊢
    simp [Method.unplaced, hinput.1, hinput.2, houtput.1, houtput.2, hoptions]
  refine .ite Iff.rfl (fun _ => ?_) fun _ => ?_
  · exact (Alike.block (fun _ s s' hs => methodStatement hs) "rpc" rfl).bind fun _ _ hoptions =>
      .pure (hmethod hoptions)
  · exact (Alike.mark (by decide)).bind fun _ _ _ =>
      (Alike.pure (R := Eq) rfl).bind fun _ _ hoptions => .pure (hmethod (congrArg _ hoptions))

theorem serviceStatement {service service' : Service} (h : Same Service.unplaced service service') :
    l.Alike n 1 (Same Service.unplaced) (Phrase.serviceStatement service)
      (Phrase.serviceStatement service') := by
  have hsame := h
  simp only [Same, Service.unplaced, Service.mk.injEq] at hsame
  refine .take? (by decide) (.pure h) (.first_bind fun c t u hties => ?_)
  split
  · refine .of_alike hties (optionStatement.bind fun _ _ hoption => .pure ?_)
    rw [Same] at hoption
    simp [Same, Service.unplaced, hsame, hoption]
  · refine .of_alike hties (method.bind fun _ _ hfound => .pure ?_)
    rw [Same] at hfound
    simp [Same, Service.unplaced, hsame, hfound]
  · exact .of_alike hties (.expected _)

theorem service : l.Alike n 1 (Same Service.unplaced) Phrase.service Phrase.service := by
  refine (Alike.keyword _).bind fun _ _ _ => Alike.place.bind fun position position' _ => ?_
  refine Alike.identifier.bind fun name _ hname => ?_
  obtain ⟨rfl, _⟩ := hname
  have hstate : Same Service.unplaced ⟨name, [], [], position⟩ ⟨name, [], [], position'⟩ := rfl
  exact (Alike.block (fun _ s s' hs => serviceStatement hs) "service" hstate).relax

end Services

end Bond

end ProtoSchema
