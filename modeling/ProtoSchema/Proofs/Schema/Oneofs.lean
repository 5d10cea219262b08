import ProtoSchema.Proofs.Schema.Bodies

/-!
The members of oneofs. The fields that are read in the block of a oneof get its index, which is
the number of the oneofs in front of it, and the block is read to its end before any other field.
So the fields of a message fit its oneofs: each index is that of a oneof, the fields with it are
those whose names stand in the block, they stand one behind the other, and the indices ascend.
This stays so when fields are left out.
-/

namespace ProtoSchema

open Schema
open Phrase (emptyMessage addOneofOption)

/-- What a field says of the oneof that it belongs to, with its name and place. -/
structure Member where
  name : String
  oneof : Option Nat
  position : Position

namespace Member

def Stands (tokens : List Token) (member : Member) : Prop :=
  ∃ word, ⟨.word word, member.position⟩ ∈ tokens ∧
    (member.name = word ∨ member.name = word.map Char.toLower)

variable {member : Member} {tokens front piece : List Token}

theorem Stands.mono (h : member.Stands front) (hfront : front <:+: tokens) :
    member.Stands tokens := by
  obtain ⟨word, hword, hname⟩ := h
  exact ⟨word, hfront.subset hword, hname⟩

/-- No two tokens have the same place. -/
theorem Stands.not_stands (h : member.Stands piece)
    (hapart : ((front ++ piece).map (·.position)).Nodup) : ¬member.Stands front := by
  rintro ⟨other, hother, _⟩
  obtain ⟨word, hword, _⟩ := h
  rw [List.map_append] at hapart
  exact (List.nodup_append.mp hapart).2.2 _ (List.mem_map_of_mem hother) _
    (List.mem_map_of_mem hword) rfl

end Member

def Together (index : Nat) (members : List Member) : Prop :=
  ∃ front run back, members = front ++ (run ++ back) ∧ (∀ m ∈ run, m.oneof = some index) ∧
    ∀ m ∈ front ++ back, m.oneof ≠ some index

/-- The fields belong to the oneofs with the given names and places. -/
structure OneofsFit (tokens : List Token) (oneofs : List (String × Position))
    (members : List Member) : Prop where
  named : ∀ member ∈ members, member.Stands tokens
  lt_length : ∀ member ∈ members, ∀ index, member.oneof = some index → index < oneofs.length
  inside : ∀ index name position, oneofs[index]? = some (name, position) →
    ∃ piece inner, piece <:+: tokens ∧ NamedBlock "oneof" name position inner piece ∧
      ∀ member ∈ members, member.oneof = some index ↔ member.Stands inner
  together : ∀ index, Together index members
  ascending : (members.filterMap (·.oneof)).Pairwise (· ≤ ·)

section Lists

variable {index : Nat} {members fewer more : List Member}

theorem Together.sublist (h : Together index members) (hfewer : fewer.Sublist members) :
    Together index fewer := by
  obtain ⟨front, run, back, rfl, hrun, hothers⟩ := h
  obtain ⟨front', rest, rfl, hfront, hrest⟩ := List.sublist_append_iff.mp hfewer
  obtain ⟨run', back', rfl, hrun', hback⟩ := List.sublist_append_iff.mp hrest
  refine ⟨front', run', back', rfl, fun m hm => hrun m (hrun'.subset hm), fun m hm => ?_⟩
  exact hothers m ((hfront.append hback).subset hm)

theorem Together.append (h : Together index members) (hmore : ∀ m ∈ more, m.oneof ≠ some index) :
    Together index (members ++ more) := by
  obtain ⟨front, run, back, rfl, hrun, hothers⟩ := h
  refine ⟨front, run, back ++ more, by simp, hrun, ?_⟩
  rw [← List.append_assoc]
  exact List.forall_mem_append.mpr ⟨hothers, hmore⟩

theorem together_append (h : ∀ m ∈ members, m.oneof ≠ some index)
    (hmore : ∀ m ∈ more, m.oneof = some index) : Together index (members ++ more) :=
  ⟨members, more, [], by simp, hmore, by simpa using h⟩

end Lists

namespace OneofsFit

variable {tokens front piece inner : List Token} {oneofs : List (String × Position)}
  {members fewer added : List Member} {member : Member} {name : String} {position : Position}

theorem empty : OneofsFit [] [] [] where
  named := List.forall_mem_nil _
  lt_length := List.forall_mem_nil _
  inside index name position h := by simp at h
  together index := ⟨[], [], [], rfl, List.forall_mem_nil _, List.forall_mem_nil _⟩
  ascending := .nil

theorem mono (h : OneofsFit front oneofs members) (hfront : front <:+: tokens) :
    OneofsFit tokens oneofs members where
  named member hmember := (h.named member hmember).mono hfront
  lt_length := h.lt_length
  inside index name position honeof := by
    obtain ⟨piece, inner, hpiece, hblock, hinside⟩ := h.inside index name position honeof
    exact ⟨piece, inner, hpiece.trans hfront, hblock, hinside⟩
  together := h.together
  ascending := h.ascending

/-- Fields may be left out. -/
theorem sublist (h : OneofsFit tokens oneofs members) (hfewer : fewer.Sublist members) :
    OneofsFit tokens oneofs fewer where
  named member hmember := h.named member (hfewer.subset hmember)
  lt_length member hmember := h.lt_length member (hfewer.subset hmember)
  inside index name position honeof := by
    obtain ⟨piece, inner, hpiece, hblock, hinside⟩ := h.inside index name position honeof
    exact ⟨piece, inner, hpiece, hblock, fun member hm => hinside member (hfewer.subset hm)⟩
  together index := (h.together index).sublist hfewer
  ascending := h.ascending.sublist (hfewer.filterMap _)

theorem oneof_ne_length (h : OneofsFit front oneofs members) :
    ∀ m ∈ members, m.oneof ≠ some oneofs.length :=
  fun m hm hlast => absurd (h.lt_length m hm _ hlast) (Nat.lt_irrefl _)

theorem named_append (h : OneofsFit front oneofs members) (hadded : ∀ m ∈ added, m.Stands piece) :
    ∀ m ∈ members ++ added, m.Stands (front ++ piece) := by
  refine List.forall_mem_append.mpr ⟨fun m hm => ?_, fun m hm => ?_⟩
  · exact (h.named m hm).mono (List.prefix_append _ _).isInfix
  · exact (hadded m hm).mono (List.suffix_append _ _).isInfix

/-- What is read behind the block of a oneof adds nothing to it. -/
theorem inside_append (h : OneofsFit front oneofs members)
    (hapart : ((front ++ piece).map (·.position)).Nodup) {index : Nat}
    (honeof : oneofs[index]? = some (name, position))
    (hadded : ∀ m ∈ added, m.oneof ≠ some index ∧ m.Stands piece) :
    ∃ block inner, block <:+: front ++ piece ∧ NamedBlock "oneof" name position inner block ∧
      ∀ m ∈ members ++ added, m.oneof = some index ↔ m.Stands inner := by
  obtain ⟨block, inner, hpiece, hblock, hinside⟩ := h.inside index name position honeof
  refine ⟨block, inner, hpiece.trans (List.prefix_append _ _).isInfix, hblock,
    List.forall_mem_append.mpr ⟨hinside, fun m hm => ?_⟩⟩
  obtain ⟨hdiffers, hstands⟩ := hadded m hm
  exact iff_of_false hdiffers fun hinner =>
    hstands.not_stands hapart (hinner.mono (hblock.isInfix.trans hpiece))

/-- The last block has just the fields that are added with it. -/
theorem inside_last (h : OneofsFit front oneofs members)
    (hapart : ((front ++ piece).map (·.position)).Nodup)
    (hblock : NamedBlock "oneof" name position inner piece)
    (hadded : ∀ m ∈ added, m.oneof = some oneofs.length ∧ m.Stands inner) :
    ∀ m ∈ members ++ added, m.oneof = some oneofs.length ↔ m.Stands inner := by
  refine List.forall_mem_append.mpr ⟨fun m hm => ?_, fun m hm => ?_⟩
  · exact iff_of_false (h.oneof_ne_length m hm) fun hinner =>
      (hinner.mono hblock.isInfix).not_stands hapart (h.named m hm)
  · exact iff_of_true (hadded m hm).1 (hadded m hm).2

theorem ascending_append (h : OneofsFit front oneofs members)
    (hadded : ∀ m ∈ added, m.oneof = some oneofs.length) :
    ((members ++ added).filterMap (·.oneof)).Pairwise (· ≤ ·) := by
  have hlast : ∀ index ∈ added.filterMap (·.oneof), index = oneofs.length := by
    intro index hfound
    obtain ⟨m, hm, hfound⟩ := List.mem_filterMap.mp hfound
    exact Option.some.inj (hfound.symm.trans (hadded m hm))
  rw [List.filterMap_append, List.pairwise_append]
  refine ⟨h.ascending, List.pairwise_of_forall_mem_list fun a ha b hb => ?_, fun a ha b hb => ?_⟩
  · rw [hlast a ha, hlast b hb]
  · obtain ⟨m, hm, hfound⟩ := List.mem_filterMap.mp ha
    rw [hlast b hb]
    exact Nat.le_of_lt (h.lt_length m hm a hfound)

/-- Behind the tokens that were read a field outside of any oneof is added. -/
theorem addLoose (h : OneofsFit front oneofs members)
    (hapart : ((front ++ piece).map (·.position)).Nodup) (hloose : member.oneof = none)
    (hstands : member.Stands piece) : OneofsFit (front ++ piece) oneofs (members ++ [member]) := by
  have hdiffers (index : Nat) : member.oneof ≠ some index := by rw [hloose]; exact nofun
  refine ⟨h.named_append (by simpa using hstands), ?_, fun index name position honeof => ?_,
    fun index => (h.together index).append (by simpa using hdiffers index), ?_⟩
  · refine List.forall_mem_append.mpr ⟨h.lt_length, ?_⟩
    rw [List.forall_mem_singleton]
    exact fun index hindex => absurd hindex (hdiffers index)
  · exact h.inside_append hapart honeof (by simpa using ⟨hdiffers index, hstands⟩)
  · simpa [List.filterMap_append, hloose] using h.ascending

/-- Behind the tokens that were read a oneof is added with the fields that stand in it. -/
theorem addBlock (h : OneofsFit front oneofs members)
    (hapart : ((front ++ piece).map (·.position)).Nodup)
    (hblock : NamedBlock "oneof" name position inner piece)
    (hindex : ∀ m ∈ added, m.oneof = some oneofs.length) (hstands : ∀ m ∈ added, m.Stands inner) :
    OneofsFit (front ++ piece) (oneofs ++ [(name, position)]) (members ++ added) := by
  have hpiece (m : Member) (hm : m ∈ added) : m.Stands piece := (hstands m hm).mono hblock.isInfix
  have hdiffers {index : Nat} (hold : index ≠ oneofs.length) (m : Member) (hm : m ∈ added) :
      m.oneof ≠ some index :=
    fun hfound => hold (Option.some.inj (hfound.symm.trans (hindex m hm)))
  refine ⟨h.named_append hpiece, ?_, fun index other place honeof => ?_, fun index => ?_,
    h.ascending_append hindex⟩
  · rw [List.length_append, List.length_singleton]
    refine List.forall_mem_append.mpr ⟨fun m hm index hfound => ?_, fun m hm index hfound => ?_⟩
    · exact Nat.lt_succ_of_lt (h.lt_length m hm index hfound)
    · obtain rfl := Option.some.inj ((hindex m hm).symm.trans hfound)
      exact Nat.lt_succ_self _
  · by_cases hlast : index = oneofs.length
    · subst hlast
      rw [List.getElem?_concat_length] at honeof
      cases honeof
      exact ⟨piece, inner, (List.suffix_append _ _).isInfix, hblock,
        h.inside_last hapart hblock fun m hm => ⟨hindex m hm, hstands m hm⟩⟩
    · have hlt : index < (oneofs ++ [(name, position)]).length :=
        (List.getElem?_eq_some_iff.mp honeof).1
      rw [List.length_append, List.length_singleton] at hlt
      rw [List.getElem?_append_left (by omega)] at honeof
      exact h.inside_append hapart honeof fun m hm => ⟨hdiffers hlast m hm, hpiece m hm⟩
  · by_cases hlast : index = oneofs.length
    · rw [hlast]
      exact together_append h.oneof_ne_length hindex
    · exact (h.together index).append (hdiffers hlast)

end OneofsFit

section Reading

variable {B : BodyRelation} {tokens front piece inner : List Token} {message next : Message}

def Schema.Field.member (field : Schema.Field) : Member := ⟨field.name, field.oneof, field.position⟩

def Schema.Oneof.head (oneof : Oneof) : String × Position := (oneof.name, oneof.position)

abbrev Schema.Message.OneofsFit (tokens : List Token) (message : Message) : Prop :=
  ProtoSchema.OneofsFit tokens (message.oneofs.map (·.head)) (message.fields.map (·.member))

theorem FieldTokens.stands {oneof : Option Nat} {field : Schema.Field} {groups : List Message}
    (h : FieldTokens B oneof piece field groups) :
    field.oneof = oneof ∧ field.member.Stands piece := by
  cases h with
  | plain _ hnumber honeof => exact ⟨honeof, field.name, hnumber.mem, .inl rfl⟩
  | group hpiece _ _ _ hname _ honeof hposition =>
    refine ⟨honeof, _, ?_, .inr hname⟩
    rw [Schema.Field.member, hposition]
    exact hpiece.mem

theorem map_head_addOneofOption (index : Nat) (option : OptionSetting) (message : Message) :
    (addOneofOption index option message).oneofs.map (·.head) = message.oneofs.map (·.head) := by
  refine List.ext_getElem? fun place => ?_
  rw [addOneofOption, List.getElem?_map, List.getElem?_map, List.getElem?_modify,
    Option.map_eq_map, Option.map_map]
  refine Option.map_congr fun oneof _ => ?_
  rw [Function.comp_apply]
  split
  · rfl
  · rfl

/-- The block of a oneof brings fields with its index, and their names stand in it. -/
theorem exists_of_oneofSteps {index : Nat} (h : Steps (OneofStep B index) inner message next) :
    next.oneofs.map (·.head) = message.oneofs.map (·.head) ∧ ∃ added : List Member,
      next.fields.map (·.member) = message.fields.map (·.member) ++ added ∧
      (∀ m ∈ added, m.oneof = some index) ∧ ∀ m ∈ added, m.Stands inner := by
  refine h.keepsWithin (P := fun m => m.oneofs.map (·.head) = message.oneofs.map (·.head) ∧
    ∃ added : List Member, m.fields.map (·.member) = message.fields.map (·.member) ++ added ∧
      (∀ m ∈ added, m.oneof = some index) ∧ ∀ m ∈ added, m.Stands inner) (List.infix_refl _)
    (fun piece s next hpiece hstep hs => ?_)
    ⟨rfl, [], (List.append_nil _).symm, List.forall_mem_nil _, List.forall_mem_nil _⟩
  obtain ⟨honeofs, added, hfields, hindex, hstands⟩ := hs
  cases hstep with
  | skipped => exact ⟨honeofs, added, hfields, hindex, hstands⟩
  | option option =>
    exact ⟨(map_head_addOneofOption _ _ _).trans honeofs, added, hfields, hindex, hstands⟩
  | @field field _ hfield =>
    obtain ⟨hnext, hnamed⟩ := hfield.stands
    refine ⟨honeofs, added ++ [field.member], ?_, ?_, ?_⟩
    · rw [List.map_append, hfields, List.append_assoc]
      rfl
    · exact List.forall_mem_append.mpr ⟨hindex, by rwa [List.forall_mem_singleton]⟩
    · refine List.forall_mem_append.mpr ⟨hstands, ?_⟩
      rw [List.forall_mem_singleton]
      exact hnamed.mono hpiece

/-- A statement of a message keeps its fields with their oneofs. -/
theorem MessageStep.oneofsFit (h : MessageStep B piece message next)
    (hapart : ((front ++ piece).map (·.position)).Nodup) (hfit : message.OneofsFit front) :
    next.OneofsFit (front ++ piece) := by
  have hmono : message.OneofsFit (front ++ piece) := hfit.mono (List.prefix_append _ _).isInfix
  cases h with
  | @field _ field _ hfield =>
    obtain ⟨hloose, hstands⟩ := hfield.stands
    rw [Schema.Message.OneofsFit, List.map_append]
    exact hfit.addLoose hapart hloose hstands
  | oneof hpiece hsteps =>
    obtain ⟨honeofs, added, hfields, hindex, hstands⟩ := exists_of_oneofSteps hsteps
    rw [Schema.Message.OneofsFit, honeofs, hfields, List.map_append]
    exact hfit.addBlock hapart hpiece (by simpa using hindex) hstands
  | _ => exact hmono

/-- The fields of a message that was read fit its oneofs. -/
theorem Schema.Message.ReadFrom.oneofsFit (h : message.ReadFrom tokens)
    (hapart : (tokens.map (·.position)).Nodup) : message.OneofsFit tokens := by
  obtain @⟨depth, inner, _, hinner, hbody⟩ := h
  cases depth with
  | zero => exact hbody.elim
  | succ depth =>
    have hfit := Steps.along
      (P := fun front m => (front.map (·.position)).Nodup → m.OneofsFit front)
      (fun front piece s next hs _ hstep hboth => ?_) hbody [] fun _ => .empty
    · exact (hfit (hapart.sublist (hinner.sublist.map _))).mono hinner
    · refine hstep.oneofsFit hboth (hs (hboth.sublist ?_))
      exact (List.sublist_append_left _ _).map _

/-- The fields of an extend block belong to no oneof. -/
theorem Schema.ExtendBlock.ReadFrom.oneof_eq_none {block : Extend} (h : block.ReadFrom tokens) :
    ∀ field ∈ block.fields, field.oneof = none := by
  obtain ⟨_, hsteps⟩ := h
  refine hsteps.keeps (P := fun b => ∀ field ∈ b.fields, field.oneof = none)
    (fun piece b next hb hstep => ?_) (List.forall_mem_nil _)
  cases hstep with
  | skipped => exact hb
  | field hfield =>
    refine List.forall_mem_append.mpr ⟨hb, ?_⟩
    rw [List.forall_mem_singleton]
    exact hfield.stands.1

end Reading

end ProtoSchema
