import Mathlib.Data.List.Induction
import Mathlib.Data.List.Nodup
import ProtoSchema.Catalog

/-!
The indexes of a catalog. An index is filled file by file, and a name that it has keeps the place
it was noted with. So it has one entry for each name that is declared, and the place there is
that of the first file that declares the name. A lookup, which goes by the index to one file and
searches only there, gives what a search through all files in their order gives.
-/

namespace ProtoSchema

open Linked

namespace NameIndex

variable {index : NameIndex} {names : File → List String} {files : List File} {file : File}
  {name other : String} {place : Nat}

theorem lookup_note : (note place index name).lookup other =
    (index.lookup other).or (if other = name then some place else none) := by
  unfold note
  split
  · next noted hnoted =>
    by_cases hsame : other = name
    · rw [hsame, hnoted]
      rfl
    · rw [if_neg hsame, Option.or_none]
  · rw [List.lookup_append, List.lookup_cons, List.lookup_nil]
    by_cases hsame : other = name
    · rw [hsame, beq_self_eq_true, if_pos rfl]
    · rw [beq_eq_false_iff_ne.mpr hsame, if_neg hsame]

theorem lookup_foldl_note (more : List String) : (more.foldl (note place) index).lookup other =
    (index.lookup other).or (if other ∈ more then some place else none) := by
  induction more generalizing index with
  | nil => simp
  | cons name rest ih =>
    rw [List.foldl_cons, ih, lookup_note, Option.or_assoc]
    by_cases hfirst : other = name
    · simp [hfirst]
    · simp [hfirst]

/-- A name is noted when it is not there. -/
theorem nodup_note (h : (index.map (·.1)).Nodup) : ((note place index name).map (·.1)).Nodup := by
  unfold note
  split
  · exact h
  · next hnone =>
    rw [List.map_append, List.map_singleton]
    refine List.nodup_append.mpr ⟨h, List.nodup_singleton _, ?_⟩
    rintro noted hnoted _ hlast rfl
    obtain ⟨entry, hentry, rfl⟩ := List.mem_map.mp hnoted
    have hdiffers := List.lookup_eq_none_iff.mp hnone entry hentry
    rw [List.mem_singleton.mp hlast, bne_self_eq_false] at hdiffers
    cases hdiffers

theorem nodup_foldl_note (more : List String) (h : (index.map (·.1)).Nodup) :
    ((more.foldl (note place) index).map (·.1)).Nodup := by
  induction more generalizing index with
  | nil => exact h
  | cons name rest ih => exact ih (nodup_note h)

structure Indexes (names : File → List String) (files : List File) (index : NameIndex) : Prop where
  nodup : (index.map (·.1)).Nodup
  lookup_eq : ∀ name, index.lookup name = files.findIdx? fun file => decide (name ∈ names file)

theorem Indexes.add (h : Indexes names files index) (file : File) :
    Indexes names (files ++ [file]) (index.add names (file, files.length)) where
  nodup := nodup_foldl_note _ h.nodup
  lookup_eq name := by
    rw [NameIndex.add, lookup_foldl_note, h.lookup_eq, List.findIdx?_append,
      List.findIdx?_singleton]
    by_cases hname : name ∈ names file
    · simp [hname]
    · simp [hname]

theorem indexes_ofFiles (names : File → List String) (files : List File) :
    Indexes names files (ofFiles names files) := by
  induction files using List.reverseRecOn with
  | nil => exact ⟨List.nodup_nil, fun _ => rfl⟩
  | append_singleton files file ih =>
    have hlast : ofFiles names (files ++ [file]) =
        (ofFiles names files).add names (file, files.length) := by
      rw [ofFiles, List.zipIdx_append, List.foldl_append, Nat.zero_add]
      rfl
    rw [hlast]
    exact ih.add file

namespace Indexes

/-- The place of an entry is that of a file which declares the name. -/
theorem exists_of_mem (h : Indexes names files index) {entry : String × Nat}
    (hentry : entry ∈ index) : ∃ file, files[entry.2]? = some file ∧ entry.1 ∈ names file := by
  have hlookup : index.lookup entry.1 = some entry.2 := by
    cases hfound : index.lookup entry.1 with
    | none =>
      have hdiffers := List.lookup_eq_none_iff.mp hfound entry hentry
      rw [bne_self_eq_false] at hdiffers
      cases hdiffers
    | some place =>
      obtain ⟨before, after, hindex, _⟩ := List.lookup_eq_some_iff.mp hfound
      have hmem : (entry.1, place) ∈ index := by
        rw [hindex]
        exact List.mem_append_right _ List.mem_cons_self
      have hsame := List.inj_on_of_nodup_map h.nodup hentry hmem rfl
      rw [hsame]
  obtain ⟨hlt, hdeclares, _⟩ := List.findIdx?_eq_some_iff_getElem.mp
    ((h.lookup_eq entry.1).symm.trans hlookup)
  exact ⟨_, List.getElem?_eq_getElem hlt, of_decide_eq_true hdeclares⟩

theorem lt_length (h : Indexes names files index) {entry : String × Nat}
    (hentry : entry ∈ index) : entry.2 < files.length := by
  obtain ⟨file, hfile, _⟩ := h.exists_of_mem hentry
  exact (List.getElem?_eq_some_iff.mp hfile).1

theorem mem_names_iff (h : Indexes names files index) :
    name ∈ index.map (·.1) ↔ ∃ file ∈ files, name ∈ names file := by
  constructor
  · intro hname
    obtain ⟨entry, hentry, rfl⟩ := List.mem_map.mp hname
    obtain ⟨file, hfile, hdeclares⟩ := h.exists_of_mem hentry
    exact ⟨file, List.mem_of_getElem? hfile, hdeclares⟩
  · rintro ⟨file, hfile, hdeclares⟩
    by_contra hnone
    have hlookup : index.lookup name = none := by
      refine List.lookup_eq_none_iff.mpr fun entry hentry => bne_iff_ne.mpr ?_
      rintro rfl
      exact hnone (List.mem_map_of_mem hentry)
    rw [h.lookup_eq, List.findIdx?_eq_none_iff] at hlookup
    exact of_decide_eq_false (hlookup file hfile) hdeclares

end Indexes

end NameIndex

namespace Catalog

/-- To go to the first place that has a find comes to a search through all places. -/
theorem bind_findIdx?_eq_findSome? {α β : Type} (found : α → Option β) (p : α → Bool)
    (hp : ∀ a, p a = (found a).isSome) (items : List α) :
    ((items.findIdx? p).bind fun place => items[place]?.bind found) = items.findSome? found := by
  induction items with
  | nil => rfl
  | cons first rest ih =>
    rw [List.findIdx?_cons, List.findSome?_cons]
    cases hfound : found first with
    | none =>
      rw [hp, hfound, Option.isSome_none, if_neg (by simp), Option.bind_map, ← ih]
      rfl
    | some b =>
      rw [hp, hfound, Option.isSome_some, if_pos rfl]
      exact hfound

variable {α : Type} {catalog : Catalog} {index : NameIndex} {declarations : File → List α}
  {fullName : α → DottedName}

theorem mem_names_iff {file : File} {text : String} :
    text ∈ names declarations fullName file ↔
      ∃ declaration ∈ declarations file, (fullName declaration).text = text :=
  List.mem_map

/-- The second search, in the file that the index names, finds what the index was filled with. -/
theorem declared?_eq (h : index.Indexes (names declarations fullName) catalog.files)
    (name : String) : catalog.declared? index declarations fullName name =
      catalog.files.findSome? fun file =>
        (declarations file).find? fun declaration =>
          (fullName declaration).text = plainName name := by
  rw [← bind_findIdx?_eq_findSome? _
    (fun file => decide (plainName name ∈ names declarations fullName file)), ← h.lookup_eq]
  · rfl
  · intro file
    rw [Bool.eq_iff_iff, decide_eq_true_iff, List.find?_isSome, mem_names_iff]
    simp only [decide_eq_true_iff]

structure Indexed (catalog : Catalog) : Prop where
  messages : catalog.messages.Indexes (names File.allMessages (·.fullName)) catalog.files
  enums : catalog.enums.Indexes (names File.allEnums (·.fullName)) catalog.files
  services : catalog.services.Indexes (names File.services (·.fullName)) catalog.files

theorem indexed_ofFiles (roots : List File) : (ofFiles roots).Indexed :=
  ⟨NameIndex.indexes_ofFiles _ _, NameIndex.indexes_ofFiles _ _, NameIndex.indexes_ofFiles _ _⟩

end Catalog

end ProtoSchema
