import ProtoSchema.Proofs.Overlay.Origins

/-!
The listing of reachable files. Every root is walked, and a file that is met is kept under the
path that the mapping spells for it, if that path leads back to the file. A file that serves a
path lies below the root of the mapping that serves it, so that it is met there, unless it is the
root itself, which a walk leaves out. What is met in several ways differs in nothing, and goes
with the repeats once the paths are in order.
-/

namespace ProtoSchema

section Repeats

variable {α : Type} [DecidableEq α] {a : α} {items : List α} {R : α → α → Prop}

theorem mem_dropRepeats_iff : a ∈ dropRepeats items ↔ a ∈ items := by
  induction items using dropRepeats.induct with
  | case1 => rfl
  | case2 first => rfl
  | case3 first rest ih =>
    rw [dropRepeats, if_pos rfl, ih]
    simp
  | case4 first second rest hne ih =>
    rw [dropRepeats, if_neg hne, List.mem_cons, ih, ← List.mem_cons]

/-- In an ordered list repeats stand side by side. -/
theorem pairwise_dropRepeats (h : items.Pairwise R) (hanti : ∀ a b, R a b → R b a → a = b) :
    (dropRepeats items).Pairwise fun a b => R a b ∧ a ≠ b := by
  induction items using dropRepeats.induct with
  | case1 => exact .nil
  | case2 first => exact List.pairwise_singleton _ _
  | case3 first rest ih =>
    rw [dropRepeats, if_pos rfl]
    exact ih h.of_cons
  | case4 first second rest hne ih =>
    obtain ⟨hfirst, hrest⟩ := List.pairwise_cons.mp h
    rw [dropRepeats, if_neg hne]
    refine .cons (fun other hother => ?_) (ih hrest)
    rw [mem_dropRepeats_iff] at hother
    refine ⟨hfirst other hother, ?_⟩
    rintro rfl
    rcases List.mem_cons.mp hother with heq | hlater
    · exact hne heq
    · exact hne (hanti _ _ (hfirst second List.mem_cons_self)
        ((List.pairwise_cons.mp hrest).1 _ hlater))

end Repeats

section Sorted

variable {path : VirtualPath} {paths : List VirtualPath}

theorem mem_sortedPaths_iff : path ∈ sortedPaths paths ↔ path ∈ paths := by
  rw [sortedPaths, mem_dropRepeats_iff, List.mem_mergeSort]

theorem pairwise_sortedPaths (paths : List VirtualPath) :
    (sortedPaths paths).Pairwise fun p q => p.text < q.text := by
  have htrans (p q r : VirtualPath) (hpq : p.le q) (hqr : q.le r) : p.le r := by
    simp only [VirtualPath.le, decide_eq_true_eq] at *
    exact String.le_trans hpq hqr
  have htotal (p q : VirtualPath) : p.le q || q.le p := by
    simpa [VirtualPath.le] using String.le_total p.text q.text
  have hanti (p q : VirtualPath) (hpq : p.le q) (hqp : q.le p) : p = q := by
    simp only [VirtualPath.le, decide_eq_true_eq] at *
    exact VirtualPath.text_injective (String.le_antisymm hpq hqp)
  have hdropped := pairwise_dropRepeats (List.pairwise_mergeSort htrans htotal paths) hanti
  refine hdropped.imp fun {p q} ⟨hle, hne⟩ => ?_
  refine String.not_le.mp fun hge => hne (hanti p q hle (decide_eq_true hge))

end Sorted

theorem VirtualPath.hasExtension_iff {path : VirtualPath} {ending : String} :
    path.hasExtension ending = true ↔ ∃ stem, path.fileName = stem ++ ending := by
  rw [hasExtension, List.isSuffixOf_iff_suffix]
  constructor
  · rintro ⟨stem, hstem⟩
    exact ⟨String.ofList stem, by rw [← String.toList_inj, String.toList_append,
      String.toList_ofList, hstem]⟩
  · rintro ⟨stem, hstem⟩
    exact ⟨stem.toList, by rw [hstem, String.toList_append]⟩

theorem MemoryFiles.mem_walk_iff {files : MemoryFiles} {root file : PhysicalPath} :
    file ∈ files.walk root ↔
      file ∈ files.entries.map (·.1) ∧ root.steps <+: file.steps ∧ ¬file.Same root := by
  rw [walk, List.mem_mergeSort, List.mem_filter, Bool.and_eq_true, decide_eq_true_eq,
    Bool.not_eq_true', decide_eq_false_iff_not]

namespace Overlay

variable {overlay : Overlay} {store : Store} {files : MemoryFiles} {path : VirtualPath}
  {mapping : Mapping} {ending : String}

theorem hasFile_iff : overlay.HasFile store path ↔
    ∃ place, overlay.locate path = some place ∧ store.isFile place = true := by
  constructor
  · rintro ⟨place, hplace⟩
    exact ⟨place, resolve_eq_ok hplace⟩
  · rintro ⟨place, hlocate, hstands⟩
    exact ⟨place, by simp [resolve, hlocate, hstands]⟩

theorem mem_listed_iff {met : List PhysicalPath} : path ∈ overlay.listed ending mapping met ↔
    ∃ file ∈ met, mapping.Spells file path ∧ path.hasExtension ending = true ∧
      overlay.Serves path file := by
  simp only [listed, List.mem_filterMap, Option.filter_eq_some_iff, Bool.and_eq_true,
    decide_eq_true_eq, Mapping.virtualOf?_eq_some_iff]

/-- No walk over files in memory fails. -/
theorem listEach_store (mappings : List Mapping) : overlay.listEach files.store ending mappings =
    .ok (mappings.flatMap fun m => overlay.listed ending m (files.walk m.root)) := by
  induction mappings with
  | nil => rfl
  | cons mapping rest ih =>
    rw [listEach, ih]
    rfl

/-- What serves a path is met below the root of its mapping. -/
theorem exists_met_of_hasFile (hroots : ∀ m ∈ overlay.mappings, files.isFile m.root = false)
    (h : overlay.HasFile files.store path) : ∃ mapping ∈ overlay.mappings,
      ∃ file ∈ files.walk mapping.root, mapping.Spells file path ∧ overlay.Serves path file := by
  obtain ⟨place, hlocate, hstands⟩ := hasFile_iff.mp h
  obtain ⟨file, hentry, hsame⟩ := MemoryFiles.isFile_iff.mp hstands
  obtain ⟨mapping, hmem, hplace⟩ := exists_mapping_of_locate hlocate
  have hspells := Mapping.spells_iff_place?.mpr ⟨place, hplace, hsame.symm⟩
  -- A walk leaves out its root, which is where the assumption on the roots comes in.
  have hbelow : ¬file.Same mapping.root := by
    intro hroot
    have hfile := MemoryFiles.isFile_iff.mpr ⟨file, hentry, hroot⟩
    rw [hroots mapping hmem] at hfile
    cases hfile
  exact ⟨mapping, hmem, file, MemoryFiles.mem_walk_iff.mpr ⟨hentry, hspells.root_isPrefix, hbelow⟩,
    hspells, place, hlocate, hsame.symm⟩

/-- What serves a path and is met in a walk is a file. -/
theorem hasFile_of_met {root file : PhysicalPath} (hmet : file ∈ files.walk root)
    (h : overlay.Serves path file) : overlay.HasFile files.store path := by
  obtain ⟨place, hlocate, hsame⟩ := h
  obtain ⟨hentry, -⟩ := MemoryFiles.mem_walk_iff.mp hmet
  exact hasFile_iff.mpr
    ⟨place, hlocate, MemoryFiles.isFile_iff.mpr ⟨file, hentry, hsame.symm⟩⟩

/-- The paths rise, and they are those that have the ending and a file. -/
structure ListsServed (overlay : Overlay) (store : Store) (ending : String)
    (paths : List VirtualPath) : Prop where
  increasing : paths.Pairwise fun p q => p.text < q.text
  mem_iff : ∀ path, path ∈ paths ↔
    (∃ stem, path.fileName = stem ++ ending) ∧ overlay.HasFile store path

/-- Where no root is a file, the listing has each path with the ending that resolves to a file,
and no other, once and in order. -/
theorem listing_is_exact (overlay : Overlay) (files : MemoryFiles) (ending : String)
    (hroots : ∀ m ∈ overlay.mappings, files.isFile m.root = false) :
    ∃ paths, overlay.list files.store ending = .ok paths ∧
      overlay.ListsServed files.store ending paths := by
  refine ⟨_, by rw [list, listEach_store]; rfl, pairwise_sortedPaths _, fun path => ?_⟩
  rw [mem_sortedPaths_iff, ← VirtualPath.hasExtension_iff]
  simp only [List.mem_flatMap, mem_listed_iff]
  constructor
  · rintro ⟨mapping, -, file, hmet, -, hending, hserves⟩
    exact ⟨hending, hasFile_of_met hmet hserves⟩
  · rintro ⟨hending, hfile⟩
    obtain ⟨mapping, hmem, file, hmet, hspells, hserves⟩ := exists_met_of_hasFile hroots hfile
    exact ⟨mapping, hmem, file, hmet, hspells, hending, hserves⟩

/-- Three mounts whose roots coincide or nest. The file `/r/a/z.proto` is shadowed as `a/z.proto`
and listed under the other name that it has. -/
theorem listing_is_exact_nested : ∃ (overlay : Overlay) (files : MemoryFiles)
    (shadowed served : VirtualPath) (paths : List VirtualPath),
    overlay = ofCalls [("", "/r"), ("a", "/r/in"), ("b", "/r")] ∧
    files = ⟨[(⟨"/r/in/y.proto"⟩, []), (⟨"/r//a/z.proto"⟩, [])]⟩ ∧
    shadowed.text = "a/z.proto" ∧ served.text = "b/a/z.proto" ∧
    (∀ m ∈ overlay.mappings, files.isFile m.root = false) ∧
    overlay.list files.store ".proto" = .ok paths ∧ shadowed ∉ paths ∧ served ∈ paths := by
  let overlay := ofCalls [("", "/r"), ("a", "/r/in"), ("b", "/r")]
  let files : MemoryFiles := ⟨[(⟨"/r/in/y.proto"⟩, []), (⟨"/r//a/z.proto"⟩, [])]⟩
  let shadowed : VirtualPath := ⟨⟨false, ["a", "z.proto"], by decide⟩, by decide⟩
  let served : VirtualPath := ⟨⟨false, ["b", "a", "z.proto"], by decide⟩, by decide⟩
  have hroots : ∀ m ∈ overlay.mappings, files.isFile m.root = false := by decide +kernel
  obtain ⟨paths, hlist, hexact⟩ := listing_is_exact overlay files ".proto" hroots
  have hshadowed : ¬overlay.HasFile files.store shadowed := by
    rw [hasFile_iff]
    rintro ⟨place, hlocate, hstands⟩
    have hplace : overlay.locate shadowed = some ⟨"/r/in/z.proto"⟩ := by decide +kernel
    obtain rfl := Option.some.inj (hplace.symm.trans hlocate)
    exact absurd hstands (by decide +kernel)
  have hserved : overlay.HasFile files.store served :=
    hasFile_iff.mpr ⟨⟨"/r/a/z.proto"⟩, by decide +kernel, by decide +kernel⟩
  exact ⟨overlay, files, shadowed, served, paths, rfl, rfl, by decide +kernel, by decide +kernel,
    hroots, hlist, fun hmem => hshadowed ((hexact.mem_iff _).mp hmem).2,
    (hexact.mem_iff _).mpr ⟨⟨"z", rfl⟩, hserved⟩⟩

end Overlay

end ProtoSchema
