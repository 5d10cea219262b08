import ProtoSchema.Overlay
import ProtoSchema.Store.Memory
import ProtoSchema.Proofs.Path.Spelled
import ProtoSchema.Proofs.Path.Steps
import Mathlib.Data.List.Nodup
import Mathlib.Data.List.ProdSigma
import Mathlib.Data.Set.Card

/-!
How many virtual paths have a file. A mapping puts different virtual paths at
different places, so a store with finitely many places serves at most one path
for each pair of a mapping and a place.
-/

namespace ProtoSchema

/-- Every file stands at one of so many places as the size tells. -/
def Store.IsFinite (store : Store) : Prop :=
  ∃ places : List PhysicalPath, places.length ≤ store.size ∧
    ∀ path, store.isFile path = true → ∃ place ∈ places, place.Same path

namespace MemoryFiles

/-- A file stands at a path that is an entry in some spelling. -/
theorem isFile_iff {files : MemoryFiles} {path : PhysicalPath} :
    files.isFile path = true ↔ ∃ place ∈ files.entries.map (·.1), place.Same path := by
  rw [isFile, get?, Option.isSome_map, List.find?_isSome]
  simp only [List.mem_map, decide_eq_true_eq]
  constructor
  · rintro ⟨entry, hentry, hsame⟩
    exact ⟨entry.1, ⟨entry, hentry, rfl⟩, hsame⟩
  · rintro ⟨_, ⟨entry, hentry, rfl⟩, hsame⟩
    exact ⟨entry, hentry, hsame⟩

theorem isFinite_store (files : MemoryFiles) : files.store.IsFinite :=
  ⟨files.entries.map (·.1), by simp [store, size], fun _ h => isFile_iff.mp h⟩

end MemoryFiles

namespace Mapping

variable {mapping : Mapping} {path other : VirtualPath} {place : PhysicalPath}

/-- A mapping keeps the segments below its mount. -/
theorem place?_eq_some_iff : mapping.place? path = some place ↔
    ∃ rest, mapping.mount.Covers path.toMount rest ∧ place = mapping.root.extend rest := by
  rw [place?, Option.map_eq_some_iff]
  exact exists_congr fun rest => and_congr Mount.below?_eq_some_iff eq_comm

theorem place?_injective {place' : PhysicalPath} (hpath : mapping.place? path = some place)
    (hother : mapping.place? other = some place') (hsame : place.Same place') :
    path = other := by
  obtain ⟨xs, hxs, rfl⟩ := place?_eq_some_iff.mp hpath
  obtain ⟨ys, hys, rfl⟩ := place?_eq_some_iff.mp hother
  have heq : xs = ys := mapping.root.extend_injective hxs.isSegment hys.isSegment hsame
  refine VirtualPath.ext (hxs.rooted_eq.symm.trans hys.rooted_eq) ?_
  rw [hxs.segments_eq, hys.segments_eq, heq]

end Mapping

namespace Overlay

variable {overlay : Overlay} {store : Store}

theorem mem_of_closest {mappings : List Mapping} {mapping : Mapping}
    (h : closest mappings = some mapping) : mapping ∈ mappings := by
  induction mappings generalizing mapping with
  | nil => cases h
  | cons first rest ih =>
    rw [closest] at h
    split at h
    · cases h
      exact List.mem_cons_self
    · next best hbest =>
      split at h
      · cases h
        exact List.mem_cons_self
      · cases h
        exact List.mem_cons_of_mem _ (ih hbest)

theorem exists_mapping_of_locate {path : VirtualPath} {place : PhysicalPath}
    (h : overlay.locate path = some place) :
    ∃ mapping ∈ overlay.mappings, mapping.place? path = some place := by
  obtain ⟨mapping, hclosest, hplace⟩ := Option.bind_eq_some_iff.mp h
  exact ⟨mapping, List.mem_of_mem_filter (mem_of_closest hclosest), hplace⟩

def HasFile (overlay : Overlay) (store : Store) (path : VirtualPath) : Prop :=
  ∃ place, overlay.resolve store path = .ok place

theorem resolve_eq_ok {path : VirtualPath} {place : PhysicalPath}
    (h : overlay.resolve store path = .ok place) :
    overlay.locate path = some place ∧ store.isFile place = true := by
  unfold resolve at h
  split at h
  · cases h
  · next physical hlocate =>
    split at h
    · next hfile =>
      cases h
      exact ⟨hlocate, hfile⟩
    · cases h

/-- The paths with a file number at most mappings times places. -/
theorem length_le_of_hasFile (hfinite : store.IsFinite) (paths : List VirtualPath)
    (hnodup : paths.Nodup) (hfile : ∀ path ∈ paths, overlay.HasFile store path) :
    paths.length ≤ overlay.mappings.length * store.size := by
  obtain ⟨places, hsize, hplaces⟩ := hfinite
  have hkey : ∀ path ∈ paths, ∃ key ∈ overlay.mappings ×ˢ places,
      ∃ place, Mapping.place? key.1 path = some place ∧ key.2.Same place := by
    intro path hpath
    obtain ⟨place, hplace⟩ := hfile path hpath
    obtain ⟨hlocate, hstands⟩ := resolve_eq_ok hplace
    obtain ⟨mapping, hmapping, hput⟩ := exists_mapping_of_locate hlocate
    obtain ⟨found, hfound, hsame⟩ := hplaces place hstands
    exact ⟨(mapping, found), List.mem_product.mpr ⟨hmapping, hfound⟩, place, hput, hsame⟩
  choose key hmem place hput hsame using hkey
  let keys := paths.attach.map fun path => key path.1 path.2
  have hkeys : keys.Nodup := by
    refine (List.nodup_attach.mpr hnodup).map_on ?_
    rintro ⟨a, ha⟩ _ ⟨b, hb⟩ _ heq
    have heq' : key a ha = key b hb := heq
    have hputb := hput b hb
    have hsameb := hsame b hb
    rw [← heq'] at hputb hsameb
    exact Subtype.ext (Mapping.place?_injective (hput a ha) hputb
      ((hsame a ha).symm.trans hsameb))
  have hsub : keys ⊆ overlay.mappings ×ˢ places := by
    intro k hk
    obtain ⟨path, _, rfl⟩ := List.mem_map.mp hk
    exact hmem path.1 path.2
  have hbound := hkeys.length_le_of_subset hsub
  rw [List.length_map, List.length_attach, List.length_product] at hbound
  exact Nat.le_trans hbound (Nat.mul_le_mul_left _ hsize)

/-- Finitely many paths have a file. -/
theorem finite_hasFile (hfinite : store.IsFinite) :
    {path | overlay.HasFile store path}.Finite := by
  by_contra hinfinite
  obtain ⟨paths, hfile, hcard⟩ := Set.Infinite.exists_subset_card_eq hinfinite
    (overlay.mappings.length * store.size + 1)
  have hbound := length_le_of_hasFile hfinite paths.toList paths.nodup_toList fun path hpath =>
    hfile (Finset.mem_toList.mp hpath)
  rw [Finset.length_toList, hcard] at hbound
  exact Nat.not_succ_le_self _ hbound

/-- Distinct paths with a file are no more than there are. -/
theorem length_le_ncard (hfinite : store.IsFinite) {paths : List VirtualPath}
    (hnodup : paths.Nodup) (hfile : ∀ path ∈ paths, overlay.HasFile store path) :
    paths.length ≤ {path | overlay.HasFile store path}.ncard := by
  rw [← List.toFinset_card_of_nodup hnodup, ← Set.ncard_coe_finset]
  refine Set.ncard_le_ncard (fun path hpath => ?_) (finite_hasFile hfinite)
  exact hfile path (List.mem_toFinset.mp hpath)

end Overlay

end ProtoSchema
