import ProtoSchema.Proofs.Overlay.Mounting

/-!
The way back from a file to its virtual path. A mapping whose root holds the file spells it as one
path at most, and just the mapping that puts a path at a file spells the file as that path. What
serves the file is hence found among the mappings that spell it, in whatever order they are tried;
and since a spelled path is covered by a mount, it is served from somewhere, by another file where
this one is shadowed.
-/

namespace ProtoSchema

namespace Mapping

variable {mapping : Mapping} {file : PhysicalPath} {path : VirtualPath}

/-- Names lead from the root down to the file, and behind the mount they are read as the path. -/
def Spells (mapping : Mapping) (file : PhysicalPath) (path : VirtualPath) : Prop :=
  ∃ names, file.steps = mapping.root.steps ++ names.map .name ∧
    VirtualPath.read (mapping.mount.spell names) = .ok path

theorem spells_iff_covers : mapping.Spells file path ↔ ∃ names,
    file.steps = mapping.root.steps ++ names.map .name ∧
      mapping.mount.Covers path.toMount names := by
  refine exists_congr fun names => and_congr_right fun hsteps => ?_
  refine Mount.read_spell_eq_ok_iff fun s hs => ?_
  have hmem : .name s ∈ file.steps :=
    hsteps ▸ List.mem_append_right _ (List.mem_map_of_mem hs)
  obtain ⟨hempty, hdot, hparent, hslash⟩ := PhysicalPath.of_name_mem_steps hmem
  exact ⟨⟨hempty, hdot, hparent⟩, hslash⟩

theorem virtualOf?_eq_some_iff : mapping.virtualOf? file = some path ↔
    mapping.Spells file path := by
  rw [virtualOf?, Option.bind_eq_some_iff, spells_iff_covers]
  exact exists_congr fun names =>
    and_congr PhysicalPath.namesBelow?_eq_some_iff Mount.join?_eq_some_iff

/-- A mapping spells a file as the path that it puts there. -/
theorem spells_iff_place? : mapping.Spells file path ↔
    ∃ place, mapping.place? path = some place ∧ place.Same file := by
  rw [spells_iff_covers]
  constructor
  · rintro ⟨names, hsteps, hcovers⟩
    refine ⟨_, place?_eq_some_iff.mpr ⟨names, hcovers, rfl⟩, ?_⟩
    rw [PhysicalPath.Same, PhysicalPath.steps_extend _ hcovers.isSegment, hsteps]
  · rintro ⟨place, hplace, hsame⟩
    obtain ⟨names, hcovers, rfl⟩ := place?_eq_some_iff.mp hplace
    rw [PhysicalPath.Same, PhysicalPath.steps_extend _ hcovers.isSegment] at hsame
    exact ⟨names, hsame.symm, hcovers⟩

/-- A mapping spells a file as one path. -/
theorem Spells.unique {other : VirtualPath} (h : mapping.Spells file path)
    (hother : mapping.Spells file other) : path = other :=
  Option.some.inj
    ((virtualOf?_eq_some_iff.mpr h).symm.trans (virtualOf?_eq_some_iff.mpr hother))

theorem Spells.root_isPrefix (h : mapping.Spells file path) :
    mapping.root.steps <+: file.steps := by
  obtain ⟨names, hsteps, -⟩ := h
  exact hsteps ▸ List.prefix_append _ _

end Mapping

namespace Overlay

variable {overlay : Overlay} {file : PhysicalPath} {path : VirtualPath} {mapping : Mapping}
  {mappings others : List Mapping}

theorem Serves.exists_spells (h : overlay.Serves path file) :
    ∃ mapping ∈ overlay.mappings, mapping.Spells file path := by
  obtain ⟨place, hlocate, hsame⟩ := h
  obtain ⟨mapping, hmem, hplace⟩ := exists_mapping_of_locate hlocate
  exact ⟨mapping, hmem, Mapping.spells_iff_place?.mpr ⟨place, hplace, hsame⟩⟩

/-- A path that a mapping spells lies below its mount. -/
theorem locate_ne_none (hmem : mapping ∈ overlay.mappings) (h : mapping.Spells file path) :
    overlay.locate path ≠ none := by
  intro hnone
  obtain ⟨names, -, hcovers⟩ := Mapping.spells_iff_covers.mp h
  exact locate_eq_none_iff.mp hnone mapping hmem names hcovers

def NoneServes (overlay : Overlay) (file : PhysicalPath) (mappings : List Mapping) : Prop :=
  ∀ mapping ∈ mappings, ∀ path, mapping.Spells file path → ¬overlay.Serves path file

def Accounts (overlay : Overlay) (file : PhysicalPath) (mappings : List Mapping) : Origin → Prop
  | .reachable path => overlay.Serves path file
  | .shadowed path servedBy => (∃ mapping ∈ mappings, mapping.Spells file path) ∧
      overlay.locate path = some servedBy ∧ ¬servedBy.Same file ∧ overlay.NoneServes file mappings
  | .outside => ∀ mapping ∈ mappings, ∀ path, ¬mapping.Spells file path

theorem Accounts.noneServes {origin : Origin} (h : overlay.Accounts file mappings origin)
    (horigin : ∀ path, origin ≠ .reachable path) : overlay.NoneServes file mappings := by
  cases origin with
  | reachable path => exact absurd rfl (horigin path)
  | shadowed path servedBy => exact h.2.2.2
  | outside => exact fun mapping hmem path hspells _ => h mapping hmem path hspells

/-- The answer does not hang on mappings that do not spell the file, nor on the order. -/
theorem Accounts.congr {origin : Origin} (h : overlay.Accounts file mappings origin)
    (hsame : ∀ mapping path, mapping.Spells file path → (mapping ∈ mappings ↔ mapping ∈ others)) :
    overlay.Accounts file others origin := by
  have hback {p : Mapping → VirtualPath → Prop}
      (hall : ∀ m ∈ mappings, ∀ path, m.Spells file path → p m path) :
      ∀ m ∈ others, ∀ path, m.Spells file path → p m path :=
    fun m hm path hspells => hall m ((hsame m path hspells).mpr hm) path hspells
  cases origin with
  | reachable path => exact h
  | shadowed path servedBy =>
    obtain ⟨⟨m, hm, hspells⟩, hlocate, hother, hnone⟩ := h
    exact ⟨⟨m, (hsame m path hspells).mp hm, hspells⟩, hlocate, hother, hback hnone⟩
  | outside => exact hback h

theorem Accounts.cons_of_not_spells {origin : Origin} (h : overlay.Accounts file mappings origin)
    (hnever : ∀ path, ¬mapping.Spells file path) :
    overlay.Accounts file (mapping :: mappings) origin := by
  refine h.congr fun m path hspells => ?_
  rw [List.mem_cons, or_iff_right]
  rintro rfl
  exact hnever path hspells

/-- The first name is shadowed and answers for the case that no later one is served. -/
theorem accounts_cons_of_shadowed {place : PhysicalPath} (hspells : mapping.Spells file path)
    (hlocate : overlay.locate path = some place) (hother : ¬place.Same file) (origin : Origin) :
    overlay.Accounts file mappings origin → overlay.Accounts file (mapping :: mappings)
      (match origin with
      | .reachable other => .reachable other
      | _ => .shadowed path place) := by
  intro h
  have hshadowed (horigin : ∀ other, origin ≠ .reachable other) :
      overlay.Accounts file (mapping :: mappings) (.shadowed path place) := by
    refine ⟨⟨mapping, List.mem_cons_self, hspells⟩, hlocate, hother, ?_⟩
    intro m hm served hserved hserves
    rcases List.mem_cons.mp hm with rfl | hm
    -- The first mapping has no other name for the file, and that one is served from elsewhere.
    · obtain rfl := hspells.unique hserved
      obtain ⟨there, hthere, hsame⟩ := hserves
      rw [hlocate, Option.some.injEq] at hthere
      exact hother (hthere ▸ hsame)
    · exact h.noneServes horigin m hm served hserved hserves
  cases origin with
  | reachable other => exact h
  | shadowed => exact hshadowed nofun
  | outside => exact hshadowed nofun

theorem originAmong_accounts (hsub : mappings ⊆ overlay.mappings) :
    overlay.Accounts file mappings (overlay.originAmong file mappings) := by
  induction mappings with
  | nil => exact nofun
  | cons mapping rest ih =>
    obtain ⟨hmem, hrest⟩ := List.cons_subset.mp hsub
    rw [originAmong]
    cases hvirtual : mapping.virtualOf? file with
    | none =>
      refine (ih hrest).cons_of_not_spells fun path hspells => ?_
      rw [Mapping.virtualOf?_eq_some_iff.mpr hspells] at hvirtual
      cases hvirtual
    | some path =>
      have hspells := Mapping.virtualOf?_eq_some_iff.mp hvirtual
      dsimp only
      cases hlocate : overlay.locate path with
      | none => exact absurd hlocate (locate_ne_none hmem hspells)
      | some place =>
        dsimp only
        split
        · next hsame => exact ⟨place, hlocate, hsame⟩
        · next hother => exact accounts_cons_of_shadowed hspells hlocate hother _ (ih hrest)

/-- The first root spells a name that another mount shadows, and a later one serves the file. -/
example : let overlay := ofCalls [("", "/r/in"), ("a", "/else"), ("b", "/r")]
    overlay.originAmong ⟨"/r/in/a/x"⟩ overlay.mappings =
      .reachable ⟨⟨false, ["b", "in", "a", "x"], by decide⟩, by decide⟩ := by
  decide +kernel

theorem mem_candidates_iff : mapping ∈ overlay.candidates file ↔
    mapping ∈ overlay.mappings ∧ mapping.root.steps <+: file.steps := by
  rw [candidates, List.mem_mergeSort, List.mem_filter, decide_eq_true_eq]

theorem originOf_accounts (overlay : Overlay) (file : PhysicalPath) :
    overlay.Accounts file overlay.mappings (overlay.originOf file) := by
  have hsub : overlay.candidates file ⊆ overlay.mappings :=
    fun _ hmem => (mem_candidates_iff.mp hmem).1
  refine (originAmong_accounts hsub).congr fun mapping path hspells => ?_
  rw [mem_candidates_iff]
  exact and_iff_left hspells.root_isPrefix

/-- The way back finds a path that the file serves whenever there is one, though the deepest root
may spell another. Otherwise it tells a path that the file would have and the place that serves it
instead, and a file is outside just when no mapping spells it. -/
theorem way_back_is_complete (overlay : Overlay) (file : PhysicalPath) :
    overlay.Accounts file overlay.mappings (overlay.originOf file) ∧
    ((∃ path, overlay.originOf file = .reachable path) ↔ ∃ path, overlay.Serves path file) ∧
    ((∃ path servedBy, overlay.originOf file = .shadowed path servedBy) ↔
      (∀ path, ¬overlay.Serves path file) ∧
        ∃ mapping ∈ overlay.mappings, ∃ path, mapping.Spells file path) ∧
    (overlay.originOf file = .outside ↔
      ∀ mapping ∈ overlay.mappings, ∀ path, ¬mapping.Spells file path) := by
  have haccounts := overlay.originOf_accounts file
  have hspelled (path : VirtualPath) (hserves : overlay.Serves path file) :
      ∃ mapping ∈ overlay.mappings, ∃ path, mapping.Spells file path := by
    obtain ⟨mapping, hmem, hspells⟩ := hserves.exists_spells
    exact ⟨mapping, hmem, path, hspells⟩
  refine ⟨haccounts, ?_⟩
  cases horigin : overlay.originOf file with
  | reachable path =>
    rw [horigin] at haccounts
    have hserves : overlay.Serves path file := haccounts
    obtain ⟨mapping, hmem, other, hspells⟩ := hspelled path hserves
    exact ⟨iff_of_true ⟨path, rfl⟩ ⟨path, hserves⟩,
      iff_of_false nofun fun h => h.1 path hserves,
      iff_of_false nofun fun h => h mapping hmem other hspells⟩
  | shadowed path servedBy =>
    rw [horigin] at haccounts
    obtain ⟨⟨mapping, hmem, hspells⟩, -, -, hnone⟩ := haccounts
    have hnever (other : VirtualPath) : ¬overlay.Serves other file := by
      intro hserves
      obtain ⟨m, hm, hother⟩ := hserves.exists_spells
      exact hnone m hm other hother hserves
    exact ⟨iff_of_false nofun fun ⟨other, hserves⟩ => hnever other hserves,
      iff_of_true ⟨path, servedBy, rfl⟩ ⟨hnever, mapping, hmem, path, hspells⟩,
      iff_of_false nofun fun h => h mapping hmem path hspells⟩
  | outside =>
    rw [horigin] at haccounts
    have hnever : ∀ mapping ∈ overlay.mappings, ∀ path, ¬mapping.Spells file path := haccounts
    have hnone : ¬∃ mapping ∈ overlay.mappings, ∃ path, mapping.Spells file path :=
      fun ⟨mapping, hmem, path, hspells⟩ => hnever mapping hmem path hspells
    exact ⟨iff_of_false nofun fun ⟨path, hserves⟩ => hnone (hspelled path hserves),
      iff_of_false nofun fun h => hnone h.2, iff_of_true rfl hnever⟩

end Overlay

end ProtoSchema
