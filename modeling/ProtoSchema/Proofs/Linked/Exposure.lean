import ProtoSchema.Proofs.Linked.Supply

/-!
What is visible through an import: the file that it reached and what reexporting imports lead
to from there, each path once, and nothing else. So an absolute name is known in a file just
where the file itself or one that an import offers declares it; what other files import for
their own use stays hidden.
-/

namespace ProtoSchema.Linked

open Relation

variable {imports : List Import} {scope : Scope} {name : DottedName}

/-- A full name is known just where the file itself or a visible one declares it. -/
theorem Scope.lookup?_isSome_iff :
    (scope.lookup? name).isSome ↔ (scope.own.find? (·.1 = name)).isSome ∨
      ∃ shown ∈ scope.visible, (shown.file.symbol? name).isSome := by
  constructor
  · intro h
    obtain ⟨found, hfound⟩ := Option.isSome_iff_exists.mp h
    rcases supplies_of_lookup? hfound with ⟨hown, _⟩ | ⟨shown, hshown, hsymbol, _⟩
    · exact .inl (by rw [← Option.isSome_map, hown]; rfl)
    · exact .inr ⟨shown, hshown, by rw [hsymbol]; rfl⟩
  · intro h
    refine Option.isSome_iff_exists.mpr ?_
    rcases h with hown | ⟨shown, hshown, hsymbol⟩
    · obtain ⟨⟨_, kind⟩, hentry⟩ := Option.isSome_iff_exists.mp hown
      exact exists_lookup?_of_supplies (.inl ⟨by rw [hentry]; rfl, rfl⟩)
    · obtain ⟨kind, hkind⟩ := Option.isSome_iff_exists.mp hsymbol
      exact exists_lookup?_of_supplies (.inr ⟨shown, hshown, hkind, rfl⟩)

/-- With one file for each path that an import offers, just the offered files are visible
through it, each listed once. So an absolute name resolves just where the linked file has it
or a file does that one of its imports offers. -/
theorem visible_iff_offered (honce : ∀ edge ∈ imports, edge.OffersOnce) (path : VirtualPath)
    (tree : Schema.File) :
    let scope := (Scope.ofFile path tree imports).1
    (∀ index file, ⟨index, file⟩ ∈ scope.visible ↔
      ∃ edge, imports[index]? = some edge ∧ edge.Offers file) ∧
    (scope.visible.map fun shown => (shown.index, shown.file.path)).Nodup ∧
    ∀ name place typesOnly, (scope.resolve? ⟨true, name⟩ place typesOnly).isSome ↔
      ((linkedFile path tree imports).symbol? name).isSome ∨
        ∃ edge ∈ imports, ∃ file, edge.Offers file ∧ (file.symbol? name).isSome := by
  intro scope
  have hvisible (index : Nat) (file : File) : ⟨index, file⟩ ∈ scope.visible ↔
      ∃ edge, imports[index]? = some edge ∧ edge.Offers file := by
    constructor
    · intro hshown
      obtain ⟨i, edge, target, hedge, _, _, hindex⟩ := mem_exposedFrom_iff.mp hshown
      obtain rfl : index = i := by simpa using hindex
      exact ⟨edge, hedge,
        (mem_exposed_iff hedge (honce edge (List.mem_of_getElem? hedge))).mp hshown⟩
    · rintro ⟨edge, hedge, hoffers⟩
      exact (mem_exposed_iff hedge (honce edge (List.mem_of_getElem? hedge))).mpr hoffers
  refine ⟨hvisible, nodup_exposedFrom 0 imports, fun name place typesOnly => ?_⟩
  have hown : ((linkedFile path tree imports).symbol? name).isSome ↔
      (scope.own.find? (·.1 = name)).isSome := by
    rw [File.symbol?, Option.isSome_map]
    rfl
  rw [hown]
  refine Scope.lookup?_isSome_iff.trans (or_congr_right ?_)
  constructor
  · rintro ⟨⟨index, file⟩, hshown, hsymbol⟩
    obtain ⟨edge, hedge, hoffers⟩ := (hvisible index file).mp hshown
    exact ⟨edge, List.mem_of_getElem? hedge, file, hoffers, hsymbol⟩
  · rintro ⟨edge, hedge, file, hoffers, hsymbol⟩
    obtain ⟨index, hindex⟩ := List.mem_iff_getElem?.mp hedge
    exact ⟨⟨index, file⟩, (hvisible index file).mpr ⟨edge, hindex, hoffers⟩, hsymbol⟩

/-- The file that the first import reached passes one file on and keeps another to itself: the
name of the one resolves, that of the other does not. -/
theorem visible_iff_offered_kept : ∃ (path : VirtualPath) (tree : Schema.File)
    (edge : Import) (between passed kept : File), edge.target = some between ∧
    between.dependencies = [passed, kept] ∧ (passed.symbol? ["P"]).isSome ∧
    (kept.symbol? ["K"]).isSome ∧ edge.OffersOnce ∧
    ((Scope.ofFile path tree [edge]).1.resolve? ⟨true, ["P"]⟩ [] true).isSome ∧
    ¬((Scope.ofFile path tree [edge]).1.resolve? ⟨true, ["K"]⟩ [] true).isSome := by
  let a : VirtualPath := ⟨⟨false, ["a.proto"], by decide⟩, by decide⟩
  let b : VirtualPath := ⟨⟨false, ["b.proto"], by decide⟩, by decide⟩
  let c : VirtualPath := ⟨⟨false, ["c.proto"], by decide⟩, by decide⟩
  let d : VirtualPath := ⟨⟨false, ["d.proto"], by decide⟩, by decide⟩
  let file (path : VirtualPath) (name : String) (imports : List Import) : File :=
    ⟨path, .proto2, none, [], [], [], [], [], imports, [([name], .message)], true⟩
  let passed : File := file c "P" []
  let kept : File := file d "K" []
  let between : File :=
    file b "B" [⟨c, .reexport, ⟨1, 1⟩, some passed⟩, ⟨d, .plain, ⟨2, 1⟩, some kept⟩]
  let edge : Import := ⟨b, .plain, ⟨1, 1⟩, some between⟩
  have hclosed : ∀ f ∈ [between, passed], f.reexports ⊆ [between, passed] := by
    simp [between, passed, file, File.reexports]
  have hoffered (f : File) (h : edge.Offers f) : f ∈ [between, passed] := by
    obtain ⟨target, htarget, hreaches⟩ := h
    obtain rfl : between = target := Option.some.inj htarget
    exact mem_of_reaches hclosed List.mem_cons_self hreaches
  have honce : edge.OffersOnce := by
    have hpaths : ([between, passed].map (·.path)).Nodup := by decide
    exact fun f g hf hg => List.inj_on_of_nodup_map hpaths (hoffered f hf) (hoffered g hg)
  have hresolves := (visible_iff_offered (List.forall_mem_singleton.mpr honce) a .empty).2.2
  refine ⟨a, .empty, edge, between, passed, kept, rfl, rfl, rfl, rfl, honce, ?_, ?_⟩
  · refine (hresolves ["P"] [] true).mpr (.inr ⟨edge, List.mem_singleton.mpr rfl, passed, ?_, rfl⟩)
    exact ⟨between, rfl, .single List.mem_cons_self⟩
  · rw [hresolves]
    rintro (hown | ⟨other, hother, f, hoffers, hsymbol⟩)
    · cases hown
    · rw [List.mem_singleton.mp hother] at hoffers
      rcases List.mem_pair.mp (hoffered f hoffers) with rfl | rfl
      · cases hsymbol
      · cases hsymbol

end ProtoSchema.Linked
