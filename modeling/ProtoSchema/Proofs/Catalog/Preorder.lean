import ProtoSchema.Proofs.Linked.Visibility

/-!
The order of the files of a catalog. They stand as a walk by recursion comes to them that lists
a file before the files its imports reached, takes these in the order of the imports, and passes
over every path that is listed. The closure keeps the files that are left to visit in one list
and finds out only at its turn that a file was listed in the meantime. This comes to the same,
since what is left behind a file are the rests of the loops that the recursion is still in.
-/

namespace ProtoSchema.Linked

open Relation

variable {roots pending listed : List File} {seen : List VirtualPath} {file : File}

def visit (listed : List File) (file : File) : List File :=
  if ∃ other ∈ listed, other.path = file.path then listed
  else file.dependencies.attach.foldl (fun listed next => visit listed next.1) (listed ++ [file])
termination_by sizeOf file
decreasing_by exact File.sizeOf_lt_of_mem_dependencies next.2

def walk (roots : List File) : List File := roots.foldl visit []

theorem visit_of_listed (h : ∃ other ∈ listed, other.path = file.path) :
    visit listed file = listed := by
  rw [visit, if_pos h]

theorem visit_of_not_listed (h : ¬∃ other ∈ listed, other.path = file.path) :
    visit listed file = file.dependencies.foldl visit (listed ++ [file]) := by
  rw [visit, if_neg h]
  exact List.foldl_attach

/-- A closure goes on where a walk has come to: the files left to visit are visited in turn. -/
theorem foldl_visit_eq_append_closure
    (hseen : ∀ path, path ∈ seen ↔ ∃ other ∈ listed, other.path = path) :
    pending.foldl visit listed =
      listed ++ closure File.dependencies File.weight_dependencies_lt seen pending := by
  induction seen, pending using closure.induct File.dependencies File.weight_dependencies_lt
    generalizing listed with
  | case1 seen =>
    rw [closure, List.append_nil, List.foldl_nil]
  | case2 seen first rest hfirst ih =>
    rw [closure, if_pos hfirst, List.foldl_cons, visit_of_listed ((hseen _).mp hfirst)]
    exact ih hseen
  | case3 seen first rest hfirst ih =>
    have hnext (path : VirtualPath) :
        path ∈ first.path :: seen ↔ ∃ other ∈ listed ++ [first], other.path = path := by
      rw [List.mem_cons, hseen]
      simp only [List.mem_append, List.mem_singleton, or_and_right, exists_or, exists_eq_left]
      rw [or_comm, eq_comm]
    rw [closure, if_neg hfirst, List.foldl_cons, visit_of_not_listed ((hseen _).not.mp hfirst),
      ← List.foldl_append, ih hnext, List.append_assoc, List.singleton_append]

theorem withDependencies_eq_walk (roots : List File) : withDependencies roots = walk roots := by
  have hnone (path : VirtualPath) :
      path ∈ ([] : List VirtualPath) ↔ ∃ other ∈ ([] : List File), other.path = path := by simp
  rw [walk, foldl_visit_eq_append_closure hnone, List.nil_append, withDependencies]

end ProtoSchema.Linked

namespace ProtoSchema.Catalog

open Linked

variable {roots : List File}

/-- The files of a catalog are listed as the walk lists them. No path is listed twice, and with
one file for each path just the files are listed that the imports of a root lead to. -/
theorem files_in_preorder
    (hunique : ∀ f g, ReachedFrom File.dependencies roots f →
      ReachedFrom File.dependencies roots g → f.path = g.path → f = g) :
    (ofFiles roots).files = walk roots ∧ ((ofFiles roots).files.map (·.path)).Nodup ∧
      ∀ file, file ∈ (ofFiles roots).files ↔ ∃ root ∈ roots, root.Leads file :=
  ⟨withDependencies_eq_walk roots, (nodup_closure _ _ [] roots).1,
    fun _ => mem_closure_iff hunique⟩

/-- A file is imported by two others, and these by a fourth. It is listed behind the first that
leads to it; the second root was listed on the way. -/
theorem files_in_preorder_diamond : ∃ (top left right base : File),
    top.dependencies = [left, right] ∧ left.dependencies = [base] ∧
    right.dependencies = [base] ∧
    (ofFiles [top, right]).files = walk [top, right] ∧
    (walk [top, right]).map (·.path) = [top, left, base, right].map (·.path) ∧
    ((ofFiles [top, right]).files.map (·.path)).Nodup ∧
    base ∈ (ofFiles [top, right]).files := by
  let a : VirtualPath := ⟨⟨false, ["a.proto"], by decide⟩, by decide⟩
  let b : VirtualPath := ⟨⟨false, ["b.proto"], by decide⟩, by decide⟩
  let c : VirtualPath := ⟨⟨false, ["c.proto"], by decide⟩, by decide⟩
  let d : VirtualPath := ⟨⟨false, ["d.proto"], by decide⟩, by decide⟩
  let file (path : VirtualPath) (imports : List Import) : File :=
    ⟨path, .proto2, none, [], [], [], [], [], imports, [], true⟩
  let base : File := file d []
  let left : File := file b [⟨d, .plain, ⟨1, 1⟩, some base⟩]
  let right : File := file c [⟨d, .reexport, ⟨1, 1⟩, some base⟩]
  let top : File := file a [⟨b, .plain, ⟨1, 1⟩, some left⟩, ⟨c, .plain, ⟨2, 1⟩, some right⟩]
  have hclosed : ∀ f ∈ [top, left, right, base], f.dependencies ⊆ [top, left, right, base] := by
    simp [top, left, right, base, file, File.dependencies]
  have hreached (f : File) (h : ReachedFrom File.dependencies [top, right] f) :
      f ∈ [top, left, right, base] := by
    obtain ⟨root, hroot, hleads⟩ := h
    refine mem_of_reaches hclosed ?_ hleads
    rcases List.mem_pair.mp hroot with rfl | rfl
    · exact List.mem_cons_self
    · exact List.mem_cons_of_mem _ (List.mem_cons_of_mem _ List.mem_cons_self)
  have hpaths : ([top, left, right, base].map (·.path)).Nodup := by decide
  obtain ⟨hwalk, hnodup, hmem⟩ := files_in_preorder fun f g hf hg =>
    List.inj_on_of_nodup_map hpaths (hreached f hf) (hreached g hg)
  refine ⟨top, left, right, base, rfl, rfl, rfl, hwalk, by decide +kernel, hnodup, ?_⟩
  refine (hmem base).mpr ⟨right, List.mem_cons_of_mem _ List.mem_cons_self, ?_⟩
  exact .single List.mem_cons_self

end ProtoSchema.Catalog
