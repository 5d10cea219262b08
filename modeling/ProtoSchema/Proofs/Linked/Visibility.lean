import Mathlib.Data.List.Nodup
import Mathlib.Data.Prod.Basic
import ProtoSchema.Catalog
import ProtoSchema.Linked.Scope
import ProtoSchema.Proofs.Ledger.Published

/-!
What a file sees: itself, the files that its imports reach, and what these pass on. A closure
lists only files that are reached from where it starts, and a file of every path that is
reached. So a catalog has each file that one of its roots sees, provided that no other file
of the catalog has the same path.
-/

namespace ProtoSchema.Linked

open Relation

section Closure

variable {next : File → List File} {hnext : ∀ file, weight (next file) < sizeOf file}
  {seen : List VirtualPath} {pending : List File} {file : File}

/-- The file is one of the roots, or the chosen edges lead there from one. -/
def ReachedFrom (next : File → List File) (roots : List File) (file : File) : Prop :=
  ∃ root ∈ roots, ReflTransGen (fun a b => b ∈ next a) root file

theorem exists_reaches_of_mem_closure (h : file ∈ closure next hnext seen pending) :
    ReachedFrom next pending file := by
  induction seen, pending using closure.induct next hnext with
  | case1 seen =>
    rw [closure] at h
    cases h
  | case2 seen first rest hseen ih =>
    rw [closure, if_pos hseen] at h
    obtain ⟨root, hroot, hreaches⟩ := ih h
    exact ⟨root, List.mem_cons_of_mem _ hroot, hreaches⟩
  | case3 seen first rest hseen ih =>
    rw [closure, if_neg hseen] at h
    rcases List.mem_cons.mp h with rfl | h
    · exact ⟨file, List.mem_cons_self, .refl⟩
    · obtain ⟨root, hroot, hreaches⟩ := ih h
      rcases List.mem_append.mp hroot with hroot | hroot
      · exact ⟨first, List.mem_cons_self, .head hroot hreaches⟩
      · exact ⟨root, List.mem_cons_of_mem _ hroot, hreaches⟩

/-- The chosen edges do not lead out of files that are closed under them. -/
theorem mem_of_reaches {files : List File} {start : File}
    (hclosed : ∀ f ∈ files, next f ⊆ files) (hstart : start ∈ files)
    (h : ReflTransGen (fun a b => b ∈ next a) start file) : file ∈ files := by
  induction h with
  | refl => exact hstart
  | tail _ hnext ih => exact hclosed _ ih hnext

def Met (seen : List VirtualPath) (files : List File) (path : VirtualPath) : Prop :=
  path ∈ seen ∨ ∃ file ∈ files, file.path = path

theorem Met.cons {files : List File} {path : VirtualPath} (h : Met (file.path :: seen) files path) :
    Met seen (file :: files) path := by
  rcases h with hseen | ⟨other, hother, hpath⟩
  · rcases List.mem_cons.mp hseen with rfl | hseen
    · exact .inr ⟨file, List.mem_cons_self, rfl⟩
    · exact .inl hseen
  · exact .inr ⟨other, List.mem_cons_of_mem _ hother, hpath⟩

/-- No path is left out: neither one to start from nor one that a listed file leads to. -/
theorem met_closure (next : File → List File) (hnext : ∀ file, weight (next file) < sizeOf file)
    (seen : List VirtualPath) (pending : List File) :
    (∀ file ∈ pending, Met seen (closure next hnext seen pending) file.path) ∧
      ∀ file ∈ closure next hnext seen pending, ∀ other ∈ next file,
        Met seen (closure next hnext seen pending) other.path := by
  induction seen, pending using closure.induct next hnext with
  | case1 seen =>
    rw [closure]
    simp
  | case2 seen first rest hseen ih =>
    rw [closure, if_pos hseen]
    exact ⟨List.forall_mem_cons.mpr ⟨.inl hseen, ih.1⟩, ih.2⟩
  | case3 seen first rest hseen ih =>
    rw [closure, if_neg hseen]
    obtain ⟨hpending, hlisted⟩ := ih
    obtain ⟨hfirst, hrest⟩ := List.forall_mem_append.mp hpending
    refine ⟨?_, ?_⟩
    · refine List.forall_mem_cons.mpr ⟨.inr ⟨first, List.mem_cons_self, rfl⟩, ?_⟩
      exact fun file hfile => (hrest file hfile).cons
    · refine List.forall_mem_cons.mpr ⟨fun other hother => (hfirst other hother).cons, ?_⟩
      exact fun file hfile other hother => (hlisted file hfile other hother).cons

/-- A file of a path that is met is listed itself where no other file of the path is reached. -/
theorem mem_closure_of_met
    (hunique : ∀ f, ReachedFrom next pending f → f.path = file.path → f = file)
    (h : Met [] (closure next hnext [] pending) file.path) :
    file ∈ closure next hnext [] pending := by
  rcases h with hseen | ⟨found, hfound, hsame⟩
  · cases hseen
  · rwa [hunique found (exists_reaches_of_mem_closure hfound) hsame] at hfound

/-- With one file for each path, a closure lists just the files that are reached. -/
theorem mem_closure_iff
    (hunique : ∀ f g, ReachedFrom next pending f → ReachedFrom next pending g →
      f.path = g.path → f = g) :
    file ∈ closure next hnext [] pending ↔ ReachedFrom next pending file := by
  refine ⟨exists_reaches_of_mem_closure, ?_⟩
  rintro ⟨root, hroot, hreaches⟩
  obtain ⟨hstart, hclosed⟩ := met_closure next hnext [] pending
  have hlisted {f : File} (hf : ReachedFrom next pending f) :
      Met [] (closure next hnext [] pending) f.path → f ∈ closure next hnext [] pending :=
    mem_closure_of_met fun g hg => hunique g f hg hf
  induction hreaches with
  | refl => exact hlisted ⟨root, hroot, .refl⟩ (hstart root hroot)
  | tail hbefore hstep ih =>
    exact hlisted ⟨root, hroot, hbefore.tail hstep⟩ (hclosed _ ih _ hstep)

/-- No path is listed twice, and none that was seen before. -/
theorem nodup_closure (next : File → List File)
    (hnext : ∀ file, weight (next file) < sizeOf file) (seen : List VirtualPath)
    (pending : List File) :
    ((closure next hnext seen pending).map (·.path)).Nodup ∧
      ∀ file ∈ closure next hnext seen pending, file.path ∉ seen := by
  induction seen, pending using closure.induct next hnext with
  | case1 seen =>
    rw [closure]
    simp
  | case2 seen first rest hseen ih =>
    rw [closure, if_pos hseen]
    exact ih
  | case3 seen first rest hseen ih =>
    rw [closure, if_neg hseen]
    obtain ⟨hnodup, hfresh⟩ := ih
    refine ⟨?_, ?_⟩
    · rw [List.map_cons, List.nodup_cons]
      refine ⟨fun h => ?_, hnodup⟩
      obtain ⟨other, hother, hpath⟩ := List.mem_map.mp h
      exact hfresh other hother (hpath ▸ List.mem_cons_self)
    · refine List.forall_mem_cons.mpr ⟨hseen, fun other hother hmem => ?_⟩
      exact hfresh other hother (List.mem_cons_of_mem _ hmem)

end Closure

/-- The import reaches the file, or reexporting imports lead there from the file it reaches. -/
def ImportEdge.Offers (edge : Import) (file : File) : Prop :=
  ∃ target, edge.target = some target ∧
    ReflTransGen (fun a b => b ∈ a.reexports) target file

/-- The import offers one file for each path at most. -/
def ImportEdge.OffersOnce (edge : Import) : Prop :=
  ∀ f g, edge.Offers f → edge.Offers g → f.path = g.path → f = g

/-- An import reaches the file, or a visible file passes it on. -/
inductive Visible (imports : List Import) : File → Prop
  | direct {edge : Import} {file : File} (hedge : edge ∈ imports)
      (htarget : edge.target = some file) : Visible imports file
  | passed {file other : File} (h : Visible imports file) (hother : other ∈ file.reexports) :
      Visible imports other

variable {imports : List Import} {file other : File} {roots : List File}

/-- A file lists itself and all that it passes on. -/
theorem mem_passedOn_iff {target file : File}
    (hunique : ∀ f g, ReflTransGen (fun a b => b ∈ a.reexports) target f →
      ReflTransGen (fun a b => b ∈ a.reexports) target g → f.path = g.path → f = g) :
    file ∈ passedOn target ↔ ReflTransGen (fun a b => b ∈ a.reexports) target file := by
  have hreached (f : File) : ReachedFrom (fun f => f.reexports.reverse) [target] f ↔
      ReflTransGen (fun a b => b ∈ a.reexports) target f := by
    simp only [ReachedFrom, List.mem_singleton, exists_eq_left, List.mem_reverse]
  rw [passedOn, mem_closure_iff, hreached]
  simpa only [hreached] using hunique

theorem nodup_passedOn (target : File) : ((passedOn target).map (·.path)).Nodup :=
  (nodup_closure _ _ [] [target]).1

theorem mem_exposedFrom_iff {start : Nat} {imports : List Import} {exposed : Exposed} :
    exposed ∈ exposedFrom start imports ↔ ∃ i edge target, imports[i]? = some edge ∧
      edge.target = some target ∧ exposed.file ∈ passedOn target ∧ exposed.index = start + i := by
  induction imports generalizing start with
  | nil => simp [exposedFrom]
  | cons edge rest ih =>
    rw [exposedFrom, List.mem_append, ih]
    constructor
    · rintro (hfirst | ⟨i, other, target, hother, htarget, hpassed, hindex⟩)
      · obtain ⟨file, hfile, rfl⟩ := List.mem_map.mp hfirst
        obtain ⟨target, htarget, hpassed⟩ := List.mem_flatMap.mp hfile
        exact ⟨0, edge, target, rfl, Option.mem_toList.mp htarget, hpassed, rfl⟩
      · exact ⟨i + 1, other, target, hother, htarget, hpassed, by omega⟩
    · rintro ⟨i, other, target, hother, htarget, hpassed, hindex⟩
      cases i with
      | zero =>
        cases hother
        refine .inl (List.mem_map.mpr ⟨exposed.file, ?_, ?_⟩)
        · exact List.mem_flatMap.mpr ⟨target, Option.mem_toList.mpr htarget, hpassed⟩
        · rw [Nat.add_zero] at hindex
          rw [← hindex]
      | succ i => exact .inr ⟨i, other, target, hother, htarget, hpassed, by omega⟩

theorem mem_exposedFrom {index : Nat} {exposed : Exposed}
    (h : exposed ∈ exposedFrom index imports) :
    ∃ edge ∈ imports, ∃ target, edge.target = some target ∧ exposed.file ∈ passedOn target := by
  obtain ⟨i, edge, target, hedge, htarget, hpassed, _⟩ := mem_exposedFrom_iff.mp h
  exact ⟨edge, List.mem_of_getElem? hedge, target, htarget, hpassed⟩

/-- Through an import just those files are visible that it offers. -/
theorem mem_exposed_iff {index : Nat} {edge : Import} (hedge : imports[index]? = some edge)
    (honce : edge.OffersOnce) : ⟨index, file⟩ ∈ exposed imports ↔ edge.Offers file := by
  rw [exposed, mem_exposedFrom_iff]
  constructor
  · rintro ⟨i, other, target, hother, htarget, hpassed, hindex⟩
    obtain rfl : index = i := by simpa using hindex
    rw [hedge] at hother
    cases hother
    refine ⟨target, htarget, (mem_passedOn_iff fun f g hf hg => ?_).mp hpassed⟩
    exact honce f g ⟨target, htarget, hf⟩ ⟨target, htarget, hg⟩
  · rintro ⟨target, htarget, hreaches⟩
    refine ⟨index, edge, target, hedge, htarget, ?_, (Nat.zero_add index).symm⟩
    refine (mem_passedOn_iff fun f g hf hg => ?_).mpr hreaches
    exact honce f g ⟨target, htarget, hf⟩ ⟨target, htarget, hg⟩

/-- Each import lists the path of a file once. -/
theorem nodup_exposedFrom (start : Nat) (imports : List Import) :
    ((exposedFrom start imports).map fun shown => (shown.index, shown.file.path)).Nodup := by
  induction imports generalizing start with
  | nil => exact List.nodup_nil
  | cons edge rest ih =>
    rw [exposedFrom, List.map_append, List.nodup_append]
    refine ⟨?_, ih (start + 1), ?_⟩
    · cases edge.target with
      | none => exact List.nodup_nil
      | some target =>
        have hpaths := (nodup_passedOn target).map (Prod.mk_right_injective start)
        simpa [Function.comp_def] using hpaths
    · rintro _ hfirst _ hlater rfl
      obtain ⟨shown, hshown, hkey⟩ := List.mem_map.mp hlater
      obtain ⟨i, _, _, _, _, _, hindex⟩ := mem_exposedFrom_iff.mp hshown
      simp only [List.map_map, List.mem_map, Function.comp_apply] at hfirst
      obtain ⟨file, _, hsame⟩ := hfirst
      rw [← hsame, Prod.mk.injEq] at hkey
      omega

theorem ImportEdge.offersOnce_of_no_reexports {edge : Import}
    (h : ∀ target, edge.target = some target → target.reexports = []) : edge.OffersOnce := by
  have honly (file : File) (hoffers : edge.Offers file) : edge.target = some file := by
    obtain ⟨target, htarget, hreaches⟩ := hoffers
    rcases hreaches.cases_head with rfl | ⟨next, hnext, _⟩
    · exact htarget
    · rw [h target htarget] at hnext
      cases hnext
  intro f g hf hg _
  exact Option.some.inj ((honly f hf).symm.trans (honly g hg))

theorem visible_of_mem_exposed {exposed : Exposed} (h : exposed ∈ Linked.exposed imports) :
    Visible imports exposed.file := by
  obtain ⟨edge, hedge, target, htarget, hpassed⟩ := mem_exposedFrom h
  obtain ⟨root, hroot, hreaches⟩ := exists_reaches_of_mem_closure hpassed
  rw [List.mem_singleton.mp hroot] at hreaches
  generalize exposed.file = file at hreaches
  induction hreaches with
  | refl => exact .direct hedge htarget
  | tail _ hnext ih => exact ih.passed (List.mem_reverse.mp hnext)

namespace File

def Sees (file other : File) : Prop := other = file ∨ Visible file.imports other

theorem mem_dependencies_of_mem_reexports (h : other ∈ file.reexports) :
    other ∈ file.dependencies := by
  rw [reexports, List.mem_filterMap] at h
  obtain ⟨edge, hedge, htarget⟩ := h
  exact mem_dependencies.mpr ⟨edge, List.mem_of_mem_filter hedge, htarget⟩

end File

/-- A catalog has what its roots see. -/
theorem mem_ofFiles_of_sees (hroot : file ∈ roots)
    (hpaths : ∀ root ∈ roots, ∀ f, root.Leads f → ∀ g, file.Sees g → f.path = g.path → f = g)
    (h : file.Sees other) : other ∈ (Catalog.ofFiles roots).files := by
  have hmet := met_closure File.dependencies File.weight_dependencies_lt [] roots
  have hlisted {g : File} (hsees : file.Sees g) (hg : Met [] (withDependencies roots) g.path) :
      g ∈ withDependencies roots :=
    mem_closure_of_met (fun f ⟨root, hroot, hleads⟩ => hpaths root hroot f hleads g hsees) hg
  have hfile := hlisted (.inl rfl) (hmet.1 file hroot)
  rcases h with rfl | hvisible
  · exact hfile
  · induction hvisible with
    | direct hedge htarget =>
      refine hlisted (.inr (.direct hedge htarget)) (hmet.2 file hfile _ ?_)
      exact File.mem_dependencies.mpr ⟨_, hedge, htarget⟩
    | passed hbefore hother ih =>
      refine hlisted (.inr (hbefore.passed hother)) (hmet.2 _ ih _ ?_)
      exact File.mem_dependencies_of_mem_reexports hother

end ProtoSchema.Linked
