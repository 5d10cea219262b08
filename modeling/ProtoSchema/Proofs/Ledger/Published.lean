import ProtoSchema.Linked.Linking
import ProtoSchema.Proofs.Ledger.Entries
import Mathlib.Logic.Relation

/-!
Files that a ledger has compiled. Each was linked from a tree and from edges, and the
ledger still has what the edges reached. So the compiled files are closed under their
resolved imports, and whether one is complete is told by the trees and the edges of all
the files that it leads to.
-/

namespace ProtoSchema

open Linked (File Import)
open Relation

def Schema.File.NamesValidPaths (tree : Schema.File) : Prop :=
  ∀ statement ∈ tree.imports, ∃ target, VirtualPath.read statement.path = .ok target

namespace Linked

theorem sizeOf_le_weight {file : File} {files : List File} (h : file ∈ files) :
    sizeOf file ≤ weight files := by
  induction files with
  | nil => cases h
  | cons first rest ih =>
    rw [weight]
    rcases List.mem_cons.mp h with rfl | hrest
    · omega
    · have := ih hrest
      omega

namespace File

theorem sizeOf_lt_of_mem_dependencies {file other : File} (h : other ∈ file.dependencies) :
    sizeOf other < sizeOf file :=
  Nat.lt_of_le_of_lt (sizeOf_le_weight h) file.weight_dependencies_lt

/-- The other file is reached through resolved imports, or is the file itself. -/
def Leads (file other : File) : Prop := ReflTransGen (fun a b => b ∈ a.dependencies) file other

theorem mem_dependencies {file target : File} :
    target ∈ file.dependencies ↔ ∃ edge ∈ file.imports, edge.target = some target := by
  rw [dependencies, List.mem_filterMap]

end File

end Linked

namespace Ledger

def Backs (ledger : Ledger) (edges : List Import) : Prop :=
  ∀ edge ∈ edges, ∀ target, edge.target = some target →
    ledger.entry? edge.path = some (.compiled target)

structure Publishes (origin : VirtualPath → Schema.File → Prop) (ledger : Ledger)
    (path : VirtualPath) (file : File) : Prop where
  path_eq : file.path = path
  backs : ledger.Backs file.imports
  sealed : ∃ tree, origin path tree ∧
    (file.complete = true ↔ (∀ edge ∈ file.imports, edge.IsIntact) ∧ tree.NamesValidPaths)

def Coherent (origin : VirtualPath → Schema.File → Prop) (ledger : Ledger) : Prop :=
  ∀ path file, ledger.entry? path = some (.compiled file) → ledger.Publishes origin path file

variable {ledger after : Ledger} {origin : VirtualPath → Schema.File → Prop} {path : VirtualPath}
  {file : File} {entry : Entry} {edges : List Import}

theorem Backs.of_stays (h : ledger.Backs edges)
    (hstays : ∀ p found, ledger.entry? p = some (.compiled found) →
      after.entry? p = some (.compiled found)) : after.Backs edges := by
  intro edge hedge target htarget
  exact hstays _ _ (h edge hedge target htarget)

theorem Backs.concat (h : ledger.Backs edges) {edge : Import}
    (hedge : ∀ target, edge.target = some target →
      ledger.entry? edge.path = some (.compiled target)) : ledger.Backs (edges ++ [edge]) := by
  intro other hmem
  rcases List.mem_append.mp hmem with hmem | hmem
  · exact h other hmem
  · rw [List.mem_singleton.mp hmem]
    exact hedge

theorem Backs.put (h : ledger.Backs edges)
    (hopen : ∀ found, ledger.entry? path ≠ some (.compiled found)) :
    (ledger.put path entry).Backs edges := by
  refine h.of_stays ?_
  intro p found hfound
  have hne : p ≠ path := by
    rintro rfl
    exact hopen found hfound
  rw [entry?_put_of_ne _ _ _ _ hne]
  exact hfound

/-- A path that had no file may get one that fits. -/
theorem Coherent.put (h : ledger.Coherent origin)
    (hopen : ∀ found, ledger.entry? path ≠ some (.compiled found))
    (hnew : ∀ found, entry = .compiled found →
      (ledger.put path entry).Publishes origin path found) :
    (ledger.put path entry).Coherent origin := by
  intro p found hfound
  by_cases hp : p = path
  · subst hp
    rw [entry?_put_self, Option.some.injEq] at hfound
    exact hnew found hfound
  · rw [entry?_put_of_ne _ _ _ _ hp] at hfound
    have hold := h p found hfound
    exact ⟨hold.path_eq, hold.backs.put hopen, hold.sealed⟩

theorem Coherent.mono {others : VirtualPath → Schema.File → Prop} (h : ledger.Coherent origin)
    (hsub : ∀ p found tree, ledger.entry? p = some (.compiled found) → origin p tree →
      others p tree) : ledger.Coherent others := by
  intro p found hfound
  obtain ⟨hpath, hbacks, tree, horigin, hcomplete⟩ := h p found hfound
  exact ⟨hpath, hbacks, tree, hsub p found tree hfound horigin, hcomplete⟩

/-- A complete file leads to published files only, each complete. -/
theorem Coherent.complete_of_leads (h : ledger.Coherent origin) {other : File}
    (hentry : ledger.entry? path = some (.compiled file)) (hcomplete : file.complete = true)
    (hleads : file.Leads other) :
    ∃ p, ledger.entry? p = some (.compiled other) ∧ other.complete = true := by
  induction hleads with
  | refl => exact ⟨path, hentry, hcomplete⟩
  | tail _ hmem ih =>
    obtain ⟨p, hmid, hwhole⟩ := ih
    obtain ⟨edge, hedge, htarget⟩ := Linked.File.mem_dependencies.mp hmem
    have hpublished := h p _ hmid
    obtain ⟨tree, _, hiff⟩ := hpublished.sealed
    obtain ⟨reached, hreached, hdone⟩ := (hiff.mp hwhole).1 edge hedge
    rw [htarget] at hreached
    cases hreached
    exact ⟨edge.path, hpublished.backs edge hedge _ htarget, hdone⟩

/-- A file is complete when no file that it leads to misses an edge or came from a tree
with a path that is not valid. -/
theorem Coherent.complete_of_nothing_missing (h : ledger.Coherent origin)
    (hentry : ledger.entry? path = some (.compiled file))
    (hbelow : ∀ other, file.Leads other → (∀ edge ∈ other.imports, edge.target.isSome = true) ∧
      ∀ tree, origin other.path tree → tree.NamesValidPaths) : file.complete = true := by
  induction hsize : sizeOf file using Nat.strongRecOn generalizing path file with
  | ind size ih =>
    have hpublished := h path file hentry
    obtain ⟨tree, horigin, hiff⟩ := hpublished.sealed
    obtain ⟨hresolved, hvalid⟩ := hbelow file .refl
    refine hiff.mpr ⟨?_, hvalid tree (hpublished.path_eq ▸ horigin)⟩
    intro edge hedge
    obtain ⟨target, htarget⟩ := Option.isSome_iff_exists.mp (hresolved edge hedge)
    have hmem := Linked.File.mem_dependencies.mpr ⟨edge, hedge, htarget⟩
    have hsmaller := Linked.File.sizeOf_lt_of_mem_dependencies hmem
    refine ⟨target, htarget, ?_⟩
    exact ih (sizeOf target) (hsize ▸ hsmaller) (hpublished.backs edge hedge target htarget)
      (fun other hleads => hbelow other (.head hmem hleads)) rfl

def Entry.WasLoaded : Entry → Prop
  | .failed reason => reason = .syntaxErrors ∨ reason = .linkErrors
  | _ => True

end Ledger

end ProtoSchema
