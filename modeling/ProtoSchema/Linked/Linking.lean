import ProtoSchema.Linked.Binding

/-!
Linking a file against what its imports reached. Every problem found is given
when one of them is an error; otherwise the linked file is given with the
warnings. An import is used when some reference or option name means a symbol
that a file visible through it declares.
-/

namespace ProtoSchema.Linked

/-- The edge reached a file with nothing missing below it. -/
def ImportEdge.IsIntact (edge : Import) : Prop := ∃ file, edge.target = some file ∧ file.complete

instance (edge : Import) : Decidable edge.IsIntact :=
  match h : edge.target with
  | none => isFalse fun ⟨_, hf, _⟩ => by simp [h] at hf
  | some file =>
    if hc : file.complete then isTrue ⟨file, h, hc⟩
    else isFalse fun ⟨_, hf, hg⟩ => hc (by rw [h] at hf; cases hf; exact hg)

namespace Scope

/-- The scope of a file with the names declared in it, and the clashes. -/
def ofFile (path : VirtualPath) (file : Schema.File) (imports : List Import) :
    Scope × List Problem :=
  let visible := exposed imports
  let (own, problems) := Declaration.enterAll visible (Declaration.ofFile file) []
  let lenient := decide (¬∀ edge ∈ imports, edge.IsIntact)
  (⟨path, own, visible, lenient⟩, problems)

/-- The references reach a symbol through the import with the index. -/
def Uses (scope : Scope) (references : List Found) (index : Nat) : Prop :=
  ∃ found ∈ references, found.file ≠ scope.path ∧
    ∃ exposed ∈ scope.visible, exposed.index = index ∧
      (exposed.file.symbol? found.name).isSome

instance (scope : Scope) (references : List Found) (index : Nat) :
    Decidable (scope.Uses references index) :=
  inferInstanceAs (Decidable (∃ found ∈ references, _ ∧ ∃ exposed ∈ scope.visible, _))

/-- A warning for each import from `index` on that could be dropped. -/
def unusedFrom (scope : Scope) (references : List Found) (index : Nat) :
    List Import → List Problem
  | [] => []
  | edge :: rest =>
    let more := scope.unusedFrom references (index + 1) rest
    if edge.target.isSome ∧ edge.kind ≠ .reexport ∧ ¬scope.Uses references index then
      ⟨edge.position, .unusedImport edge.path⟩ :: more
    else more

end Scope

/-- A file that was linked, with the warnings about it. -/
structure Outcome where
  file : File
  warnings : List Problem

/-- Links the file at `path`. -/
def link (warnUnused : Bool) (path : VirtualPath) (file : Schema.File) (imports : List Import) :
    Except (List Problem) Outcome :=
  let (scope, clashes) := Scope.ofFile path file imports
  let bound := scope.bindFile file
  let references := bound.findings.filterMap Finding.reference?
  let unused := if warnUnused then scope.unusedFrom references 0 imports else []
  let problems := clashes ++ bound.findings.filterMap Finding.problem? ++ unused
  if ∃ problem ∈ problems, problem.IsError then .error problems
  else
    .ok {
      file := {
        path := path
        dialect := file.dialect
        package := file.package
        options := file.options
        messages := bound.value.messages
        enums := bound.value.enums
        services := bound.value.services
        extensions := bound.value.extensions
        imports := imports
        symbols := scope.own
        complete := !scope.lenient }
      warnings := problems }

end ProtoSchema.Linked
