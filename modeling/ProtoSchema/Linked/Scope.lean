import ProtoSchema.Linked.Closure

/-!
What a name means at a place in a file. A file sees its own names, those of the
files it imports, and what those pass on. A relative name is looked up in the
scope around it and then in each enclosing scope; where the first component of
a longer name is found to hold other names, the rest must be inside it.
-/

namespace ProtoSchema.Linked

/-- A file that is visible through the import with the given index. -/
structure Exposed where
  index : Nat
  file : File

/-- The files visible through each import, import by import. -/
def exposedFrom (index : Nat) : List Import → List Exposed
  | [] => []
  | edge :: rest =>
    (edge.target.toList.flatMap passedOn).map (Exposed.mk index) ++ exposedFrom (index + 1) rest

def exposed (imports : List Import) : List Exposed := exposedFrom 0 imports

/-- The names known in a file. With a missing or incomplete import, names that
it would have supplied may be absent. -/
structure Scope where
  path : VirtualPath
  own : SymbolTable
  visible : List Exposed
  lenient : Bool

/-- A name with what it refers to and the file that declares it. -/
structure Found where
  name : DottedName
  kind : SymbolKind
  file : VirtualPath
deriving DecidableEq

/-- A scope and those around it, innermost first. -/
def enclosing : DottedName → List DottedName
  | [] => [[]]
  | part :: rest => (enclosing rest).map (part :: ·) ++ [[]]

namespace Scope

/-- Looks up a full name, first in the file itself. -/
def lookup? (scope : Scope) (name : DottedName) : Option Found :=
  match scope.own.find? (·.1 = name) with
  | some entry => some ⟨name, entry.2, scope.path⟩
  | none => scope.visible.findSome? fun exposed =>
      (exposed.file.symbol? name).map fun kind => ⟨name, kind, exposed.file.path⟩

/-- Looks `first` up in each place in turn and the rest of the name inside the
first that holds other names. A name without a rest is what it is found to be;
with `typesOnly`, a symbol that is no type does not count. -/
def searchOutward (scope : Scope) (typesOnly : Bool) (first : String) (rest : DottedName) :
    List DottedName → Option Found
  | [] => none
  | place :: outer =>
    match scope.lookup? (place.member first) with
    | none => scope.searchOutward typesOnly first rest outer
    | some found =>
      if rest = [] then
        if typesOnly && !found.kind.isType then
          scope.searchOutward typesOnly first rest outer
        else some found
      else if found.kind.isAggregate then scope.lookup? (place ++ first :: rest)
      else scope.searchOutward typesOnly first rest outer

/-- What `name` means at `place`. -/
def resolve? (scope : Scope) (name : TypeName) (place : DottedName) (typesOnly : Bool) :
    Option Found :=
  if name.absolute then scope.lookup? name.parts
  else
    match name.parts with
    | [] => none
    | first :: rest => scope.searchOutward typesOnly first rest (enclosing place)

end Scope

end ProtoSchema.Linked
