import ProtoSchema.Linked.Closure
import ProtoSchema.Text.Split

/-!
Looking up declarations across linked files. A catalog holds the given files
and all they import. For each name that is declared it notes the place of the
first file that declares it, and it looks for the declaration in that file.
Names are given as text.
-/

namespace ProtoSchema

open Linked

/-- Full names, each with the place of a file that declares it. -/
abbrev NameIndex := List (String × Nat)

namespace NameIndex

/-- A name that stands in the index keeps its place. -/
def note (place : Nat) (index : NameIndex) (name : String) : NameIndex :=
  match index.lookup name with
  | some _ => index
  | none => index ++ [(name, place)]

/-- Notes the names that the file at a place declares. -/
def add (names : File → List String) (index : NameIndex) (entry : File × Nat) : NameIndex :=
  (names entry.1).foldl (note entry.2) index

def ofFiles (names : File → List String) (files : List File) : NameIndex :=
  files.zipIdx.foldl (add names) []

end NameIndex

structure Catalog where
  files : List File
  messages : NameIndex
  enums : NameIndex
  services : NameIndex

/-- Why a name gives no message. -/
inductive CatalogError where
  | notFound (name : String)
  | ambiguous (name : String) (candidates : List String)
deriving DecidableEq

def CatalogError.message : CatalogError → String
  | .notFound name => "no message named \"" ++ name ++ "\" in the loaded files"
  | .ambiguous name candidates =>
    "message name \"" ++ name ++ "\" is ambiguous; candidates: " ++
      ", ".intercalate candidates

namespace Catalog

/-- The full names of the declarations, as text. -/
def names {α : Type} (declarations : File → List α) (fullName : α → DottedName)
    (file : File) : List String :=
  (declarations file).map fun declaration => (fullName declaration).text

def ofFiles (roots : List File) : Catalog where
  files := withDependencies roots
  messages := .ofFiles (names File.allMessages (·.fullName)) (withDependencies roots)
  enums := .ofFiles (names File.allEnums (·.fullName)) (withDependencies roots)
  services := .ofFiles (names File.services (·.fullName)) (withDependencies roots)

/-- The name without a leading dot. -/
def plainName (name : String) : String := (Text.dropLeading? "." name).getD name

/-- The declaration of the name in the file that the index has for it. -/
def declared? {α : Type} (catalog : Catalog) (index : NameIndex)
    (declarations : File → List α) (fullName : α → DottedName) (name : String) : Option α := do
  let place ← index.lookup (plainName name)
  let file ← catalog.files[place]?
  (declarations file).find? fun declaration => (fullName declaration).text = plainName name

def message? (catalog : Catalog) (name : String) : Option Message :=
  catalog.declared? catalog.messages File.allMessages (·.fullName) name

def enum? (catalog : Catalog) (name : String) : Option Enum :=
  catalog.declared? catalog.enums File.allEnums (·.fullName) name

def service? (catalog : Catalog) (name : String) : Option Service :=
  catalog.declared? catalog.services File.services (·.fullName) name

/-- The file that declares a message of the name, or else an enum, or else a
service. -/
def fileOf? (catalog : Catalog) (name : String) : Option File := do
  let plain := plainName name
  let place ← catalog.messages.lookup plain <|> catalog.enums.lookup plain <|>
    catalog.services.lookup plain
  catalog.files[place]?

/-- The full names of messages with the given last component, in order. -/
def candidates (catalog : Catalog) (base : String) : List String :=
  ((catalog.messages.map (·.1)).filter fun name =>
      (Text.splitAt '.' name.toList).getLast? = some base.toList).mergeSort
    fun a b => decide (a ≤ b)

/-- The only message with the given simple name. -/
def soleMessage (catalog : Catalog) (base : String) : Except CatalogError Message :=
  match catalog.candidates base with
  | [] => .error (.notFound base)
  | [only] =>
    match catalog.message? only with
    | some message => .ok message
    | none => .error (.notFound base)
  | several => .error (.ambiguous base several)

/-- The message with the full name, or, behind two dots, with the simple name. -/
def messageNamed (catalog : Catalog) (name : String) : Except CatalogError Message :=
  match Text.dropLeading? ".." name with
  | some base => catalog.soleMessage base
  | none =>
    match catalog.message? name with
    | some message => .ok message
    | none => .error (.notFound name)

end Catalog

end ProtoSchema
