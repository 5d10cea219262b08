/-!
Names. A dotted name is its list of components; the empty list is the scope of
a file without a package. A type name written in a schema is a dotted name with
a mark for a leading dot, which makes it absolute.
-/

namespace ProtoSchema

abbrev DottedName := List String

namespace DottedName

def text (name : DottedName) : String := ".".intercalate name

/-- The name of `member` inside the scope. -/
def member (scope : DottedName) (name : String) : DottedName := scope ++ [name]

end DottedName

/-- A name as a schema refers to it. -/
structure TypeName where
  absolute : Bool
  parts : DottedName
deriving DecidableEq

namespace TypeName

/-- A name of one component. -/
def simple (name : String) : TypeName := ⟨false, [name]⟩

def text (name : TypeName) : String :=
  (if name.absolute then "." else "") ++ name.parts.text

end TypeName

/-- The built-in types of fields. -/
inductive Scalar where
  | double
  | float
  | int32
  | int64
  | uint32
  | uint64
  | sint32
  | sint64
  | fixed32
  | fixed64
  | sfixed32
  | sfixed64
  | bool
  | string
  | bytes
deriving DecidableEq

namespace Scalar

def all : List Scalar :=
  [double, float, int32, int64, uint32, uint64, sint32, sint64, fixed32, fixed64, sfixed32,
   sfixed64, bool, string, bytes]

def text : Scalar → String
  | double => "double"
  | float => "float"
  | int32 => "int32"
  | int64 => "int64"
  | uint32 => "uint32"
  | uint64 => "uint64"
  | sint32 => "sint32"
  | sint64 => "sint64"
  | fixed32 => "fixed32"
  | fixed64 => "fixed64"
  | sfixed32 => "sfixed32"
  | sfixed64 => "sfixed64"
  | bool => "bool"
  | string => "string"
  | bytes => "bytes"

def ofText? (name : String) : Option Scalar := all.find? (·.text = name)

/-- Floating-point numbers and bytes cannot be the keys of a map. -/
def isMapKey : Scalar → Bool
  | double | float | bytes => false
  | _ => true

/-- The scalar that a type name denotes, if it denotes one. -/
def ofName? (name : TypeName) : Option Scalar :=
  match name with
  | ⟨false, [part]⟩ => ofText? part
  | _ => none

end Scalar

end ProtoSchema
