import ProtoSchema.Path.Virtual
import ProtoSchema.Schema

/-!
Linked files. Their references are bound: a field names the message or enum it
holds and the file that declares it. A linked file keeps its import edges, each
with the file it reached, if any, and the names that it declares. It is complete
when no edge below it is missing.
-/

namespace ProtoSchema.Linked

open Schema (Dialect ImportKind Label OptionSetting)

/-- What a full name refers to. -/
inductive SymbolKind where
  | package
  | message
  | enum
  | enumValue
  | field
  | oneof
  | service
  | method
deriving DecidableEq

namespace SymbolKind

def noun : SymbolKind → String
  | package => "package"
  | message => "message"
  | enum => "enum"
  | enumValue => "enum value"
  | field => "field"
  | oneof => "oneof"
  | service => "service"
  | method => "method"

/-- Messages and enums can be the types of fields. -/
def isType : SymbolKind → Bool
  | message | enum => true
  | _ => false

/-- Other names can stand inside the symbol. -/
def isAggregate : SymbolKind → Bool
  | package | message | enum | service => true
  | _ => false

end SymbolKind

/-- Full names with their kinds, no name twice. -/
abbrev SymbolTable := List (DottedName × SymbolKind)

/-- A bound type that is not a map. -/
inductive ValueType where
  | scalar (type : Scalar)
  | message (name : DottedName) (file : VirtualPath)
  | enum (name : DottedName) (file : VirtualPath)
deriving DecidableEq

def ValueType.text : ValueType → String
  | .scalar type => type.text
  | .message name _ | .enum name _ => name.text

/-- The bound type of a field. -/
inductive FieldType where
  | single (type : ValueType)
  | map (key : Scalar) (value : ValueType)
deriving DecidableEq

def FieldType.text : FieldType → String
  | .single type => type.text
  | .map key value => "map<" ++ key.text ++ ", " ++ value.text ++ ">"

/-- A field of a message, or an extension of the message `extendee`. -/
structure Field where
  name : String
  fullName : DottedName
  number : Int
  label : Option Label
  type : FieldType
  oneof : Option Nat
  extendee : Option DottedName
  options : List OptionSetting
  position : Position
deriving DecidableEq

/-- Maps count as repeated. -/
def Field.isRepeated (field : Field) : Bool :=
  field.label = some .repeated ||
    match field.type with
    | .map _ _ => true
    | .single _ => false

structure EnumValue where
  name : String
  number : Int
deriving DecidableEq

structure Enum where
  name : String
  fullName : DottedName
  values : List EnumValue
  options : List OptionSetting
  position : Position
deriving DecidableEq

structure Method where
  name : String
  input : DottedName
  output : DottedName
  clientStreams : Bool
  serverStreams : Bool
  options : List OptionSetting
deriving DecidableEq

structure Service where
  name : String
  fullName : DottedName
  methods : List Method
  options : List OptionSetting
  position : Position
deriving DecidableEq

structure Message where
  name : String
  fullName : DottedName
  fields : List Field
  oneofs : List String
  messages : List Message
  enums : List Enum
  extensions : List Field
  options : List OptionSetting
  position : Position

namespace Message

mutual

/-- The message and all messages inside it, outer before inner. -/
def preorder : Message → List Message
  | ⟨name, fullName, fields, oneofs, messages, enums, extensions, options, position⟩ =>
    ⟨name, fullName, fields, oneofs, messages, enums, extensions, options, position⟩ ::
      preorderList messages

def preorderList : List Message → List Message
  | [] => []
  | message :: rest => preorder message ++ preorderList rest

end

def fieldNamed? (message : Message) (name : String) : Option Field :=
  message.fields.find? (·.name = name)

def fieldNumbered? (message : Message) (number : Int) : Option Field :=
  message.fields.find? (·.number = number)

end Message

/-- An import edge to a file of type `φ`. -/
structure ImportEdge (φ : Type) where
  path : VirtualPath
  kind : ImportKind
  position : Position
  target : Option φ

structure File where
  path : VirtualPath
  dialect : Dialect
  package : Option DottedName
  options : List OptionSetting
  messages : List Message
  enums : List Enum
  services : List Service
  extensions : List Field
  imports : List (ImportEdge File)
  symbols : SymbolTable
  complete : Bool

abbrev Import := ImportEdge File

namespace File

def symbol? (file : File) (name : DottedName) : Option SymbolKind :=
  (file.symbols.find? (·.1 = name)).map (·.2)

/-- The files that the imports reached. -/
def dependencies (file : File) : List File := file.imports.filterMap (·.target)

def unresolvedImports (file : File) : List Import := file.imports.filter (·.target.isNone)

/-- The files reached by the imports that pass their names on. -/
def reexports (file : File) : List File :=
  (file.imports.filter (·.kind = .reexport)).filterMap (·.target)

/-- All messages, nested ones included. -/
def allMessages (file : File) : List Message := Message.preorderList file.messages

/-- All enums: those of the file, then those of each message. -/
def allEnums (file : File) : List Enum := file.enums ++ file.allMessages.flatMap (·.enums)

def allExtensions (file : File) : List Field :=
  file.extensions ++ file.allMessages.flatMap (·.extensions)

def message? (file : File) (name : DottedName) : Option Message :=
  file.allMessages.find? (·.fullName = name)

end File

/-- The size of several files together. -/
noncomputable def weight : List File → Nat
  | [] => 0
  | file :: rest => sizeOf file + weight rest

theorem weight_append (files others : List File) :
    weight (files ++ others) = weight files + weight others := by
  induction files with
  | nil => simp [weight]
  | cons file rest ih =>
    simp only [List.cons_append, weight, ih]
    omega

theorem weight_reverse (files : List File) : weight files.reverse = weight files := by
  induction files with
  | nil => rfl
  | cons file rest ih =>
    simp only [List.reverse_cons, weight_append, weight, ih]
    omega

/-- The files that chosen edges reach are together no larger than the edges. -/
theorem weight_targets_le (p : Import → Bool) (edges : List Import) :
    weight ((edges.filter p).filterMap (·.target)) ≤ sizeOf edges := by
  induction edges with
  | nil => simp [weight]
  | cons edge rest ih =>
    obtain ⟨path, kind, position, target⟩ := edge
    by_cases h : p ⟨path, kind, position, target⟩ = true
    · rw [List.filter_cons_of_pos h]
      cases target with
      | none =>
        simp only [List.filterMap_cons, List.cons.sizeOf_spec]
        omega
      | some reached =>
        simp only [List.filterMap_cons, weight, List.cons.sizeOf_spec,
          ImportEdge.mk.sizeOf_spec, Option.some.sizeOf_spec]
        omega
    · rw [List.filter_cons_of_neg h]
      simp only [List.cons.sizeOf_spec]
      omega

namespace File

theorem sizeOf_imports_lt (file : File) : sizeOf file.imports < sizeOf file := by
  obtain ⟨⟩ := file
  simp only [File.mk.sizeOf_spec]
  omega

theorem weight_reexports_lt (file : File) : weight file.reexports < sizeOf file :=
  Nat.lt_of_le_of_lt (weight_targets_le _ file.imports) file.sizeOf_imports_lt

theorem weight_dependencies_lt (file : File) : weight file.dependencies < sizeOf file := by
  have := weight_targets_le (fun _ => true) file.imports
  rw [List.filter_eq_self.2 fun _ _ => rfl] at this
  exact Nat.lt_of_le_of_lt this file.sizeOf_imports_lt

end File

end ProtoSchema.Linked
