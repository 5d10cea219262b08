import ProtoSchema.Name
import ProtoSchema.Token

/-!
The declarations of a schema file as written. Names are kept unresolved, every
list keeps the order of the text, and each named thing remembers where its name
stands.
-/

namespace ProtoSchema.Schema

/-- The language level that a file declares. -/
inductive Dialect where
  | proto2
  | proto3
  | edition (name : String)
deriving DecidableEq

def Dialect.text : Dialect → String
  | .proto2 => "proto2"
  | .proto3 => "proto3"
  | .edition name => "editions (" ++ name ++ ")"

/-- A reexporting import passes the imported names on to the file's importers. -/
inductive ImportKind where
  | plain
  | reexport
  | weak
deriving DecidableEq

structure Import where
  path : String
  kind : ImportKind
  position : Position
deriving DecidableEq

/-- One step of an option's name. -/
inductive OptionPart where
  | field (name : String)
  | extension (name : TypeName)
deriving DecidableEq

def OptionPart.text : OptionPart → String
  | .field name => name
  | .extension name => "(" ++ name.text ++ ")"

/-- An option with its value as written. -/
structure OptionSetting where
  name : List OptionPart
  value : String
  position : Position
deriving DecidableEq

namespace OptionSetting

def nameText (setting : OptionSetting) : String :=
  ".".intercalate (setting.name.map OptionPart.text)

/-- The extension that the option's name starts with. -/
def extension? (setting : OptionSetting) : Option TypeName :=
  match setting.name with
  | .extension name :: _ => some name
  | _ => none

end OptionSetting

inductive Label where
  | optional
  | required
  | repeated
deriving DecidableEq

def Label.text : Label → String
  | .optional => "optional"
  | .required => "required"
  | .repeated => "repeated"

inductive FieldType where
  | single (name : TypeName)
  | map (key value : TypeName)
deriving DecidableEq

/-- A field of a message or an extend block. A member of a oneof carries the
index of that oneof in its message. -/
structure Field where
  name : String
  number : Int
  label : Option Label
  type : FieldType
  oneof : Option Nat
  options : List OptionSetting
  position : Position
  typePosition : Position
deriving DecidableEq

structure Oneof where
  name : String
  options : List OptionSetting
  position : Position
deriving DecidableEq

structure EnumValue where
  name : String
  number : Int
  options : List OptionSetting
  position : Position
deriving DecidableEq

structure Enum where
  name : String
  values : List EnumValue
  options : List OptionSetting
  position : Position
deriving DecidableEq

structure Method where
  name : String
  input : TypeName
  inputPosition : Position
  clientStreams : Bool
  output : TypeName
  outputPosition : Position
  serverStreams : Bool
  options : List OptionSetting
  position : Position
deriving DecidableEq

structure Service where
  name : String
  methods : List Method
  options : List OptionSetting
  position : Position
deriving DecidableEq

/-- An extend block. The bodies of its groups are messages of type `μ`. -/
structure ExtendBlock (μ : Type) where
  extendee : TypeName
  fields : List Field
  groups : List μ
  position : Position

/-- A message. The bodies of its groups stand among the nested messages. -/
structure Message where
  name : String
  fields : List Field
  oneofs : List Oneof
  messages : List Message
  enums : List Enum
  extendBlocks : List (ExtendBlock Message)
  options : List OptionSetting
  position : Position

abbrev Extend := ExtendBlock Message

structure File where
  dialect : Dialect
  package : Option DottedName
  imports : List Import
  options : List OptionSetting
  messages : List Message
  enums : List Enum
  services : List Service
  extendBlocks : List Extend

namespace File

def empty : File := ⟨.proto2, none, [], [], [], [], [], []⟩

/-- The scope of the file's own declarations. -/
def scope (file : File) : DottedName := file.package.getD []

end File

end ProtoSchema.Schema
