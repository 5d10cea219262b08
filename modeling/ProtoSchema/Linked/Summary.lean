import ProtoSchema.Linked
import ProtoSchema.Text.Json

/-!
A linked file in short: how much it declares, nested declarations included, and
what it is called. As a document its fields stand in the order of their names.
-/

namespace ProtoSchema.Linked

open Text (Json)

structure Counts where
  messages : Nat
  enums : Nat
  services : Nat
  fields : Nat
  extensions : Nat
  methods : Nat
deriving DecidableEq

namespace Counts

def document (counts : Counts) : Json :=
  .object [
    ("enums", .number counts.enums),
    ("extensions", .number counts.extensions),
    ("fields", .number counts.fields),
    ("messages", .number counts.messages),
    ("methods", .number counts.methods),
    ("services", .number counts.services)]

end Counts

namespace File

def counts (file : File) : Counts where
  messages := file.allMessages.length
  enums := file.allEnums.length
  services := file.services.length
  fields := (file.allMessages.flatMap (·.fields)).length
  extensions := file.allExtensions.length
  methods := (file.services.flatMap (·.methods)).length

def summary (file : File) : Json :=
  let name (full : DottedName) : Json := .string full.text
  let edge (i : Import) : Json :=
    .object [("path", .string i.path.text), ("resolved", .bool i.target.isSome)]
  .object [
    ("complete", .bool file.complete),
    ("counts", file.counts.document),
    ("imports", .list (file.imports.map edge)),
    ("messages", .list (file.allMessages.map (name ·.fullName))),
    ("package", (file.package.map name).getD .null),
    ("path", .string file.path.text),
    ("services", .list (file.services.map (name ·.fullName))),
    ("syntax", .string file.dialect.text)]

/-- The file in one line. -/
def headline (file : File) : String :=
  let counts := file.counts
  file.path.text ++ (if file.complete then "" else " (incomplete)") ++ ": " ++
    toString counts.messages ++ " messages, " ++ toString counts.enums ++ " enums, " ++
    toString counts.services ++ " services, " ++ toString counts.fields ++ " fields, " ++
    toString counts.methods ++ " methods"

end File

namespace Message

/-- The field as it would be declared, with the oneof that it belongs to. -/
def fieldLine (message : Message) (field : Field) : String :=
  let label := (field.label.map fun l => l.text ++ " ").getD ""
  let oneof := (field.oneof.bind (message.oneofs[·]?)).map ("  // oneof " ++ ·)
  label ++ field.type.text ++ " " ++ field.name ++ " = " ++ toString field.number ++ ";" ++
    oneof.getD ""

/-- The message and its fields, one line each. -/
def listing (message : Message) : String :=
  "message " ++ message.fullName.text ++ " \x7b\n" ++
    String.join (message.fields.map fun field => "  " ++ message.fieldLine field ++ "\n") ++
    "\x7d\n"

end Message

end ProtoSchema.Linked
