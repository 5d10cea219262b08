import ProtoSchema.Schema.Recovery
import ProtoSchema.Schema.Setting

/-!
The bodies of declarations. Messages nest through groups, oneofs and extend
blocks; each reader here is given the reader of nested message bodies, and the
knot is tied by the depth to which bodies may nest.
-/

namespace ProtoSchema.Phrase

open Schema

/-- Reads a message body in braces into a message; the text names the kind of
block for the error of an unclosed one. -/
abbrev BodyReader := String → Message → Phrase Message

def emptyMessage (name : String) (position : Position) : Message :=
  ⟨name, [], [], [], [], [], [], position⟩

/-- The label that starts a field. A label word right before an equals sign is
the type of the field instead. -/
def label? : Phrase (Option Label) := do
  if (← look 1) = some (.mark '=') then return none
  match ← look 0 with
  | some (.word "optional") => return some .optional
  | some (.word "required") => return some .required
  | some (.word "repeated") => return some .repeated
  | _ => return none

def fieldType : Phrase FieldType := do
  if (← look 0) = some (.word "map") ∧ (← look 1) = some (.mark '<') then
    skip 2
    let key ← typeName
    mark ','
    let value ← typeName
    mark '>'
    return .map key value
  else
    return .single (← typeName)

/-- The declaration behind a field's label. -/
def plainField (label : Option Label) (oneof : Option Nat) : Phrase Field := do
  let typePosition ← place
  let type ← fieldType
  let position ← place
  let name ← identifier
  mark '='
  let number ← integer
  let options ← settings
  mark ';'
  return { name, number, label, type, oneof, options, position, typePosition }

def startsWithCapital (name : String) : Bool := name.toList.head?.any Char.isUpper

/-- A group: a field with a lower-cased name and the message that is its type. -/
def group (body : BodyReader) (label : Option Label) (oneof : Option Nat) :
    Phrase (Field × Message) := do
  keyword "group"
  let position ← place
  let name ← identifier
  unless startsWithCapital name do failAt position .groupName
  mark '='
  let number ← integer
  let options ← settings
  let message ← body "group" (emptyMessage name position)
  let field : Field :=
    { name := name.map Char.toLower
      number, label
      type := .single (.simple name)
      oneof, options, position
      typePosition := position }
  return (field, message)

def isGroup : Phrase Bool := do
  if (← look 0) = some (.word "group") ∧ (← look 2) = some (.mark '=') then
    return ((← look 1).bind Lexeme.word?).isSome
  else
    return false

/-- A field, with the bodies of the groups it brings. -/
def field (body : BodyReader) (oneof : Option Nat) : Phrase (Field × List Message) := do
  let label ← label?
  if label.isSome then
    if oneof.isSome then failAt (← place) .labelInOneof
    skip 1
  if ← isGroup then
    let (field, message) ← group body label oneof
    return (field, [message])
  else
    return (← plainField label oneof, [])

/-- A field put behind the other fields of a message. -/
def fieldOf (body : BodyReader) (oneof : Option Nat) (message : Message) : Phrase Message := do
  let (field, groups) ← field body oneof
  return { message with
    fields := message.fields ++ [field]
    messages := message.messages ++ groups }

def addOneofOption (index : Nat) (option : OptionSetting) (message : Message) : Message :=
  { message with
    oneofs := message.oneofs.modify index fun oneof =>
      { oneof with options := oneof.options ++ [option] } }

/-- A statement inside the oneof with the index. -/
def oneofStatement (body : BodyReader) (index : Nat) (message : Message) : Phrase Message := do
  if ← take? (.mark ';') then
    return message
  else if (← look 0) = some (.word "option") then
    return addOneofOption index (← optionStatement) message
  else
    fieldOf body (some index) message

def oneof (body : BodyReader) (message : Message) : Phrase Message := do
  keyword "oneof"
  let position ← place
  let name ← identifier
  block "oneof" (oneofStatement body message.oneofs.length)
    { message with oneofs := message.oneofs ++ [⟨name, [], position⟩] }

def enumValue : Phrase EnumValue := do
  let position ← place
  let name ← identifier
  mark '='
  let number ← integer
  let options ← settings
  mark ';'
  return { name, number, options, position }

def enumStatement (enum : Enum) : Phrase Enum := do
  if ← take? (.mark ';') then
    return enum
  else
    match ← look 0 with
    | some (.word "option") =>
      return { enum with options := enum.options ++ [← optionStatement] }
    | some (.word "reserved") =>
      skippedStatement
      return enum
    | _ => return { enum with values := enum.values ++ [← enumValue] }

def enum : Phrase Enum := do
  keyword "enum"
  let position ← place
  let name ← identifier
  block "enum" enumStatement ⟨name, [], [], position⟩

def extendStatement (body : BodyReader) (extend : Extend) : Phrase Extend := do
  if ← take? (.mark ';') then
    return extend
  else
    let (field, groups) ← field body none
    return { extend with
      fields := extend.fields ++ [field]
      groups := extend.groups ++ groups }

def extend (body : BodyReader) : Phrase Extend := do
  keyword "extend"
  let position ← place
  let extendee ← typeName
  block "extend" (extendStatement body) ⟨extendee, [], [], position⟩

def message (body : BodyReader) : Phrase Message := do
  keyword "message"
  let position ← place
  let name ← identifier
  body "message" (emptyMessage name position)

/-- Whether the keyword that comes next is the type of a field, as in
`message message = 1;`. -/
def startsField : Phrase Bool := do
  return (← look 1) = some (.mark '.') ∨ (← look 2) = some (.mark '=')

/-- A statement in the body of a message. -/
def messageStatement (body : BodyReader) (parent : Message) : Phrase Message := do
  if ← take? (.mark ';') then
    return parent
  else
    match ← look 0, ← startsField with
    | some (.word "message"), false =>
      return { parent with messages := parent.messages ++ [← message body] }
    | some (.word "enum"), false =>
      return { parent with enums := parent.enums ++ [← enum] }
    | some (.word "extend"), false =>
      return { parent with extendBlocks := parent.extendBlocks ++ [← extend body] }
    | some (.word "oneof"), false => oneof body parent
    | some (.word "option"), _ =>
      return { parent with options := parent.options ++ [← optionStatement] }
    | some (.word "reserved"), _ | some (.word "extensions"), _ =>
      skippedStatement
      return parent
    | _, _ => fieldOf body none parent

/-- Message bodies nested to the given depth. -/
def bodyWithin : Nat → BodyReader
  | 0, _, _ => do failAt (← place) .nestingLimit
  | depth + 1, name, parent => block name (messageStatement (bodyWithin depth)) parent

/-- A type in parentheses, with the mark of a stream. The word `stream` is the
type itself where a parenthesis or a dot follows it. -/
def streamedType : Phrase (Bool × TypeName × Position) := do
  mark '('
  let next ← look 1
  let streams : Bool :=
    (← look 0) = some (.word "stream") ∧ next ≠ some (.mark ')') ∧ next ≠ some (.mark '.')
  if streams then skip 1
  let position ← place
  let name ← typeName
  mark ')'
  return (streams, name, position)

def methodStatement (options : List OptionSetting) : Phrase (List OptionSetting) := do
  if ← take? (.mark ';') then
    return options
  else
    return options ++ [← optionStatement]

def method : Phrase Method := do
  keyword "rpc"
  let position ← place
  let name ← identifier
  let (clientStreams, input, inputPosition) ← streamedType
  keyword "returns"
  let (serverStreams, output, outputPosition) ← streamedType
  let options ←
    if (← look 0) = some (.mark '\x7b') then block "rpc" methodStatement []
    else do
      mark ';'
      pure []
  return { name, input, inputPosition, clientStreams, output, outputPosition, serverStreams,
           options, position }

def serviceStatement (service : Service) : Phrase Service := do
  if ← take? (.mark ';') then
    return service
  else
    match ← look 0 with
    | some (.word "option") =>
      return { service with options := service.options ++ [← optionStatement] }
    | some (.word "rpc") => return { service with methods := service.methods ++ [← method] }
    | _ => expected .serviceStatement

def service : Phrase Service := do
  keyword "service"
  let position ← place
  let name ← identifier
  block "service" serviceStatement ⟨name, [], [], position⟩

end ProtoSchema.Phrase
