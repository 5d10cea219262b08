import ProtoSchema.Linked.Declared

/-!
Binding references. Each declaration gives its linked form together with what
was found on the way: problems, and the symbols that references and options
turned out to mean. A declaration whose reference cannot be bound is left out.
In a lenient scope an unknown name is no problem, since a missing import may
have supplied it.
-/

namespace ProtoSchema.Linked

open Schema (OptionSetting)

/-- Something found while binding. -/
inductive Finding where
  | problem (problem : Problem)
  | reference (found : Found)
deriving DecidableEq

namespace Finding

def problem? : Finding → Option Problem
  | .problem p => some p
  | .reference _ => none

def reference? : Finding → Option Found
  | .problem _ => none
  | .reference found => some found

end Finding

/-- A value with the findings made on the way to it. -/
structure Noted (α : Type) where
  value : α
  findings : List Finding

namespace Noted

variable {α β : Type}

protected def pure (a : α) : Noted α := ⟨a, []⟩

/-- The second step's findings come behind those of the first. -/
protected def bind (noted : Noted α) (f : α → Noted β) : Noted β :=
  ⟨(f noted.value).value, noted.findings ++ (f noted.value).findings⟩

instance : Monad Noted where
  pure := Noted.pure
  bind := Noted.bind

/-- The value of a step that does not fail, with its findings. -/
@[simp] theorem value_pure (a : α) : (pure a : Noted α).value = a := rfl

@[simp] theorem findings_pure (a : α) : (pure a : Noted α).findings = [] := rfl

@[simp] theorem value_bind (noted : Noted α) (f : α → Noted β) :
    (noted >>= f).value = (f noted.value).value := rfl

@[simp] theorem findings_bind (noted : Noted α) (f : α → Noted β) :
    (noted >>= f).findings = noted.findings ++ (f noted.value).findings := rfl

def note (finding : Finding) : Noted Unit := ⟨(), [finding]⟩

def problem (position : Position) (fault : BindFault) : Noted Unit :=
  note (.problem ⟨position, fault⟩)

/-- The results of the items that have one, in order. -/
def collect (f : α → Noted (Option β)) : List α → Noted (List β)
  | [] => return []
  | a :: rest => do
    let b ← f a
    let bs ← collect f rest
    return b.toList ++ bs

end Noted

namespace Scope

/-- Finds what a reference means, or reports that it means nothing. -/
def refer (scope : Scope) (name : TypeName) (place : DottedName) (position : Position) :
    Noted (Option Found) := do
  match scope.resolve? name place true with
  | some found =>
    Noted.note (.reference found)
    return some found
  | none =>
    unless scope.lenient do Noted.problem position (.notDefined name)
    return none

/-- The type that a name denotes. -/
def bindType (scope : Scope) (name : TypeName) (place : DottedName) (position : Position) :
    Noted (Option ValueType) := do
  match Scalar.ofName? name with
  | some scalar => return some (.scalar scalar)
  | none =>
    match ← scope.refer name place position with
    | none => return none
    | some ⟨fullName, .message, file⟩ => return some (.message fullName file)
    | some ⟨fullName, .enum, file⟩ => return some (.enum fullName file)
    | some ⟨_, kind, _⟩ =>
      Noted.problem position (.notType name kind)
      return none

/-- The full name of the message that a name denotes. -/
def bindMessageName (scope : Scope) (name : TypeName) (place : DottedName)
    (position : Position) : Noted (Option DottedName) := do
  match ← scope.refer name place position with
  | none => return none
  | some ⟨fullName, .message, _⟩ => return some fullName
  | some _ =>
    Noted.problem position (.notMessage name)
    return none

/-- Notes the extensions that the names of options start with. An extension
that is not known is let pass. -/
def noteExtensions (scope : Scope) (place : DottedName) : List OptionSetting → Noted Unit
  | [] => return ()
  | setting :: rest => do
    match setting.extension?.bind fun name => scope.resolve? name place false with
    | some found => Noted.note (.reference found)
    | none => pure ()
    scope.noteExtensions place rest

/-- The key type of a map, which must be a scalar that can be a key. -/
def mapKey? (name : TypeName) : Option Scalar := (Scalar.ofName? name).filter (·.isMapKey)

def bindFieldType (scope : Scope) (place : DottedName) (field : Schema.Field) :
    Noted (Option FieldType) := do
  match field.type with
  | .single name =>
    return (← scope.bindType name place field.typePosition).map .single
  | .map key value =>
    match mapKey? key with
    | none =>
      Noted.problem field.typePosition (.badMapKey key)
      return none
    | some key => return (← scope.bindType value place field.typePosition).map (.map key)

def bindField (scope : Scope) (place : DottedName) (extendee : Option DottedName)
    (field : Schema.Field) : Noted (Option Field) := do
  scope.noteExtensions place field.options
  match ← scope.bindFieldType place field with
  | none => return none
  | some type =>
    return some {
      name := field.name
      fullName := place.member field.name
      number := field.number
      label := field.label
      type := type
      oneof := field.oneof
      extendee := extendee
      options := field.options
      position := field.position }

def bindEnum (scope : Scope) (place : DottedName) (enum : Schema.Enum) : Noted Enum := do
  scope.noteExtensions (place.member enum.name) enum.options
  return {
    name := enum.name
    fullName := place.member enum.name
    values := enum.values.map fun value => ⟨value.name, value.number⟩
    options := enum.options
    position := enum.position }

def bindEnums (scope : Scope) (place : DottedName) (enums : List Schema.Enum) :
    Noted (List Enum) :=
  enums.mapM (scope.bindEnum place)

/-- A method is left out when either of its messages cannot be bound. -/
def bindMethod (scope : Scope) (place : DottedName) (method : Schema.Method) :
    Noted (Option Method) := do
  scope.noteExtensions place method.options
  let input ← scope.bindMessageName method.input place method.inputPosition
  let output ← scope.bindMessageName method.output place method.outputPosition
  match input, output with
  | some input, some output =>
    return some {
      name := method.name
      input := input
      output := output
      clientStreams := method.clientStreams
      serverStreams := method.serverStreams
      options := method.options }
  | _, _ => return none

def bindService (scope : Scope) (place : DottedName) (service : Schema.Service) :
    Noted Service := do
  let fullName := place.member service.name
  scope.noteExtensions fullName service.options
  let methods ← Noted.collect (scope.bindMethod fullName) service.methods
  return ⟨service.name, fullName, methods, service.options, service.position⟩

/-- The fields of an extend block, none when its message cannot be bound. -/
def bindExtensions (scope : Scope) (place : DottedName) (extendee : TypeName)
    (position : Position) (fields : List Schema.Field) : Noted (List Field) := do
  match ← scope.bindMessageName extendee place position with
  | none => return []
  | some message => Noted.collect (scope.bindField place (some message)) fields

mutual

def bindMessage (scope : Scope) (place : DottedName) : Schema.Message → Noted Message
  | ⟨name, fields, oneofs, messages, enums, extendBlocks, options, position⟩ => do
    let fullName := place.member name
    scope.noteExtensions fullName options
    let fields ← Noted.collect (scope.bindField fullName none) fields
    let messages ← scope.bindMessages fullName messages
    let enums ← scope.bindEnums fullName enums
    let (groups, extensions) ← scope.bindExtends fullName extendBlocks
    return ⟨name, fullName, fields, oneofs.map (·.name), messages ++ groups, enums, extensions,
      options, position⟩

def bindMessages (scope : Scope) (place : DottedName) : List Schema.Message → Noted (List Message)
  | [] => return []
  | message :: rest => do
    let first ← scope.bindMessage place message
    let more ← scope.bindMessages place rest
    return first :: more

/-- The group bodies and the fields of extend blocks. -/
def bindExtends (scope : Scope) (place : DottedName) :
    List Schema.Extend → Noted (List Message × List Field)
  | [] => return ([], [])
  | ⟨extendee, fields, groups, position⟩ :: rest => do
    let groups ← scope.bindMessages place groups
    let extensions ← scope.bindExtensions place extendee position fields
    let (moreGroups, moreExtensions) ← scope.bindExtends place rest
    return (groups ++ moreGroups, extensions ++ moreExtensions)

end

/-- The linked declarations of a file. -/
structure Bound where
  messages : List Message
  enums : List Enum
  services : List Service
  extensions : List Field

def bindFile (scope : Scope) (file : Schema.File) : Noted Bound := do
  let place := file.scope
  scope.noteExtensions place file.options
  let messages ← scope.bindMessages place file.messages
  let enums ← scope.bindEnums place file.enums
  let services ← file.services.mapM (scope.bindService place)
  let (groups, extensions) ← scope.bindExtends place file.extendBlocks
  return ⟨messages ++ groups, enums, services, extensions⟩

end Scope

end ProtoSchema.Linked
