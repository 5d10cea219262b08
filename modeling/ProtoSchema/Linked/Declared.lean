import ProtoSchema.Linked.Problem
import ProtoSchema.Linked.Scope

/-!
The names that a file declares. Values of an enum stand beside it, not inside
it. A name may be declared once, and not at all where a visible file declares
it; only packages may come again.
-/

namespace ProtoSchema.Linked

/-- A declared full name. -/
structure Declaration where
  name : DottedName
  kind : SymbolKind
  position : Position
deriving DecidableEq

namespace Declaration

def ofEnum (scope : DottedName) (enum : Schema.Enum) : List Declaration :=
  ⟨scope.member enum.name, .enum, enum.position⟩ ::
    enum.values.map fun value => ⟨scope.member value.name, .enumValue, value.position⟩

def ofFields (scope : DottedName) (fields : List Schema.Field) : List Declaration :=
  fields.map fun field => ⟨scope.member field.name, .field, field.position⟩

def ofOneofs (scope : DottedName) (oneofs : List Schema.Oneof) : List Declaration :=
  oneofs.map fun oneof => ⟨scope.member oneof.name, .oneof, oneof.position⟩

def ofService (scope : DottedName) (service : Schema.Service) : List Declaration :=
  ⟨scope.member service.name, .service, service.position⟩ ::
    service.methods.map fun method =>
      ⟨(scope.member service.name).member method.name, .method, method.position⟩

mutual

def ofMessage (scope : DottedName) : Schema.Message → List Declaration
  | ⟨name, fields, oneofs, messages, enums, extendBlocks, _, position⟩ =>
    ⟨scope.member name, .message, position⟩ ::
      (ofFields (scope.member name) fields ++ ofOneofs (scope.member name) oneofs ++
        ofMessages (scope.member name) messages ++
        enums.flatMap (ofEnum (scope.member name)) ++ ofExtends (scope.member name) extendBlocks)

def ofMessages (scope : DottedName) : List Schema.Message → List Declaration
  | [] => []
  | message :: rest => ofMessage scope message ++ ofMessages scope rest

def ofExtends (scope : DottedName) : List Schema.Extend → List Declaration
  | [] => []
  | ⟨_, fields, groups, _⟩ :: rest =>
    ofFields scope fields ++ ofMessages scope groups ++ ofExtends scope rest

end

/-- The packages around and including the scope, outermost first. -/
def ofPackage (scope : DottedName) : List Declaration :=
  ((enclosing scope).reverse.drop 1).map fun name => ⟨name, .package, .none⟩

/-- All declarations of a file, in the order in which they are entered. -/
def ofFile (file : Schema.File) : List Declaration :=
  ofPackage file.scope ++ ofMessages file.scope file.messages ++
    file.enums.flatMap (ofEnum file.scope) ++ file.services.flatMap (ofService file.scope) ++
    ofExtends file.scope file.extendBlocks

/-- Two symbols of these kinds cannot share a name. -/
def Clashes (a b : SymbolKind) : Prop := ¬(a = .package ∧ b = .package)

instance (a b : SymbolKind) : Decidable (Clashes a b) :=
  inferInstanceAs (Decidable (¬_))

/-- The first visible file in which the declared name clashes. -/
def clash? (visible : List Exposed) (declaration : Declaration) : Option VirtualPath :=
  visible.findSome? fun exposed =>
    ((exposed.file.symbol? declaration.name).filter fun kind =>
      decide (Clashes kind declaration.kind)).map fun _ => exposed.file.path

/-- Enters a declaration into the table, or tells why it cannot be. -/
def enter (visible : List Exposed) (declaration : Declaration) (table : SymbolTable) :
    SymbolTable × List Problem :=
  match table.find? (·.1 = declaration.name) with
  | some entry =>
    if Clashes entry.2 declaration.kind then
      (table, [⟨declaration.position, .defined declaration.name⟩])
    else (table, [])
  | none =>
    match declaration.clash? visible with
    | some file => (table, [⟨declaration.position, .definedElsewhere declaration.name file⟩])
    | none => (table ++ [(declaration.name, declaration.kind)], [])

/-- Enters the declarations in turn. -/
def enterAll (visible : List Exposed) : List Declaration → SymbolTable → SymbolTable × List Problem
  | [], table => (table, [])
  | declaration :: rest, table =>
    let (table, problems) := declaration.enter visible table
    let (table, more) := enterAll visible rest table
    (table, problems ++ more)

end Declaration

end ProtoSchema.Linked
