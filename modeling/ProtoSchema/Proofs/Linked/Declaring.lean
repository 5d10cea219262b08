import ProtoSchema.Proofs.Linked.Correspondence

/-!
The names that a file declares. They are told scope by scope: every message opens a scope
for what stands inside it, and the values of an enum stand beside it. The messages, enums and
services of the linked file are named one by one as the list of the declarations has them.
-/

namespace ProtoSchema

namespace Schema

open Linked (SymbolKind)

/-- What stands in one scope, outside the messages there. -/
structure Region where
  scope : DottedName
  messages : List Message
  enums : List Enum
  extendBlocks : List Extend

def File.region (file : File) : Region :=
  ⟨file.scope, Linked.declaredMessages file.messages file.extendBlocks, file.enums,
    file.extendBlocks⟩

def Message.region (scope : DottedName) (message : Message) : Region :=
  ⟨scope.member message.name, Linked.declaredMessages message.messages message.extendBlocks,
    message.enums, message.extendBlocks⟩

/-- The region is the file itself or the inside of a message, at any depth. -/
inductive File.HasRegion (file : File) : Region → Prop
  | outer : file.HasRegion file.region
  | inner {region : Region} {message : Message} (hregion : file.HasRegion region)
      (hmessage : message ∈ region.messages) : file.HasRegion (message.region region.scope)

inductive File.Declares (file : File) : DottedName → SymbolKind → Prop
  | package {name : DottedName} (hname : name ≠ []) (hscope : name <+: file.scope) :
      file.Declares name .package
  | message {region : Region} {message : Message} (hregion : file.HasRegion region)
      (hmessage : message ∈ region.messages) :
      file.Declares (region.scope.member message.name) .message
  | field {region : Region} {message : Message} {field : Field}
      (hregion : file.HasRegion region) (hmessage : message ∈ region.messages)
      (hfield : field ∈ message.fields) :
      file.Declares ((region.scope.member message.name).member field.name) .field
  | oneof {region : Region} {message : Message} {oneof : Oneof}
      (hregion : file.HasRegion region) (hmessage : message ∈ region.messages)
      (honeof : oneof ∈ message.oneofs) :
      file.Declares ((region.scope.member message.name).member oneof.name) .oneof
  | enum {region : Region} {enum : Enum} (hregion : file.HasRegion region)
      (henum : enum ∈ region.enums) : file.Declares (region.scope.member enum.name) .enum
  | enumValue {region : Region} {enum : Enum} {value : EnumValue}
      (hregion : file.HasRegion region) (henum : enum ∈ region.enums)
      (hvalue : value ∈ enum.values) : file.Declares (region.scope.member value.name) .enumValue
  | extension {region : Region} {block : Extend} {field : Field}
      (hregion : file.HasRegion region) (hblock : block ∈ region.extendBlocks)
      (hfield : field ∈ block.fields) : file.Declares (region.scope.member field.name) .field
  | service {service : Service} (hservice : service ∈ file.services) :
      file.Declares (file.scope.member service.name) .service
  | method {service : Service} {method : Method} (hservice : service ∈ file.services)
      (hmethod : method ∈ service.methods) :
      file.Declares ((file.scope.member service.name).member method.name) .method

end Schema

namespace Linked

theorem mem_enclosing {name scope : DottedName} : name ∈ enclosing scope ↔ name <+: scope := by
  induction scope generalizing name with
  | nil => simp [enclosing]
  | cons part rest ih =>
    rw [enclosing, List.mem_append, List.mem_map, List.mem_singleton, List.prefix_cons_iff]
    constructor
    · rintro (⟨inner, hinner, rfl⟩ | hnil)
      · exact .inr ⟨inner, rfl, ih.mp hinner⟩
      · exact .inl hnil
    · rintro (hnil | ⟨inner, rfl, hinner⟩)
      · exact .inr hnil
      · exact .inl ⟨inner, ih.mpr hinner, rfl⟩

namespace Declaration

variable {declaration : Declaration}

theorem mem_ofPackage {scope : DottedName} : declaration ∈ ofPackage scope ↔
    ∃ name, name ≠ [] ∧ name <+: scope ∧ declaration = ⟨name, .package, .none⟩ := by
  cases scope with
  | nil => simp [ofPackage, enclosing]
  | cons part rest =>
    simp only [ofPackage, enclosing, List.reverse_append, List.reverse_singleton,
      List.singleton_append, List.drop_succ_cons, List.drop_zero, List.mem_map, List.mem_reverse,
      mem_enclosing, exists_exists_and_eq_and, List.prefix_cons_iff]
    constructor
    · rintro ⟨inner, hinner, rfl⟩
      exact ⟨part :: inner, by simp, .inr ⟨inner, rfl, hinner⟩, rfl⟩
    · rintro ⟨name, hname, hnil | ⟨inner, rfl, hinner⟩, rfl⟩
      · exact absurd hnil hname
      · exact ⟨inner, hinner, rfl⟩

theorem mem_declaredMessages {message : Schema.Message} {messages : List Schema.Message}
    {blocks : List Schema.Extend} : message ∈ declaredMessages messages blocks ↔
      message ∈ messages ∨ ∃ block ∈ blocks, message ∈ block.groups := by
  rw [declaredMessages, List.mem_append, List.mem_flatMap]

def namesOf (kind : SymbolKind) (declarations : List Declaration) : List DottedName :=
  (declarations.filter (·.kind = kind)).map (·.name)

@[simp] theorem namesOf_append (kind : SymbolKind) (first rest : List Declaration) :
    namesOf kind (first ++ rest) = namesOf kind first ++ namesOf kind rest := by
  simp [namesOf]

theorem namesOf_cons (kind : SymbolKind) (first : Declaration) (rest : List Declaration) :
    namesOf kind (first :: rest) =
      if first.kind = kind then first.name :: namesOf kind rest else namesOf kind rest := by
  by_cases h : first.kind = kind <;> simp [namesOf, h]

theorem namesOf_eq_nil {kind : SymbolKind} {declarations : List Declaration}
    (h : ∀ d ∈ declarations, d.kind ≠ kind) : namesOf kind declarations = [] := by
  rw [namesOf, List.map_eq_nil_iff, List.filter_eq_nil_iff]
  intro d hd
  simpa using h d hd

theorem mem_namesOf {kind : SymbolKind} {declarations : List Declaration} {name : DottedName} :
    name ∈ namesOf kind declarations ↔ ∃ d ∈ declarations, d.name = name ∧ d.kind = kind := by
  simp only [namesOf, List.mem_map, List.mem_filter, decide_eq_true_eq]
  constructor
  · rintro ⟨d, ⟨hd, hkind⟩, hname⟩
    exact ⟨d, hd, hname, hkind⟩
  · rintro ⟨d, hd, hname, hkind⟩
    exact ⟨d, ⟨hd, hkind⟩, hname⟩

variable {kind : SymbolKind} {scope : DottedName}

@[simp] theorem namesOf_ofFields (hkind : kind ≠ .field) (fields : List Schema.Field) :
    namesOf kind (ofFields scope fields) = [] := by
  refine namesOf_eq_nil fun d hd => ?_
  obtain ⟨field, _, rfl⟩ := List.mem_map.mp hd
  exact hkind.symm

@[simp] theorem namesOf_ofOneofs (hkind : kind ≠ .oneof) (oneofs : List Schema.Oneof) :
    namesOf kind (ofOneofs scope oneofs) = [] := by
  refine namesOf_eq_nil fun d hd => ?_
  obtain ⟨oneof, _, rfl⟩ := List.mem_map.mp hd
  exact hkind.symm

@[simp] theorem namesOf_ofPackage (hkind : kind ≠ .package) (scope : DottedName) :
    namesOf kind (ofPackage scope) = [] := by
  refine namesOf_eq_nil fun d hd => ?_
  obtain ⟨name, _, _, rfl⟩ := mem_ofPackage.mp hd
  exact hkind.symm

@[simp] theorem namesOf_message_ofEnums (enums : List Schema.Enum) :
    namesOf .message (enums.flatMap (ofEnum scope)) = [] := by
  refine namesOf_eq_nil fun d hd => ?_
  obtain ⟨enum, _, hd⟩ := List.mem_flatMap.mp hd
  rcases List.mem_cons.mp hd with rfl | hd
  · simp
  · obtain ⟨value, _, rfl⟩ := List.mem_map.mp hd
    simp

/-- The values of enums have a kind of their own. -/
@[simp] theorem namesOf_enum_ofEnums (enums : List Schema.Enum) :
    namesOf .enum (enums.flatMap (ofEnum scope)) = enums.map fun e => scope.member e.name := by
  induction enums with
  | nil => rfl
  | cons enum rest ih =>
    have hvalues : namesOf .enum (enum.values.map fun value =>
        (⟨scope.member value.name, .enumValue, value.position⟩ : Declaration)) = [] := by
      refine namesOf_eq_nil fun d hd => ?_
      obtain ⟨value, _, rfl⟩ := List.mem_map.mp hd
      simp
    rw [List.flatMap_cons, namesOf_append, ih, ofEnum, namesOf_cons, if_pos rfl, hvalues,
      List.map_cons]
    rfl

end Declaration

theorem Message.preorderList_append (messages more : List Message) :
    preorderList (messages ++ more) = preorderList messages ++ preorderList more := by
  induction messages with
  | nil => rfl
  | cons message rest ih => rw [List.cons_append, preorderList, preorderList, ih, List.append_assoc]

theorem Message.preorder_eq (message : Message) :
    message.preorder = message :: preorderList message.messages := by
  obtain ⟨⟩ := message
  rw [preorder]

structure Declaration.Names (declarations : List Declaration) (messages : List Message) : Prop where
  messages_eq : messages.map (·.fullName) = namesOf .message declarations
  enums_perm : ((messages.flatMap (·.enums)).map (·.fullName)).Perm (namesOf .enum declarations)

theorem Declaration.Names.append {first rest : List Declaration} {messages more : List Message}
    (h : Names first messages) (hrest : Names rest more) :
    Names (first ++ rest) (messages ++ more) where
  messages_eq := by rw [List.map_append, h.messages_eq, hrest.messages_eq, namesOf_append]
  enums_perm := by
    rw [List.flatMap_append, List.map_append, namesOf_append]
    exact h.enums_perm.append hrest.enums_perm

/-- Fields in front declare neither messages nor enums. -/
theorem Declaration.Names.ofFields_append {declarations : List Declaration}
    {messages : List Message} (h : Names declarations messages) (place : DottedName)
    (fields : List Schema.Field) : Names (ofFields place fields ++ declarations) messages where
  messages_eq := by simpa using h.messages_eq
  enums_perm := by simpa using h.enums_perm

theorem Noted.value_mapM {α β : Type} (f : α → Noted β) (items : List α) :
    (items.mapM f).value = items.map fun a => (f a).value := by
  induction items with
  | nil => rfl
  | cons a rest ih =>
    rw [List.mapM_cons, List.map_cons, ← ih]
    rfl

namespace Scope

variable (scope : Scope)

theorem names_bindEnums (place : DottedName) (enums : List Schema.Enum) :
    (scope.bindEnums place enums).value.map (·.fullName) =
      enums.map fun e => place.member e.name := by
  rw [bindEnums, Noted.value_mapM, List.map_map]
  rfl

-- The recursion is that of the binding: a message, the messages of a scope, its extend blocks.
mutual

theorem names_bindMessage (place : DottedName) (message : Schema.Message) :
    Declaration.Names (Declaration.ofMessage place message)
      (scope.bindMessage place message).value.preorder := by
  match message with
  | ⟨name, fields, oneofs, messages, enums, extendBlocks, options, position⟩ =>
    have hnested := names_bindMessages (place.member name) messages
    have hgroups := names_bindExtends (place.member name) extendBlocks
    have hinner := hnested.append hgroups
    rw [← Message.preorderList_append] at hinner
    rw [Message.preorder_eq, Declaration.ofMessage]
    refine ⟨?_, ?_⟩
    · rw [List.map_cons, Declaration.namesOf_cons, if_pos rfl]
      refine congrArg (place.member name :: ·) (hinner.messages_eq.trans ?_)
      simp
    · -- The enums of the message come first here, and behind the nested ones there.
      rw [List.flatMap_cons, List.map_append]
      refine ((List.Perm.of_eq (scope.names_bindEnums (place.member name) enums)).append
        hinner.enums_perm).trans ?_
      rw [Declaration.namesOf_cons, if_neg (by simp)]
      simp only [Declaration.namesOf_append, Declaration.namesOf_enum_ofEnums]
      simp only [ne_eq, reduceCtorEq, not_false_eq_true, Declaration.namesOf_ofFields,
        Declaration.namesOf_ofOneofs, List.nil_append, ← List.append_assoc]
      exact List.perm_append_comm.append_right _

theorem names_bindMessages (place : DottedName) (messages : List Schema.Message) :
    Declaration.Names (Declaration.ofMessages place messages)
      (Message.preorderList (scope.bindMessages place messages).value) := by
  match messages with
  | [] => exact ⟨rfl, .refl []⟩
  | message :: rest =>
    have hvalue : (scope.bindMessages place (message :: rest)).value =
        (scope.bindMessage place message).value :: (scope.bindMessages place rest).value := rfl
    rw [hvalue, Message.preorderList, Declaration.ofMessages]
    exact (names_bindMessage place message).append (names_bindMessages place rest)

theorem names_bindExtends (place : DottedName) (blocks : List Schema.Extend) :
    Declaration.Names (Declaration.ofExtends place blocks)
      (Message.preorderList (scope.bindExtends place blocks).value.1) := by
  match blocks with
  | [] => exact ⟨rfl, .refl []⟩
  | ⟨extendee, fields, groups, position⟩ :: rest =>
    have hvalue : (scope.bindExtends place (⟨extendee, fields, groups, position⟩ :: rest)).value.1 =
        (scope.bindMessages place groups).value ++ (scope.bindExtends place rest).value.1 := rfl
    rw [hvalue, Message.preorderList_append, Declaration.ofExtends, List.append_assoc]
    exact ((names_bindMessages place groups).append
      (names_bindExtends place rest)).ofFields_append place fields

end

end Scope

variable {path : VirtualPath} {file : Schema.File} {imports : List Import}

open Declaration (namesOf ofFile ofService)

theorem Declaration.namesOf_ofServices {kind : SymbolKind} {scope : DottedName}
    (services : List Schema.Service) (hservice : kind ≠ .service) (hmethod : kind ≠ .method) :
    namesOf kind (services.flatMap (ofService scope)) = [] := by
  refine namesOf_eq_nil fun d hd => ?_
  obtain ⟨service, _, hd⟩ := List.mem_flatMap.mp hd
  rcases List.mem_cons.mp hd with rfl | hd
  · exact hservice.symm
  · obtain ⟨method, _, rfl⟩ := List.mem_map.mp hd
    exact hmethod.symm

theorem Declaration.namesOf_service_ofServices (scope : DottedName)
    (services : List Schema.Service) :
    namesOf .service (services.flatMap (ofService scope)) =
      services.map fun service => scope.member service.name := by
  induction services with
  | nil => rfl
  | cons service rest ih =>
    have hmethods : namesOf .service (service.methods.map fun method =>
        (⟨(scope.member service.name).member method.name, .method, method.position⟩ :
          Declaration)) = [] := by
      refine namesOf_eq_nil fun d hd => ?_
      obtain ⟨method, _, rfl⟩ := List.mem_map.mp hd
      simp
    rw [List.flatMap_cons, namesOf_append, ih, ofService, namesOf_cons, if_pos rfl, hmethods]
    rfl

/-- The messages of the linked file are those that the file declares, in their order. -/
theorem linkedFile_messages :
    (linkedFile path file imports).allMessages.map (·.fullName) =
      namesOf .message (ofFile file) := by
  let scope := (Scope.ofFile path file imports).1
  have hnames := (scope.names_bindMessages file.scope file.messages).append
    (scope.names_bindExtends file.scope file.extendBlocks)
  rw [← Message.preorderList_append] at hnames
  refine hnames.messages_eq.trans ?_
  simp [ofFile, Declaration.namesOf_ofServices]

theorem linkedFile_enums :
    ((linkedFile path file imports).allEnums.map (·.fullName)).Perm
      (namesOf .enum (ofFile file)) := by
  let scope := (Scope.ofFile path file imports).1
  have hnames := (scope.names_bindMessages file.scope file.messages).append
    (scope.names_bindExtends file.scope file.extendBlocks)
  rw [← Message.preorderList_append] at hnames
  rw [File.allEnums, List.map_append]
  refine ((List.Perm.of_eq (scope.names_bindEnums file.scope file.enums)).append
    hnames.enums_perm).trans ?_
  simp only [ofFile, Declaration.namesOf_append, Declaration.namesOf_enum_ofEnums,
    Declaration.namesOf_ofServices _ (by simp : SymbolKind.enum ≠ .service)
      (by simp : SymbolKind.enum ≠ .method),
    Declaration.namesOf_ofPackage (by simp : SymbolKind.enum ≠ .package), List.nil_append,
    List.append_nil, ← List.append_assoc]
  exact List.perm_append_comm.append_right _

theorem linkedFile_services :
    (linkedFile path file imports).services.map (·.fullName) =
      file.services.map fun service => file.scope.member service.name := by
  let scope := (Scope.ofFile path file imports).1
  have hvalue : (linkedFile path file imports).services =
      (file.services.mapM (scope.bindService file.scope)).value := rfl
  rw [hvalue, Noted.value_mapM, List.map_map]
  rfl

end Linked

end ProtoSchema
