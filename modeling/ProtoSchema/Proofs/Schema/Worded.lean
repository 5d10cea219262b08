import ProtoSchema.Schema

/-!
The words of a schema: the names that it declares and the parts of those that it refers to. A
property of words is told of a whole tree at once, a message with what stands inside it to any
depth.
-/

namespace ProtoSchema

variable {W : String → Prop}

def TypeName.Worded (W : String → Prop) (name : TypeName) : Prop := ∀ part ∈ name.parts, W part

theorem TypeName.worded_of_forall (hW : ∀ word, W word) (name : TypeName) : name.Worded W :=
  fun part _ => hW part

namespace Schema

def FieldType.Worded (W : String → Prop) : FieldType → Prop
  | .single name => name.Worded W
  | .map key value => key.Worded W ∧ value.Worded W

structure Field.Worded (W : String → Prop) (field : Field) : Prop where
  name : W field.name
  type : field.type.Worded W

structure Enum.Worded (W : String → Prop) (enum : Enum) : Prop where
  name : W enum.name
  values : ∀ value ∈ enum.values, W value.name

structure Method.Worded (W : String → Prop) (method : Method) : Prop where
  name : W method.name
  input : method.input.Worded W
  output : method.output.Worded W

structure Service.Worded (W : String → Prop) (service : Service) : Prop where
  name : W service.name
  methods : ∀ method ∈ service.methods, method.Worded W

inductive Message.Worded (W : String → Prop) : Message → Prop
  | intro {message : Message} (name : W message.name)
      (fields : ∀ field ∈ message.fields, field.Worded W)
      (oneofs : ∀ oneof ∈ message.oneofs, W oneof.name)
      (messages : ∀ inner ∈ message.messages, Worded W inner)
      (enums : ∀ enum ∈ message.enums, enum.Worded W)
      (extendees : ∀ block ∈ message.extendBlocks, block.extendee.Worded W)
      (extensions : ∀ block ∈ message.extendBlocks, ∀ field ∈ block.fields, field.Worded W)
      (groups : ∀ block ∈ message.extendBlocks, ∀ inner ∈ block.groups, Worded W inner) :
      Worded W message

structure ExtendBlock.Worded (W : String → Prop) (block : Extend) : Prop where
  extendee : block.extendee.Worded W
  fields : ∀ field ∈ block.fields, field.Worded W
  groups : ∀ message ∈ block.groups, message.Worded W

structure File.Worded (W : String → Prop) (file : File) : Prop where
  package : ∀ name, file.package = some name → ∀ part ∈ name, W part
  messages : ∀ message ∈ file.messages, message.Worded W
  enums : ∀ enum ∈ file.enums, enum.Worded W
  services : ∀ service ∈ file.services, service.Worded W
  extendBlocks : ∀ block ∈ file.extendBlocks, ExtendBlock.Worded W block

theorem Message.Worded.extendBlocks {message : Message} (h : message.Worded W) :
    ∀ block ∈ message.extendBlocks, ExtendBlock.Worded W block := by
  cases h with
  | intro _ _ _ _ _ extendees extensions groups =>
    exact fun block hblock => ⟨extendees block hblock, extensions block hblock, groups block hblock⟩

/-! Where every word has the property. -/

theorem Field.worded_of_forall (hW : ∀ word, W word) (field : Field) : field.Worded W := by
  refine ⟨hW _, ?_⟩
  cases field.type with
  | single name => exact TypeName.worded_of_forall hW name
  | map key value => exact ⟨TypeName.worded_of_forall hW key, TypeName.worded_of_forall hW value⟩

theorem Enum.worded_of_forall (hW : ∀ word, W word) (enum : Enum) : enum.Worded W :=
  ⟨hW _, fun _ _ => hW _⟩

theorem Service.worded_of_forall (hW : ∀ word, W word) (service : Service) : service.Worded W :=
  ⟨hW _, fun _ _ => ⟨hW _, TypeName.worded_of_forall hW _, TypeName.worded_of_forall hW _⟩⟩

mutual

theorem Message.worded_of_forall (hW : ∀ word, W word) (message : Message) : message.Worded W := by
  match message with
  | ⟨name, fields, oneofs, messages, enums, extendBlocks, options, position⟩ =>
    have hblocks := Extend.worded_of_forall hW extendBlocks
    exact .intro (hW name) (fun field _ => Field.worded_of_forall hW field) (fun _ _ => hW _)
      (Message.forall_worded_of_forall hW messages) (fun enum _ => Enum.worded_of_forall hW enum)
      (fun block hblock => (hblocks block hblock).extendee)
      (fun block hblock => (hblocks block hblock).fields)
      (fun block hblock => (hblocks block hblock).groups)

theorem Message.forall_worded_of_forall (hW : ∀ word, W word) (messages : List Message) :
    ∀ message ∈ messages, message.Worded W := by
  match messages with
  | [] => exact List.forall_mem_nil _
  | message :: rest =>
    exact List.forall_mem_cons.mpr
      ⟨Message.worded_of_forall hW message, Message.forall_worded_of_forall hW rest⟩

theorem Extend.worded_of_forall (hW : ∀ word, W word) (blocks : List Extend) :
    ∀ block ∈ blocks, ExtendBlock.Worded W block := by
  match blocks with
  | [] => exact List.forall_mem_nil _
  | ⟨extendee, fields, groups, position⟩ :: rest =>
    exact List.forall_mem_cons.mpr ⟨⟨TypeName.worded_of_forall hW extendee,
      fun field _ => Field.worded_of_forall hW field, Message.forall_worded_of_forall hW groups⟩,
      Extend.worded_of_forall hW rest⟩

end

theorem File.worded_of_forall (hW : ∀ word, W word) (file : File) : file.Worded W :=
  ⟨fun _ _ part _ => hW part, fun message _ => Message.worded_of_forall hW message,
    fun enum _ => Enum.worded_of_forall hW enum,
    fun service _ => Service.worded_of_forall hW service, Extend.worded_of_forall hW _⟩

end Schema

end ProtoSchema
