import ProtoSchema.Schema

/-!
Declarations without their places. Two texts that differ in layout alone give the same
declarations but for the places that these remember.
-/

namespace ProtoSchema.Schema

def OptionSetting.unplaced (setting : OptionSetting) : OptionSetting :=
  { setting with position := .none }

def Field.unplaced (field : Field) : Field :=
  { field with
    options := field.options.map OptionSetting.unplaced
    position := .none
    typePosition := .none }

def Oneof.unplaced (oneof : Oneof) : Oneof :=
  { oneof with options := oneof.options.map OptionSetting.unplaced, position := .none }

def EnumValue.unplaced (value : EnumValue) : EnumValue :=
  { value with options := value.options.map OptionSetting.unplaced, position := .none }

def Enum.unplaced (enum : Enum) : Enum :=
  { enum with
    values := enum.values.map EnumValue.unplaced
    options := enum.options.map OptionSetting.unplaced
    position := .none }

def Method.unplaced (method : Method) : Method :=
  { method with
    inputPosition := .none
    outputPosition := .none
    options := method.options.map OptionSetting.unplaced
    position := .none }

def Service.unplaced (service : Service) : Service :=
  { service with
    methods := service.methods.map Method.unplaced
    options := service.options.map OptionSetting.unplaced
    position := .none }

mutual

def Message.unplaced : Message → Message
  | ⟨name, fields, oneofs, messages, enums, extendBlocks, options, _⟩ =>
    ⟨name, fields.map Field.unplaced, oneofs.map Oneof.unplaced, unplacedMessages messages,
      enums.map Enum.unplaced, unplacedExtends extendBlocks,
      options.map OptionSetting.unplaced, .none⟩

def unplacedMessages : List Message → List Message
  | [] => []
  | message :: rest => message.unplaced :: unplacedMessages rest

def unplacedExtends : List Extend → List Extend
  | [] => []
  | ⟨extendee, fields, groups, _⟩ :: rest =>
    ⟨extendee, fields.map Field.unplaced, unplacedMessages groups, .none⟩ :: unplacedExtends rest

end

theorem unplacedMessages_append (messages more : List Message) :
    unplacedMessages (messages ++ more) = unplacedMessages messages ++ unplacedMessages more := by
  induction messages with
  | nil => rfl
  | cons message rest ih => rw [List.cons_append, unplacedMessages, unplacedMessages, ih]; rfl

theorem unplacedExtends_append (blocks more : List Extend) :
    unplacedExtends (blocks ++ more) = unplacedExtends blocks ++ unplacedExtends more := by
  induction blocks with
  | nil => rfl
  | cons block rest ih => rw [List.cons_append, unplacedExtends, unplacedExtends, ih]; rfl

theorem unplacedMessages_singleton (message : Message) :
    unplacedMessages [message] = [message.unplaced] := by
  rw [unplacedMessages, unplacedMessages]

theorem Oneof.map_unplaced_modify (oneofs : List Oneof) (index : Nat)
    (options : List OptionSetting) :
    (oneofs.modify index fun oneof => { oneof with options := oneof.options ++ options }).map
        Oneof.unplaced =
      (oneofs.map Oneof.unplaced).modify index fun oneof =>
        { oneof with options := oneof.options ++ options.map OptionSetting.unplaced } := by
  induction oneofs generalizing index with
  | nil => simp
  | cons oneof rest ih =>
    cases index with
    | zero => simp [Oneof.unplaced]
    | succ index => simp [ih]

/-- Two messages are the same but for their places when their parts are. -/
theorem Message.unplaced_eq_iff {a b : Message} :
    a.unplaced = b.unplaced ↔ a.name = b.name ∧
      a.fields.map Field.unplaced = b.fields.map Field.unplaced ∧
      a.oneofs.map Oneof.unplaced = b.oneofs.map Oneof.unplaced ∧
      unplacedMessages a.messages = unplacedMessages b.messages ∧
      a.enums.map Enum.unplaced = b.enums.map Enum.unplaced ∧
      unplacedExtends a.extendBlocks = unplacedExtends b.extendBlocks ∧
      a.options.map OptionSetting.unplaced = b.options.map OptionSetting.unplaced := by
  cases a
  cases b
  simp [Message.unplaced]

theorem unplacedExtends_eq_iff {a b : Extend} :
    unplacedExtends [a] = unplacedExtends [b] ↔ a.extendee = b.extendee ∧
      a.fields.map Field.unplaced = b.fields.map Field.unplaced ∧
      unplacedMessages a.groups = unplacedMessages b.groups := by
  simp [unplacedExtends]

end ProtoSchema.Schema
