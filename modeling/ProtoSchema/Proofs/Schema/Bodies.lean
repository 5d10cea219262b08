import ProtoSchema.Proofs.Linked.Declaring
import ProtoSchema.Proofs.Schema.Grammar

/-!
What was read where. Each message of a file that was read, at any depth and also when it is the
body of a group, has its name among the tokens, and between its braces the tokens of which its
body is made; and so has each extend block. Hence all names are words of the text.
-/

namespace ProtoSchema

open Phrase (emptyMessage)

namespace Schema

inductive Message.ReadFrom (tokens : List Token) (message : Message) : Prop
  | intro {depth : Nat} {inner : List Token}
      (hname : ⟨.word message.name, message.position⟩ ∈ tokens) (hinner : inner <:+: tokens)
      (hbody : BodyTokens depth inner (emptyMessage message.name message.position) message)

inductive ExtendBlock.ReadFrom (tokens : List Token) (block : Extend) : Prop
  | intro {depth : Nat} {inner : List Token} {extendee : TypeName} {position : Position}
      (hinner : inner <:+: tokens)
      (hsteps : Steps (ExtendStep (BodyTokens depth)) inner ⟨extendee, [], [], position⟩ block)

structure ReadFrom (tokens : List Token) (messages : List Message) (enums : List Enum)
    (blocks : List Extend) : Prop where
  messages : ∀ message ∈ messages, message.ReadFrom tokens
  enums : ∀ enum ∈ enums, ⟨.word enum.name, enum.position⟩ ∈ tokens
  blocks : ∀ block ∈ blocks, block.ReadFrom tokens

structure File.ReadFrom (tokens : List Token) (file : File) : Prop where
  package : ∀ name, file.package = some name → ∀ part ∈ name,
    ∃ position, ⟨.word part, position⟩ ∈ tokens
  services : ∀ service ∈ file.services, ⟨.word service.name, service.position⟩ ∈ tokens
  inside : Schema.ReadFrom tokens file.messages file.enums file.extendBlocks

end Schema

open Schema

variable {tokens piece inner : List Token} {message next body : Message} {depth : Nat}

section Names

theorem OneofStep.named {B : BodyRelation} {index : Nat}
    (h : OneofStep B index piece message next) :
    next.name = message.name ∧ next.position = message.position := by
  cases h with
  | skipped => exact ⟨rfl, rfl⟩
  | option => exact ⟨rfl, rfl⟩
  | field => exact ⟨rfl, rfl⟩

theorem MessageStep.named {B : BodyRelation} (h : MessageStep B piece message next) :
    next.name = message.name ∧ next.position = message.position := by
  cases h with
  | oneof _ hsteps =>
    refine hsteps.keeps (P := fun m => m.name = message.name ∧ m.position = message.position)
      (fun piece m n hm hstep => ?_) ⟨rfl, rfl⟩
    exact ⟨hstep.named.1.trans hm.1, hstep.named.2.trans hm.2⟩
  | _ => exact ⟨rfl, rfl⟩

/-- A body changes neither the name of the message nor its place. -/
theorem BodyTokens.named (h : BodyTokens depth inner message body) :
    body.name = message.name ∧ body.position = message.position := by
  cases depth with
  | zero => exact h.elim
  | succ depth =>
    refine Steps.keeps (P := fun m => m.name = message.name ∧ m.position = message.position)
      (fun piece m n hm hstep => ?_) h ⟨rfl, rfl⟩
    exact ⟨hstep.named.1.trans hm.1, hstep.named.2.trans hm.2⟩

end Names

section Reading

theorem BodyTokens.readFrom {name : String} {position : Position}
    (h : BodyTokens depth inner (emptyMessage name position) body)
    (hname : ⟨.word name, position⟩ ∈ tokens) (hinner : inner <:+: tokens) :
    body.ReadFrom tokens := by
  obtain ⟨rfl, rfl⟩ : body.name = name ∧ body.position = position := h.named
  exact ⟨hname, hinner, h⟩

theorem NamedBlock.readFrom {name : String} {position : Position}
    (h : NamedBlock "message" name position inner piece) (hpiece : piece <:+: tokens)
    (hbody : BodyTokens depth inner (emptyMessage name position) body) : body.ReadFrom tokens :=
  hbody.readFrom (hpiece.subset h.mem) (h.isInfix.trans hpiece)

theorem FieldTokens.readFrom {oneof : Option Nat} {field : Field} {groups : List Message}
    (h : FieldTokens (BodyTokens depth) oneof piece field groups) (hpiece : piece <:+: tokens) :
    ∀ body ∈ groups, body.ReadFrom tokens := by
  cases h with
  | plain => exact List.forall_mem_nil _
  | group htokens _ _ hbody =>
    rw [List.forall_mem_singleton]
    exact hbody.readFrom (hpiece.subset htokens.mem) (htokens.isInfix.trans hpiece)

theorem ExtendRead.readFrom {block : Extend} (h : ExtendRead (BodyTokens depth) piece block)
    (hpiece : piece <:+: tokens) : block.ReadFrom tokens := by
  obtain ⟨htokens, hsteps⟩ := h
  exact ⟨htokens.isInfix.trans hpiece, hsteps⟩

theorem Schema.ExtendBlock.ReadFrom.groups {block : Extend} (h : block.ReadFrom tokens) :
    ∀ body ∈ block.groups, body.ReadFrom tokens := by
  obtain ⟨hinner, hsteps⟩ := h
  refine hsteps.keepsWithin (P := fun b => ∀ body ∈ b.groups, body.ReadFrom tokens) hinner
    (fun piece b next hpiece hstep hb => ?_) (List.forall_mem_nil _)
  cases hstep with
  | skipped => exact hb
  | field hfield => exact List.forall_mem_append.mpr ⟨hb, hfield.readFrom hpiece⟩

namespace Schema.ReadFrom

theorem empty : ReadFrom tokens [] [] [] :=
  ⟨List.forall_mem_nil _, List.forall_mem_nil _, List.forall_mem_nil _⟩

variable {messages more : List Message} {enums : List Enum} {blocks : List Extend}

theorem append (h : ReadFrom tokens messages enums blocks)
    (hmore : ∀ message ∈ more, message.ReadFrom tokens) :
    ReadFrom tokens (messages ++ more) enums blocks :=
  ⟨List.forall_mem_append.mpr ⟨h.messages, hmore⟩, h.enums, h.blocks⟩

theorem addMessage (h : ReadFrom tokens messages enums blocks) (hbody : body.ReadFrom tokens) :
    ReadFrom tokens (messages ++ [body]) enums blocks :=
  h.append (by rwa [List.forall_mem_singleton])

theorem addEnum (h : ReadFrom tokens messages enums blocks) {enum : Enum}
    (henum : ⟨.word enum.name, enum.position⟩ ∈ tokens) :
    ReadFrom tokens messages (enums ++ [enum]) blocks :=
  ⟨h.messages, List.forall_mem_append.mpr ⟨h.enums, by rwa [List.forall_mem_singleton]⟩, h.blocks⟩

theorem addBlock (h : ReadFrom tokens messages enums blocks) {block : Extend}
    (hblock : block.ReadFrom tokens) : ReadFrom tokens messages enums (blocks ++ [block]) :=
  ⟨h.messages, h.enums, List.forall_mem_append.mpr ⟨h.blocks, by rwa [List.forall_mem_singleton]⟩⟩

/-- The messages of the scope are those that stand in it and the groups of its extend blocks. -/
theorem declaredMessages (h : ReadFrom tokens messages enums blocks) :
    ∀ message ∈ Linked.declaredMessages messages blocks, message.ReadFrom tokens := by
  intro message hmessage
  rcases Linked.Declaration.mem_declaredMessages.mp hmessage with hmessage | hgroup
  · exact h.messages message hmessage
  · obtain ⟨block, hblock, hmessage⟩ := hgroup
    exact (h.blocks block hblock).groups message hmessage

end Schema.ReadFrom

abbrev Schema.Message.InsideReadFrom (tokens : List Token) (message : Message) : Prop :=
  Schema.ReadFrom tokens message.messages message.enums message.extendBlocks

theorem OneofStep.readFrom {index : Nat} (h : OneofStep (BodyTokens depth) index piece message next)
    (hpiece : piece <:+: tokens) (hmessage : message.InsideReadFrom tokens) :
    next.InsideReadFrom tokens := by
  cases h with
  | skipped => exact hmessage
  | option => exact hmessage
  | field hfield => exact hmessage.append (hfield.readFrom hpiece)

theorem MessageStep.readFrom (h : MessageStep (BodyTokens depth) piece message next)
    (hpiece : piece <:+: tokens) (hmessage : message.InsideReadFrom tokens) :
    next.InsideReadFrom tokens := by
  cases h with
  | skipped => exact hmessage
  | option => exact hmessage
  | field hfield => exact hmessage.append (hfield.readFrom hpiece)
  | message htokens hbody => exact hmessage.addMessage (htokens.readFrom hpiece hbody)
  | enum henum => exact hmessage.addEnum (hpiece.subset henum.mem)
  | extend hblock => exact hmessage.addBlock (hblock.readFrom hpiece)
  | oneof htokens hsteps =>
    exact hsteps.keepsWithin (P := Schema.Message.InsideReadFrom tokens)
      (htokens.isInfix.trans hpiece) (fun _ _ _ hpiece hstep => hstep.readFrom hpiece) hmessage

/-- What stands in the message was read between its braces. -/
theorem Schema.Message.ReadFrom.inside (h : message.ReadFrom tokens) :
    message.InsideReadFrom tokens := by
  obtain @⟨depth, inner, _, hinner, hbody⟩ := h
  cases depth with
  | zero => exact hbody.elim
  | succ depth =>
    exact Steps.keepsWithin (P := Schema.Message.InsideReadFrom tokens) hinner
      (fun _ _ _ hpiece hstep => hstep.readFrom hpiece) hbody .empty

theorem FileStep.readFrom {file next : File} (h : FileStep (BodyTokens depth) piece file next)
    (hpiece : piece <:+: tokens) (hfile : file.ReadFrom tokens) : next.ReadFrom tokens := by
  cases h with
  | plain => exact ⟨hfile.package, hfile.services, hfile.inside⟩
  | package _ hwords =>
    refine ⟨?_, hfile.services, hfile.inside⟩
    rintro name ⟨rfl⟩ part hpart
    obtain ⟨position, hmem⟩ := hwords part hpart
    exact ⟨position, hpiece.subset hmem⟩
  | message htokens hbody =>
    exact ⟨hfile.package, hfile.services, hfile.inside.addMessage (htokens.readFrom hpiece hbody)⟩
  | enum henum =>
    exact ⟨hfile.package, hfile.services, hfile.inside.addEnum (hpiece.subset henum.mem)⟩
  | service htokens =>
    refine ⟨hfile.package, List.forall_mem_append.mpr ⟨hfile.services, ?_⟩, hfile.inside⟩
    rw [List.forall_mem_singleton]
    exact hpiece.subset htokens.mem
  | extend hblock =>
    exact ⟨hfile.package, hfile.services, hfile.inside.addBlock (hblock.readFrom hpiece)⟩

namespace Schema.File

theorem readFrom_of_steps {file : File}
    (h : Steps (FileStep (BodyTokens depth)) tokens .empty file) : file.ReadFrom tokens := by
  refine h.keepsWithin (List.infix_refl tokens) (fun _ _ _ hpiece hstep => hstep.readFrom hpiece)
    ⟨?_, List.forall_mem_nil _, .empty⟩
  rintro name ⟨⟩

/-- At each depth what stands in a scope was read from the tokens of the file. -/
theorem HasRegion.readFrom {file : File} {region : Region} (h : file.ReadFrom tokens)
    (hregion : file.HasRegion region) :
    Schema.ReadFrom tokens region.messages region.enums region.extendBlocks := by
  induction hregion with
  | outer => exact ⟨h.inside.declaredMessages, h.inside.enums, h.inside.blocks⟩
  | inner _ hmessage ih =>
    have hinside := (ih.messages _ hmessage).inside
    exact ⟨hinside.declaredMessages, hinside.enums, hinside.blocks⟩

end Schema.File

end Reading

end ProtoSchema
