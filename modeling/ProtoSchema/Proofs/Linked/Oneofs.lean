import ProtoSchema.Proofs.Linked.References
import ProtoSchema.Proofs.Schema.Oneofs

/-!
Oneofs in a linked file. Linking keeps the oneofs of a message and the indices of its fields. It
may leave fields out, but those that stay are in their order, and so they fit the oneofs as the
fields that were read did.
-/

namespace ProtoSchema.Linked

def Field.member (field : Field) : Member := ⟨field.name, field.oneof, field.position⟩

variable {scope : Scope} {known : DottedName → TypeName → Bool} {place : DottedName}
  {extendee : Option DottedName} {declared : Schema.Message} {message : Message}
  {tokens : List Token}

theorem Field.Mirrors.member_eq {declared : Schema.Field} {field : Field}
    (h : field.Mirrors scope place extendee declared) : declared.member = field.member := by
  rw [Field.member, h.name, h.oneof, h.position]
  rfl

/-- The fields of a linked message are some of those that were declared, in their order. -/
theorem Message.Mirrors.sublist_members (h : message.Mirrors scope known place declared) :
    (message.fields.map (·.member)).Sublist (declared.fields.map (·.member)) := by
  cases h with
  | intro _ _ hfields _ _ _ _ _ _ =>
    have hsame : (declared.fields.filter (keepsField known message.fullName)).map (·.member) =
        message.fields.map (·.member) := by
      rw [← List.forall₂_eq_eq_eq, List.forall₂_map_left_iff, List.forall₂_map_right_iff]
      exact hfields.imp fun _ _ hmirrors => hmirrors.member_eq
    rw [← hsame]
    exact List.filter_sublist.map _

/-- In a text that is read the fields of each message fit its oneofs, at any depth and also in
the body of a group, and so they do in each file that the tree is linked to. Extensions belong to
no oneof. -/
theorem fields_fit_oneofs {text : String} {tree : Schema.File}
    (hread : Schema.File.read text = .ok tree) :
    ∃ tokens stop, Token.read text = .ok (tokens, stop) ∧
      (∀ region, tree.HasRegion region →
        (∀ message ∈ region.messages, message.OneofsFit tokens) ∧
        ∀ block ∈ region.extendBlocks, ∀ field ∈ block.fields, field.oneof = none) ∧
      ∀ warnUnused path imports outcome, link warnUnused path tree imports = .ok outcome →
        (∀ message, outcome.file.HasMessage message → ∃ region declared,
          tree.HasRegion region ∧ declared ∈ region.messages ∧
          message.fullName = region.scope.member declared.name ∧
          message.position = declared.position ∧
          message.oneofs = declared.oneofs.map (·.name) ∧
          OneofsFit tokens (declared.oneofs.map (·.head)) (message.fields.map (·.member))) ∧
        ∀ field ∈ outcome.file.allExtensions, field.oneof = none := by
  obtain ⟨tokens, stop, htokens, hsteps⟩ := Schema.File.steps_of_read hread
  have hfile := Schema.File.readFrom_of_steps hsteps
  have hapart : (tokens.map (·.position)).Nodup := (Token.wellRead htokens).nodup
  have hmessages {region : Schema.Region} (hregion : tree.HasRegion region)
      {message : Schema.Message} (hmessage : message ∈ region.messages) :
      message.OneofsFit tokens :=
    ((hregion.readFrom hfile).messages message hmessage).oneofsFit hapart
  have hextensions {region : Schema.Region} (hregion : tree.HasRegion region)
      {block : Schema.Extend} (hblock : block ∈ region.extendBlocks) :
      ∀ field ∈ block.fields, field.oneof = none :=
    ((hregion.readFrom hfile).blocks block hblock).oneof_eq_none
  refine ⟨tokens, stop, htokens, fun region hregion =>
    ⟨fun message hmessage => hmessages hregion hmessage, fun block hblock =>
      hextensions hregion hblock⟩, ?_⟩
  intro warnUnused path imports outcome hlink
  have hmirrors := mirrors_of_link hlink
  refine ⟨fun message hmessage => ?_, fun field hfield => ?_⟩
  · obtain ⟨region, declared, hregion, hdeclared, hmessage⟩ :=
      hmirrors.exists_region (File.mem_allMessages_iff.mpr hmessage)
    have hfit := (hmessages hregion hdeclared).sublist hmessage.sublist_members
    cases hmessage with
    | intro _ hname _ honeofs _ _ _ _ hposition =>
      exact ⟨region, declared, hregion, hdeclared, hname, hposition, honeofs, hfit⟩
  · obtain ⟨region, declared, hregion, hdeclared, _, _, hfield⟩ := hmirrors.exists_extension hfield
    obtain ⟨block, hblock, hdeclared⟩ := List.mem_flatMap.mp hdeclared
    obtain ⟨field, hfields, rfl⟩ := List.mem_map.mp hdeclared
    rw [hfield.oneof]
    exact hextensions hregion hblock field hfields

/-- The first field of a oneof is left out, since its type is in a file that is missing. A group is
a member as well. -/
theorem fields_fit_oneofs_dropped : ∃ (text : String) (tree : Schema.File) (path : VirtualPath)
    (missing : Import) (outcome : Outcome), Schema.File.read text = .ok tree ∧
    link false path tree [missing] = .ok outcome ∧
    tree.messages.map (·.fields.map fun field => (field.name, field.oneof)) =
      [[("g", some 0), ("n", some 0), ("b", some 0), ("z", some 1), ("a", none)]] ∧
    outcome.file.messages.map (·.fields.map fun field => (field.name, field.oneof)) =
      [[("n", some 0), ("b", some 0), ("z", some 1), ("a", none)]] ∧
    ∃ tokens stop, Token.read text = .ok (tokens, stop) ∧
      ∀ message, outcome.file.HasMessage message → ∃ oneofs, message.oneofs = oneofs.map (·.1) ∧
        OneofsFit tokens oneofs (message.fields.map (·.member)) := by
  let text := "import \"b.proto\"; message A { oneof x { G g = 1; bool n = 2; group B = 3 {} }
    oneof y { bool z = 4; } optional bool a = 5; }"
  let path : VirtualPath := ⟨⟨false, ["a.proto"], by decide⟩, by decide⟩
  let other : VirtualPath := ⟨⟨false, ["b.proto"], by decide⟩, by decide⟩
  let missing : Import := ⟨other, .plain, ⟨1, 1⟩, none⟩
  let tree := (Schema.File.read text).toOption.getD .empty
  have hfields : (Schema.File.read text).isOk = true ∧
      (¬∃ problem ∈ linkProblems false path tree [missing], problem.IsError) ∧
      tree.messages.map (·.fields.map fun field => (field.name, field.oneof)) =
        [[("g", some 0), ("n", some 0), ("b", some 0), ("z", some 1), ("a", none)]] ∧
      (linkedFile path tree [missing]).messages.map
        (·.fields.map fun field => (field.name, field.oneof)) =
        [[("n", some 0), ("b", some 0), ("z", some 1), ("a", none)]] := by
    decide +kernel
  obtain ⟨hok, hclean, hdeclared, hkept⟩ := hfields
  have hread : Schema.File.read text = .ok tree := File.read_eq_ok hok
  have hlink : link false path tree [missing] =
      .ok ⟨linkedFile path tree [missing], linkProblems false path tree [missing]⟩ :=
    (link_eq _ _ _ _).trans (if_neg hclean)
  obtain ⟨tokens, stop, htokens, _, hlinked⟩ := fields_fit_oneofs hread
  refine ⟨text, tree, path, missing, _, hread, hlink, hdeclared, hkept,
    tokens, stop, htokens, fun message hmessage => ?_⟩
  obtain ⟨_, declared, _, _, _, _, honeofs, hfit⟩ := (hlinked _ _ _ _ hlink).1 message hmessage
  refine ⟨declared.oneofs.map (·.head), ?_, hfit⟩
  rw [honeofs, List.map_map]
  rfl

end ProtoSchema.Linked
