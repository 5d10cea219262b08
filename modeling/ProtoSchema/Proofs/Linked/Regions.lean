import ProtoSchema.Proofs.Linked.Declaring

/-!
The messages of a linked file at their places. The listing has the messages of every depth. Each of
them mirrors a message that was declared in some scope of the tree, and each scope of the tree, at
any depth, has its messages mirrored one by one.
-/

namespace ProtoSchema.Linked

theorem exists_of_forall₂ {α β : Type} {R : α → β → Prop} {items : List α} {others : List β}
    (h : List.Forall₂ R items others) {b : β} (hb : b ∈ others) : ∃ a ∈ items, R a b := by
  induction h with
  | nil => cases hb
  | cons hfirst _ ih =>
    rcases List.mem_cons.mp hb with rfl | hb
    · exact ⟨_, List.mem_cons_self, hfirst⟩
    · obtain ⟨a, ha, hR⟩ := ih hb
      exact ⟨a, List.mem_cons_of_mem _ ha, hR⟩

namespace File

inductive HasMessage (file : File) : Message → Prop
  | outer {message : Message} (h : message ∈ file.messages) : file.HasMessage message
  | inner {outer message : Message} (houter : file.HasMessage outer)
      (h : message ∈ outer.messages) : file.HasMessage message

inductive HasEnum (file : File) (enum : Enum) : Prop
  | outer (h : enum ∈ file.enums)
  | inner {message : Message} (hmessage : file.HasMessage message) (h : enum ∈ message.enums)

def HasService (file : File) (service : Service) : Prop := service ∈ file.services

variable {file : File} {message outer : Message}

theorem mem_preorderList {messages : List Message} :
    message ∈ Message.preorderList messages ↔ ∃ m ∈ messages, message ∈ m.preorder := by
  induction messages with
  | nil => simp [Message.preorderList]
  | cons first rest ih => simp [Message.preorderList, ih]

-- The recursion is that of the listing.
mutual

theorem mem_preorder_of_mem (top : Message) (houter : outer ∈ top.preorder)
    (h : message ∈ outer.messages) : message ∈ top.preorder := by
  match top with
  | ⟨name, fullName, fields, oneofs, messages, enums, extensions, options, position⟩ =>
    rw [Message.preorder] at houter ⊢
    rcases List.mem_cons.mp houter with rfl | houter
    · refine List.mem_cons_of_mem _ (mem_preorderList.mpr ⟨message, h, ?_⟩)
      rw [Message.preorder_eq]
      exact List.mem_cons_self
    · exact List.mem_cons_of_mem _ (mem_preorderList_of_mem messages houter h)

theorem mem_preorderList_of_mem (messages : List Message)
    (houter : outer ∈ Message.preorderList messages) (h : message ∈ outer.messages) :
    message ∈ Message.preorderList messages := by
  match messages with
  | [] => cases houter
  | first :: rest =>
    rw [Message.preorderList, List.mem_append] at houter ⊢
    rcases houter with houter | houter
    · exact .inl (mem_preorder_of_mem first houter h)
    · exact .inr (mem_preorderList_of_mem rest houter h)

end

mutual

theorem hasMessage_of_mem_preorder (top : Message) (htop : file.HasMessage top)
    (h : message ∈ top.preorder) : file.HasMessage message := by
  match top with
  | ⟨name, fullName, fields, oneofs, messages, enums, extensions, options, position⟩ =>
    rw [Message.preorder] at h
    rcases List.mem_cons.mp h with rfl | h
    · exact htop
    · exact hasMessage_of_mem_preorderList messages (fun m hm => .inner htop hm) h

theorem hasMessage_of_mem_preorderList (messages : List Message)
    (hmessages : ∀ m ∈ messages, file.HasMessage m) (h : message ∈ Message.preorderList messages) :
    file.HasMessage message := by
  match messages with
  | [] => cases h
  | first :: rest =>
    obtain ⟨hfirst, hrest⟩ := List.forall_mem_cons.mp hmessages
    rw [Message.preorderList, List.mem_append] at h
    rcases h with h | h
    · exact hasMessage_of_mem_preorder first hfirst h
    · exact hasMessage_of_mem_preorderList rest hrest h

end

/-- The listing has the messages of every depth. -/
theorem mem_allMessages_iff : message ∈ file.allMessages ↔ file.HasMessage message := by
  constructor
  · exact hasMessage_of_mem_preorderList file.messages fun m hm => .outer hm
  · intro h
    induction h with
    | @outer message h =>
      refine mem_preorderList.mpr ⟨message, h, ?_⟩
      rw [Message.preorder_eq]
      exact List.mem_cons_self
    | inner _ h ih => exact mem_preorderList_of_mem file.messages ih h

theorem mem_allEnums_iff {enum : Enum} : enum ∈ file.allEnums ↔ file.HasEnum enum := by
  rw [allEnums, List.mem_append, List.mem_flatMap]
  constructor
  · rintro (h | ⟨message, hmessage, h⟩)
    · exact .outer h
    · exact .inner (mem_allMessages_iff.mp hmessage) h
  · rintro (h | ⟨hmessage, h⟩)
    · exact .inl h
    · exact .inr ⟨_, mem_allMessages_iff.mpr hmessage, h⟩

end File

variable {scope : Scope} {known : DottedName → TypeName → Bool} {path : VirtualPath}
  {tree : Schema.File} {imports : List Import} {file : File} {region : Schema.Region}
  {message inner : Message} {declared : Schema.Message}

-- The recursion is that of the mirrors: a message, the messages of a scope.
mutual

theorem Message.Mirrors.exists_region {place : DottedName} {declared : Schema.Message}
    {message : Message} (h : message.Mirrors scope known place declared)
    {region : Schema.Region} (hplace : region.scope = place) (hregion : tree.HasRegion region)
    (hdeclared : declared ∈ region.messages) (hinner : inner ∈ message.preorder) :
    ∃ region declared, tree.HasRegion region ∧ declared ∈ region.messages ∧
      inner.Mirrors scope known region.scope declared := by
  rw [Message.preorder_eq] at hinner
  rcases List.mem_cons.mp hinner with rfl | hnested
  · exact ⟨region, declared, hregion, hdeclared, by rwa [hplace]⟩
  · match h with
    | .intro _ hname _ _ hmessages _ _ _ _ =>
      have hscope : (declared.region region.scope).scope = message.fullName := by
        rw [hname, ← hplace]
        rfl
      exact hmessages.exists_region hscope (.inner hregion hdeclared) (List.Subset.refl _) hnested

theorem Message.MirrorAll.exists_region {place : DottedName} {items : List Schema.Message}
    {messages : List Message} (h : Message.MirrorAll scope known place items messages)
    {region : Schema.Region} (hplace : region.scope = place) (hregion : tree.HasRegion region)
    (hitems : items ⊆ region.messages) (hinner : inner ∈ Message.preorderList messages) :
    ∃ region declared, tree.HasRegion region ∧ declared ∈ region.messages ∧
      inner.Mirrors scope known region.scope declared := by
  match h with
  | .nil => cases hinner
  | .cons hfirst hothers =>
    obtain ⟨hmem, hrest⟩ := List.cons_subset.mp hitems
    rcases List.mem_append.mp hinner with hinner | hinner
    · exact hfirst.exists_region hplace hregion hmem hinner
    · exact hothers.exists_region hplace hregion hrest hinner

end

theorem Message.MirrorAll.exists_of_mem {place : DottedName} {items : List Schema.Message}
    {messages : List Message} (h : Message.MirrorAll scope known place items messages)
    (hdeclared : declared ∈ items) :
    ∃ message ∈ messages, message.Mirrors scope known place declared := by
  match h with
  | .nil => cases hdeclared
  | .cons hfirst hothers =>
    rcases List.mem_cons.mp hdeclared with rfl | hdeclared
    · exact ⟨_, List.mem_cons_self, hfirst⟩
    · obtain ⟨message, hmessage, hmirrors⟩ := hothers.exists_of_mem hdeclared
      exact ⟨message, List.mem_cons_of_mem _ hmessage, hmirrors⟩

namespace File.Mirrors

/-- Each message of the file was declared somewhere in the tree. -/
theorem exists_region (h : file.Mirrors scope known path tree imports)
    (hmessage : message ∈ file.allMessages) :
    ∃ region declared, tree.HasRegion region ∧ declared ∈ region.messages ∧
      message.Mirrors scope known region.scope declared := by
  have houter : tree.HasRegion tree.region := .outer
  exact h.messages.exists_region rfl houter (List.Subset.refl _) hmessage

/-- The messages of each scope of the tree are in the file. -/
theorem mirrorAll_region (h : file.Mirrors scope known path tree imports)
    (hregion : tree.HasRegion region) : ∃ messages : List Message,
      Message.MirrorAll scope known region.scope region.messages messages ∧
      ∀ message ∈ messages, file.HasMessage message := by
  induction hregion with
  | outer => exact ⟨file.messages, h.messages, fun _ hmessage => .outer hmessage⟩
  | inner _ hmessage ih =>
    obtain ⟨messages, hmirror, hlisted⟩ := ih
    obtain ⟨outer, houter, hmirrors⟩ := hmirror.exists_of_mem hmessage
    cases hmirrors with
    | intro _ hname _ _ hmessages _ _ _ _ =>
      rw [hname] at hmessages
      exact ⟨outer.messages, hmessages, fun _ hinner => .inner (hlisted outer houter) hinner⟩

/-- Each message that was declared is in the file. -/
theorem exists_message (h : file.Mirrors scope known path tree imports)
    (hregion : tree.HasRegion region) (hdeclared : declared ∈ region.messages) :
    ∃ message, file.HasMessage message ∧ message.Mirrors scope known region.scope declared := by
  obtain ⟨messages, hmirror, hlisted⟩ := h.mirrorAll_region hregion
  obtain ⟨message, hmessage, hmirrors⟩ := hmirror.exists_of_mem hdeclared
  exact ⟨message, hlisted message hmessage, hmirrors⟩

variable {field : Field}

/-- Each field of a message of the file was declared in the one that the message mirrors. -/
theorem exists_field (h : file.Mirrors scope known path tree imports)
    (hmessage : message ∈ file.allMessages) (hfield : field ∈ message.fields) :
    ∃ region outer declared, tree.HasRegion region ∧ outer ∈ region.messages ∧
      declared ∈ outer.fields ∧
      field.Mirrors scope (region.scope.member outer.name) none declared := by
  obtain ⟨region, outer, hregion, houter, hmirrors⟩ := h.exists_region hmessage
  cases hmirrors with
  | intro _ hname hfields _ _ _ _ _ _ =>
    obtain ⟨declared, hdeclared, hfield⟩ := exists_of_forall₂ hfields hfield
    rw [hname] at hfield
    exact ⟨region, outer, declared, hregion, houter, List.mem_of_mem_filter hdeclared, hfield⟩

/-- Each extension of the file was declared in an extend block of the tree. -/
theorem exists_extension (h : file.Mirrors scope known path tree imports)
    (hfield : field ∈ file.allExtensions) :
    ∃ region declared, tree.HasRegion region ∧
      declared ∈ declaredExtensions region.extendBlocks ∧
      field.Extends scope region.scope declared := by
  rcases List.mem_append.mp hfield with hfield | hfield
  · obtain ⟨declared, hdeclared, hextends⟩ := exists_of_forall₂ h.extensions hfield
    exact ⟨tree.region, declared, .outer, List.mem_of_mem_filter hdeclared, hextends⟩
  · obtain ⟨message, hmessage, hfield⟩ := List.mem_flatMap.mp hfield
    obtain ⟨region, outer, hregion, houter, hmirrors⟩ := h.exists_region hmessage
    cases hmirrors with
    | intro _ hname _ _ _ _ hextensions _ _ =>
      obtain ⟨declared, hdeclared, hextends⟩ := exists_of_forall₂ hextensions hfield
      rw [hname] at hextends
      exact ⟨outer.region region.scope, declared, .inner hregion houter,
        List.mem_of_mem_filter hdeclared, hextends⟩

end File.Mirrors

/-- A file that was linked mirrors its tree, save for what does not resolve. -/
theorem mirrors_of_link {warnUnused : Bool} {outcome : Outcome}
    (h : link warnUnused path tree imports = .ok outcome) :
    outcome.file.Mirrors (Scope.ofFile path tree imports).1
      (Scope.ofFile path tree imports).1.resolves path tree imports := by
  rw [(link_eq_ok h).1]
  exact linkedFile_mirrors Scope.settles_resolves (bindFile_clean h)

end ProtoSchema.Linked
