import Mathlib.Data.List.Pairwise
import ProtoSchema.Proofs.Linked.References
import ProtoSchema.Proofs.Linked.Scoping
import ProtoSchema.Proofs.Schema.Groups

/-!
Groups in a linked file. The body of a group is declared in the scope in which its field is bound,
and that scope is the first in which the name is looked up. As the name starts with a capital it
is no scalar, and as no two declarations share a full name it is nothing else than the body. So
the field of a group has its own body as its type, and in a message it is never left out.
-/

namespace ProtoSchema

open Phrase (startsWithCapital)

theorem Char.toLower_ne_self {c : Char} (h : c.isUpper = true) : c.toLower ≠ c := by
  intro hsame
  have hbounds : c.val ≥ 'A'.val ∧ c.val ≤ 'Z'.val := of_decide_eq_true h
  have hlower : c.toLower.val = c.val + ('a'.val - 'A'.val) := congrArg Char.val (dif_pos hbounds)
  rw [hsame] at hlower
  simp at hlower

/-- A name with a capital is another one in small letters. -/
theorem map_toLower_ne {name : String} (h : startsWithCapital name = true) :
    name.map Char.toLower ≠ name := by
  intro hsame
  have hchars := congrArg String.toList hsame
  rw [String.toList_map] at hchars
  unfold startsWithCapital at h
  cases hname : name.toList with
  | nil =>
    rw [hname] at h
    cases h
  | cons c cs =>
    rw [hname] at h hchars
    exact Char.toLower_ne_self h (List.cons.inj hchars).1

theorem Scalar.ofName?_of_capital {name : String} (h : startsWithCapital name = true) :
    Scalar.ofName? (.simple name) = none := by
  refine List.find?_eq_none.mpr fun scalar _ hname => ?_
  obtain rfl : scalar.text = name := by simpa using hname
  revert h
  cases scalar <;> decide

theorem DottedName.member_inj {scope other : DottedName} {name last : String} :
    scope.member name = other.member last ↔ scope = other ∧ name = last := by
  simp [member]

namespace Linked

variable {warnUnused : Bool} {path : VirtualPath} {tree : Schema.File} {imports : List Import}
  {place scope : DottedName} {name : String} {position : Position} {tokens : List Token}
  {home : Home} {declared : Schema.Field} {body : Schema.Message}

open Declaration (Repeats ofFile ofFields)

/-- A message that is declared in the scope is what its name means there. -/
theorem resolve?_of_declares (hclashes : (Scope.ofFile path tree imports).2 = [])
    (h : tree.Declares (place.member name) .message) :
    (Scope.ofFile path tree imports).1.resolve? (.simple name) place true =
      some ⟨place.member name, .message, path⟩ := by
  have hfinds : (Scope.ofFile path tree imports).1.Finds (place.member name)
      ⟨place.member name, .message, path⟩ :=
    .own (find?_eq_some_iff_tells.mp ((linkedFile_symbol?_iff hclashes _ _).mpr h))
  refine Scope.searchOutward_enclosing_eq_some_iff.mpr ⟨place, ⟨List.prefix_rfl, ?_, ?_⟩, hfinds⟩
  · exact ⟨_, hfinds, by rw [Scope.ends_nil]; exact fun _ => .inl rfl⟩
  · exact fun _ hother _ => hother

/-- The name of a group can only denote the message that is declared in the scope. -/
theorem type_eq_of_denotes (hclashes : (Scope.ofFile path tree imports).2 = [])
    (hcapital : startsWithCapital name = true) (h : tree.Declares (place.member name) .message)
    {type : FieldType}
    (htype : (Scope.ofFile path tree imports).1.DenotesType place (.single (.simple name)) type) :
    type = .single (.message (place.member name) path) := by
  have hresolve := resolve?_of_declares hclashes h
  obtain ⟨hdenotes⟩ := htype
  cases hdenotes with
  | scalar hscalar =>
    rw [Scalar.ofName?_of_capital hcapital] at hscalar
    cases hscalar
  | message _ hfound =>
    cases hresolve.symm.trans hfound
    rfl
  | enum _ hfound => cases hresolve.symm.trans hfound

/-- In a file that is linked two declarations of a field with one full name are one. -/
theorem position_eq_of_declared (hclashes : (Scope.ofFile path tree imports).2 = [])
    {full : DottedName} {here there : Position} (hhere : ⟨full, .field, here⟩ ∈ ofFile tree)
    (hthere : ⟨full, .field, there⟩ ∈ ofFile tree) : here = there := by
  have hadmits : Declaration.Admits (exposed imports) [] := ⟨List.nodup_nil, by simp⟩
  have happart := ((Declaration.enterAll_eq_nil_iff hadmits _).mp hclashes).pairwise
  by_contra hdiffers
  refine happart.forall hhere hthere (fun hsame => hdiffers ?_)
    ⟨rfl, fun hpackages => by cases hpackages.1⟩
  exact congrArg Declaration.position hsame

theorem field_mem_ofFile {region : Schema.Region} {message : Schema.Message}
    (hregion : tree.HasRegion region) (hmessage : message ∈ region.messages)
    (hfield : declared ∈ message.fields) :
    ⟨(region.scope.member message.name).member declared.name, .field, declared.position⟩ ∈
      ofFile tree := by
  obtain ⟨i, hi⟩ := List.mem_iff_getElem?.mp hmessage
  obtain ⟨j, hj⟩ := List.mem_iff_getElem?.mp hfield
  exact Declaration.mem_ofFile_iff.mpr (hregion.exists_declaresAt (.field hi hj))

theorem extension_mem_ofFile {region : Schema.Region} {block : Schema.Extend}
    (hregion : tree.HasRegion region) (hblock : block ∈ region.extendBlocks)
    (hfield : declared ∈ block.fields) :
    ⟨region.scope.member declared.name, .field, declared.position⟩ ∈ ofFile tree := by
  obtain ⟨i, hi⟩ := List.mem_iff_getElem?.mp hblock
  obtain ⟨j, hj⟩ := List.mem_iff_getElem?.mp hfield
  exact Declaration.mem_ofFile_iff.mpr (hregion.exists_declaresAt (.extension hi hj))

theorem field_mem_of_hasGroup (h : tree.HasGroup home place declared body) :
    ⟨place.member declared.name, .field, declared.position⟩ ∈ ofFile tree := by
  cases h with
  | message _ hregion hmessage hfield _ => exact field_mem_ofFile hregion hmessage hfield
  | extendBlock hregion hblock hfield _ => exact extension_mem_ofFile hregion hblock hfield

theorem declares_of_hasGroup (h : tree.HasGroup home place declared body) :
    tree.Declares (place.member body.name) .message := by
  obtain ⟨region, hregion, rfl, hbody⟩ := h.exists_region
  exact .message hregion hbody

variable {known : DottedName → TypeName → Bool} {within : Scope} {file : File} {field : Field}

/-- A field of the linked file was declared in the scope of its full name, and was read. -/
theorem File.Mirrors.exists_declared (h : file.Mirrors within known path tree imports)
    (hread : tree.ReadFrom tokens) (hfield : field ∈ file.allFields) :
    ∃ (place : DottedName) (declared : Schema.Field),
      ⟨place.member declared.name, .field, declared.position⟩ ∈ ofFile tree ∧
      declared.ReadFrom tokens ∧ field.fullName = place.member declared.name ∧
      field.position = declared.position ∧
      within.DenotesType place declared.type field.type := by
  rcases List.mem_append.mp hfield with hfield | hfield
  · obtain ⟨message, hmessage, hfield⟩ := List.mem_flatMap.mp hfield
    obtain ⟨region, outer, declared, hregion, houter, hdeclared, hmirrors⟩ :=
      h.exists_field hmessage hfield
    have hfields := ((hregion.readFrom hread).messages outer houter).fields
    exact ⟨_, declared, field_mem_ofFile hregion houter hdeclared, hfields declared hdeclared,
      hmirrors.fullName, hmirrors.position, hmirrors.type⟩
  · obtain ⟨region, extension, hregion, hextends, _, _, hmirrors⟩ := h.exists_extension hfield
    obtain ⟨block, hblock, hdeclared⟩ := List.mem_flatMap.mp hextends
    obtain ⟨declared, hmem, rfl⟩ := List.mem_map.mp hdeclared
    have hfields := ((hregion.readFrom hread).blocks block hblock).fields
    exact ⟨_, declared, extension_mem_ofFile hregion hblock hmem, hfields declared hmem,
      hmirrors.fullName, hmirrors.position, hmirrors.type⟩

/-- The field that has the full name of a group's field is the field of the group, and its type
is the body. -/
theorem type_eq_of_hasGroup (hclashes : (Scope.ofFile path tree imports).2 = [])
    (h : file.Mirrors (Scope.ofFile path tree imports).1 known path tree imports)
    (hread : tree.ReadFrom tokens) (hapart : (tokens.map (·.position)).Nodup)
    (hhas : tree.HasGroup home place declared body) (hgroup : declared.IsGroup name position)
    (hbody : body.name = name) (hname : ⟨.word name, position⟩ ∈ tokens)
    (hfield : field ∈ file.allFields)
    (hfull : field.fullName = place.member (name.map Char.toLower)) :
    field.position = position ∧ field.type = .single (.message (place.member name) path) := by
  obtain ⟨around, written, hmem, hwritten, hsame, hposition, htype⟩ :=
    h.exists_declared hread hfield
  obtain ⟨rfl, hlower⟩ := DottedName.member_inj.mp (hfull.symm.trans hsame)
  have hdeclared := field_mem_of_hasGroup hhas
  rw [hgroup.name_eq, hgroup.position_eq] at hdeclared
  rw [← hlower] at hmem
  have hplace : written.position = position := position_eq_of_declared hclashes hmem hdeclared
  -- At the place of the group's name stands no other name.
  have hword {other : String} (hother : ⟨.word other, written.position⟩ ∈ tokens) :
      other = name := by
    have htoken := List.inj_on_of_nodup_map hapart hother hname hplace
    simpa using congrArg Token.lexeme htoken
  refine ⟨hposition.trans hplace, ?_⟩
  cases hwritten with
  | plain hplain => exact absurd (hlower.trans (hword hplain)) (map_toLower_ne hgroup.capital)
  | group hother hnamed =>
    rw [hother.type_eq, hword hnamed] at htype
    refine type_eq_of_denotes hclashes hgroup.capital ?_ htype
    rw [← hbody]
    exact declares_of_hasGroup hhas

/-- In a message the field of a group is kept. -/
theorem exists_field_of_hasGroup (hclashes : (Scope.ofFile path tree imports).2 = [])
    (h : file.Mirrors (Scope.ofFile path tree imports).1
      (Scope.ofFile path tree imports).1.resolves path tree imports)
    (hhas : tree.HasGroup home place declared body) (hgroup : declared.IsGroup name position)
    (hbody : body.name = name) (hhome : home ≠ .extendBlock) :
    ∃ host field, file.HasMessage host ∧ host.fullName = place ∧ field ∈ host.fields ∧
      field.fullName = place.member (name.map Char.toLower) := by
  -- Only a field whose type is not found is left out, and this one is found in its own scope.
  have hresolve := resolve?_of_declares hclashes (hbody ▸ declares_of_hasGroup hhas)
  have hkept : keepsField (Scope.ofFile path tree imports).1.resolves place declared = true := by
    rw [keepsField, hgroup.type_eq]
    exact Bool.or_eq_true_iff.mpr (.inr (Option.isSome_iff_exists.mpr ⟨_, hresolve⟩))
  cases hhas with
  | message _ hregion hmessage hfield _ =>
    obtain ⟨host, hhost, hmirrors⟩ := h.exists_message hregion hmessage
    cases hmirrors with
    | intro _ hname hfields _ _ _ _ _ _ =>
      rw [hname] at hfields
      obtain ⟨field, hmem, hmirrors⟩ :=
        exists_of_forall₂ hfields.flip (List.mem_filter.mpr ⟨hfield, hkept⟩)
      refine ⟨host, field, hhost, hname, hmem, ?_⟩
      rw [hmirrors.fullName, hgroup.name_eq]
  | extendBlock => exact absurd rfl hhome

/-- The body of each group that is written in a message, a oneof, an extend block or another
group is the message of the linked file with the name of the group in that scope. The field of
the group, where the file has it, has this message as its type, and only in extend blocks it can
be missing. -/
theorem groups_bind_their_bodies {text : String} (hread : Schema.File.read text = .ok tree)
    {outcome : Outcome} (hlink : link warnUnused path tree imports = .ok outcome) :
    ∃ tokens stop, Token.read text = .ok (tokens, stop) ∧
      ∀ home place around piece name position inner,
        Inside tokens tree.scope home place around → home ≠ .file → HasStatement around piece →
        GroupTokens name position inner piece →
        (∃ body, outcome.file.HasMessage body ∧ body.fullName = place.member name ∧
          body.position = position ∧ ∀ other, outcome.file.HasMessage other →
            other.fullName = place.member name → other = body) ∧
        (home ≠ .extendBlock → ∃ host field, outcome.file.HasMessage host ∧
          host.fullName = place ∧ field ∈ host.fields ∧
          field.fullName = place.member (name.map Char.toLower)) ∧
        ∀ field ∈ outcome.file.allFields,
          field.fullName = place.member (name.map Char.toLower) →
          field.position = position ∧
            field.type = .single (.message (place.member name) outcome.file.path) := by
  obtain ⟨tokens, stop, htokens, hsteps⟩ := Schema.File.steps_of_read hread
  have hfile := Schema.File.readFrom_of_steps hsteps
  have hapart : (tokens.map (·.position)).Nodup := (Token.wellRead htokens).nodup
  have hclashes := clashes_eq_nil_of_link hlink
  have hmirrors := mirrors_of_link hlink
  refine ⟨tokens, stop, htokens, fun home place around piece name position inner hinside hhome
    hstatement hpiece => ?_⟩
  obtain ⟨declared, body, depth, hhas, hgroup, hbody⟩ :=
    (Schema.File.holds_of_inside hsteps hinside).group_inside hhome hstatement hpiece
  obtain ⟨hname, hposition⟩ : body.name = name ∧ body.position = position := hbody.named
  have hword : ⟨.word name, position⟩ ∈ tokens := by
    obtain ⟨region, hregion, _, hmem⟩ := hhas.exists_region
    obtain ⟨hword, _, _⟩ := (hregion.readFrom hfile).messages body hmem
    rwa [hname, hposition] at hword
  refine ⟨?_, exists_field_of_hasGroup hclashes hmirrors hhas hgroup hname,
    fun field hfield hfull => ?_⟩
  · obtain ⟨region, hregion, rfl, hmem⟩ := hhas.exists_region
    obtain ⟨message, hmessage, hmirrored⟩ := hmirrors.exists_message hregion hmem
    cases hmirrored with
    | intro _ hfull _ _ _ _ _ _ hplace =>
      rw [hname] at hfull
      refine ⟨message, hmessage, hfull, hplace.trans hposition, fun other hother hsame => ?_⟩
      exact List.inj_on_of_nodup_map (symbolsAgree_of_link hlink).messages.nodup
        (File.mem_allMessages_iff.mpr hother) (File.mem_allMessages_iff.mpr hmessage)
        (hsame.trans hfull.symm)
  · rw [hmirrors.path]
    exact type_eq_of_hasGroup hclashes hmirrors hfile hapart hhas hgroup hname hword hfield hfull

/-- A group in a oneof has its body as its type. The body of a group in an extend block is there
although the message that is extended is not known; its field is not. -/
theorem groups_bind_their_bodies_lenient : ∃ (text : String) (tree : Schema.File)
    (path : VirtualPath) (missing : Import) (outcome : Outcome),
    Schema.File.read text = .ok tree ∧ link false path tree [missing] = .ok outcome ∧
    outcome.file.messages.map (·.fullName) = [["A"], ["D"]] ∧
    outcome.file.allExtensions.length = 0 ∧
    (∃ body, outcome.file.HasMessage body ∧ body.fullName = ["A", "B"] ∧
      body.position = ⟨1, 29⟩) ∧
    (∃ host field, outcome.file.HasMessage host ∧ host.fullName = ["A"] ∧ field ∈ host.fields ∧
      field.fullName = ["A", "b"] ∧ field.position = ⟨1, 29⟩ ∧
      field.type = .single (.message ["A", "B"] outcome.file.path)) ∧
    ∃ body, outcome.file.HasMessage body ∧ body.fullName = ["D"] ∧ body.position = ⟨1, 68⟩ := by
  let text := "message A { oneof x { group B = 1 {} } } extend C { optional group D = 2 {} }"
  let path : VirtualPath := ⟨⟨false, ["a.proto"], by decide⟩, by decide⟩
  let other : VirtualPath := ⟨⟨false, ["b.proto"], by decide⟩, by decide⟩
  let missing : Import := ⟨other, .plain, ⟨1, 1⟩, none⟩
  let tree := (Schema.File.read text).toOption.getD .empty
  let word (text : String) (column : Nat) : Token := ⟨.word text, ⟨1, column⟩⟩
  let mark (c : Char) (column : Nat) : Token := ⟨.mark c, ⟨1, column⟩⟩
  let number (text : String) (column : Nat) : Token := ⟨.integer text, ⟨1, column⟩⟩
  let member : List Token := [word "group" 23, word "B" 29, mark '=' 31, number "1" 33,
    mark '\x7b' 35, mark '\x7d' 36]
  let oneof : List Token :=
    word "oneof" 13 :: word "x" 19 :: mark '\x7b' 21 :: (member ++ [mark '\x7d' 38])
  let message : List Token :=
    word "message" 1 :: word "A" 9 :: mark '\x7b' 11 :: (oneof ++ [mark '\x7d' 40])
  let extension : List Token := [word "optional" 53, word "group" 62, word "D" 68, mark '=' 70,
    number "2" 72, mark '\x7b' 74, mark '\x7d' 75]
  let block : List Token :=
    word "extend" 42 :: word "C" 49 :: mark '\x7b' 51 :: (extension ++ [mark '\x7d' 77])
  have hall : (Token.read text).toOption.map (·.1) = some (message ++ block) ∧
      (Schema.File.read text).isOk = true ∧ tree.scope = [] ∧
      (¬∃ problem ∈ linkProblems false path tree [missing], problem.IsError) ∧
      (linkedFile path tree [missing]).messages.map (·.fullName) = [["A"], ["D"]] ∧
      (linkedFile path tree [missing]).allExtensions.length = 0 := by
    decide +kernel
  obtain ⟨hcut, hok, hscope, hclean, hmessages, hnone⟩ := hall
  have hread : Schema.File.read text = .ok tree := File.read_eq_ok hok
  have hlink : link false path tree [missing] =
      .ok ⟨linkedFile path tree [missing], linkProblems false path tree [missing]⟩ :=
    (link_eq _ _ _ _).trans (if_neg hclean)
  obtain ⟨tokens, stop, htokens, hgroups⟩ := groups_bind_their_bodies hread hlink
  obtain rfl : tokens = message ++ block := by
    rw [htokens] at hcut
    exact Option.some.inj hcut
  rw [hscope] at hgroups
  have hnumber (text : String) (column : Nat) : (number text column).lexeme.IsInert := by
    simp [number, Lexeme.IsInert, Lexeme.IsPlain]
  have hbraces (start stop : Position) :
      Braces [] [⟨.mark '\x7b', start⟩, ⟨.mark '\x7d', stop⟩] := .intro _ _ rfl
  have hmember : GroupTokens "B" ⟨1, 29⟩ [] member :=
    @GroupTokens.intro _ _ _ [] [number "1" 33] _ ⟨1, 23⟩ ⟨1, 31⟩ .none (hbraces ⟨1, 35⟩ ⟨1, 36⟩)
  have hextension : GroupTokens "D" ⟨1, 68⟩ [] extension :=
    @GroupTokens.intro _ _ _ _ [number "2" 72] _ ⟨1, 62⟩ ⟨1, 70⟩ (.some .optional ⟨1, 53⟩)
      (hbraces ⟨1, 74⟩ ⟨1, 75⟩)
  have hpiece : Piece false false [word "group" 23, word "B" 29, mark '=' 31, number "1" 33] :=
    .inert (Lexeme.isInert_word _) (.inert (Lexeme.isInert_word _)
      (.equals (.inert (hnumber "1" 33) .nil)))
  have hpiece' : Piece false false
      [word "optional" 53, word "group" 62, word "D" 68, mark '=' 70, number "2" 72] :=
    .inert (Lexeme.isInert_word _) (.inert (Lexeme.isInert_word _)
      (.inert (Lexeme.isInert_word _) (.equals (.inert (hnumber "2" 72) .nil))))
  have hblocks : NamedBlock "message" "A" ⟨1, 9⟩ oneof message ∧
      NamedBlock "oneof" "x" ⟨1, 19⟩ member oneof ∧ ExtendTokens extension block :=
    ⟨.intro _ (.intro _ _ (by decide)), .intro _ (.intro _ _ (by decide)),
      .intro _ (.singleton (Lexeme.isInert_word "C")) (.intro _ _ (by decide))⟩
  obtain ⟨hmessage, honeof, hblock⟩ := hblocks
  have hinside : Inside (message ++ block) [] .oneof ["A"] member :=
    .oneof (.message .file (.inl rfl) (.first hmessage.statement) hmessage)
      honeof.statement.hasStatement honeof
  have hinside' : Inside (message ++ block) [] .extendBlock [] extension :=
    .extendBlock .file (.inl rfl) (.later hmessage.statement hblock.statement.hasStatement) hblock
  obtain ⟨⟨body, hbody, hname, hplace, _⟩, hhost, hfield⟩ := hgroups _ _ _ _ _ _ _ hinside
    (by decide) (hpiece _ (.block (hbraces _ _))).hasStatement hmember
  obtain ⟨⟨other, hother, hname', hplace', _⟩, _, _⟩ := hgroups _ _ _ _ _ _ _ hinside'
    (by decide) (hpiece' _ (.block (hbraces _ _))).hasStatement hextension
  have hlower : "B".map Char.toLower = "b" := by decide +kernel
  obtain ⟨host, field, hhost, hhostName, hmem, hfull⟩ := hhost (by decide)
  obtain ⟨hposition, htype⟩ := hfield field (List.mem_append_left _
    (List.mem_flatMap.mpr ⟨host, File.mem_allMessages_iff.mpr hhost, hmem⟩)) hfull
  exact ⟨text, tree, path, missing, _, hread, hlink, hmessages, hnone,
    ⟨body, hbody, hname, hplace⟩,
    ⟨host, field, hhost, hhostName, hmem, hfull.trans (by rw [hlower]; rfl), hposition, htype⟩,
    ⟨other, hother, hname', hplace'⟩⟩

end Linked

end ProtoSchema
