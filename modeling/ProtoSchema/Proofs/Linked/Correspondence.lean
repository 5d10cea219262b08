import Mathlib.Data.List.Forall2
import ProtoSchema.Proofs.Linked.Problems

/-!
What linking keeps of a file. Messages, oneofs, enums and services come out one by one
in the order of the text, the group bodies of extend blocks behind the messages beside
them. Of the fields, methods and extensions those come out whose references resolve. A
reference that does not resolve is an error as long as all imports are intact, and then
nothing is left out.
-/

namespace ProtoSchema.Linked

namespace Scope

variable (scope : Scope) (place : DottedName)

def DenotesMessage (name : TypeName) (fullName : DottedName) : Prop :=
  ∃ file, scope.resolve? name place true = some ⟨fullName, .message, file⟩

inductive Denotes (name : TypeName) : ValueType → Prop
  | scalar {type : Scalar} (h : Scalar.ofName? name = some type) : Denotes name (.scalar type)
  | message {fullName : DottedName} {file : VirtualPath} (hscalar : Scalar.ofName? name = none)
      (h : scope.resolve? name place true = some ⟨fullName, .message, file⟩) :
      Denotes name (.message fullName file)
  | enum {fullName : DottedName} {file : VirtualPath} (hscalar : Scalar.ofName? name = none)
      (h : scope.resolve? name place true = some ⟨fullName, .enum, file⟩) :
      Denotes name (.enum fullName file)

inductive DenotesType : Schema.FieldType → FieldType → Prop
  | single {name : TypeName} {type : ValueType} (h : scope.Denotes place name type) :
      DenotesType (.single name) (.single type)
  | map {key value : TypeName} {scalar : Scalar} {type : ValueType}
      (hkey : mapKey? key = some scalar) (h : scope.Denotes place value type) :
      DenotesType (.map key value) (.map scalar type)

def resolves (name : TypeName) : Bool := (scope.resolve? name place true).isSome

end Scope

section Kept

/- Which names are taken to mean something, place by place. -/
variable (known : DottedName → TypeName → Bool) (place : DottedName)

def keepsType (name : TypeName) : Bool := (Scalar.ofName? name).isSome || known place name

def keepsField (field : Schema.Field) : Bool :=
  match field.type with
  | .single name => keepsType known place name
  | .map _ value => keepsType known place value

def keepsMethod (method : Schema.Method) : Bool :=
  known place method.input && known place method.output

def keepsExtension (declared : TypeName × Schema.Field) : Bool :=
  known place declared.1 && keepsField known place declared.2

end Kept

def declaredExtensions (blocks : List Schema.Extend) : List (TypeName × Schema.Field) :=
  blocks.flatMap fun block => block.fields.map (Prod.mk block.extendee)

def declaredMessages (messages : List Schema.Message) (blocks : List Schema.Extend) :
    List Schema.Message :=
  messages ++ blocks.flatMap (·.groups)

section Mirrors

variable (scope : Scope) (known : DottedName → TypeName → Bool) (place : DottedName)

structure Field.Mirrors (extendee : Option DottedName) (declared : Schema.Field)
    (field : Field) : Prop where
  name : field.name = declared.name
  fullName : field.fullName = place.member declared.name
  number : field.number = declared.number
  label : field.label = declared.label
  type : scope.DenotesType place declared.type field.type
  oneof : field.oneof = declared.oneof
  extendee : field.extendee = extendee
  options : field.options = declared.options
  position : field.position = declared.position

def Field.Extends (declared : TypeName × Schema.Field) (field : Field) : Prop :=
  ∃ message, scope.DenotesMessage place declared.1 message ∧
    field.Mirrors scope place (some message) declared.2

structure Enum.Mirrors (declared : Schema.Enum) (enum : Enum) : Prop where
  name : enum.name = declared.name
  fullName : enum.fullName = place.member declared.name
  values : enum.values = declared.values.map fun value => ⟨value.name, value.number⟩
  options : enum.options = declared.options
  position : enum.position = declared.position

structure Method.Mirrors (declared : Schema.Method) (method : Method) : Prop where
  name : method.name = declared.name
  input : scope.DenotesMessage place declared.input method.input
  output : scope.DenotesMessage place declared.output method.output
  clientStreams : method.clientStreams = declared.clientStreams
  serverStreams : method.serverStreams = declared.serverStreams
  options : method.options = declared.options

structure Service.Mirrors (declared : Schema.Service) (service : Service) : Prop where
  name : service.name = declared.name
  fullName : service.fullName = place.member declared.name
  methods : List.Forall₂ (Method.Mirrors scope service.fullName)
    (declared.methods.filter (keepsMethod known service.fullName)) service.methods
  options : service.options = declared.options
  position : service.position = declared.position

mutual

inductive Message.Mirrors : DottedName → Schema.Message → Message → Prop
  | intro {place : DottedName} {declared : Schema.Message} {message : Message}
      (name : message.name = declared.name)
      (fullName : message.fullName = place.member declared.name)
      (fields : List.Forall₂ (Field.Mirrors scope message.fullName none)
        (declared.fields.filter (keepsField known message.fullName)) message.fields)
      (oneofs : message.oneofs = declared.oneofs.map (·.name))
      (messages : Message.MirrorAll message.fullName
        (declaredMessages declared.messages declared.extendBlocks) message.messages)
      (enums : List.Forall₂ (Enum.Mirrors message.fullName) declared.enums message.enums)
      (extensions : List.Forall₂ (Field.Extends scope message.fullName)
        ((declaredExtensions declared.extendBlocks).filter
          (keepsExtension known message.fullName)) message.extensions)
      (options : message.options = declared.options)
      (position : message.position = declared.position) :
      Message.Mirrors place declared message

inductive Message.MirrorAll : DottedName → List Schema.Message → List Message → Prop
  | nil {place : DottedName} : Message.MirrorAll place [] []
  | cons {place : DottedName} {declared : Schema.Message} {message : Message}
      {rest : List Schema.Message} {more : List Message}
      (first : Message.Mirrors place declared message)
      (others : Message.MirrorAll place rest more) :
      Message.MirrorAll place (declared :: rest) (message :: more)

end

structure File.Mirrors (path : VirtualPath) (declared : Schema.File) (imports : List Import)
    (file : File) : Prop where
  path : file.path = path
  dialect : file.dialect = declared.dialect
  package : file.package = declared.package
  options : file.options = declared.options
  messages : Message.MirrorAll scope known declared.scope
    (declaredMessages declared.messages declared.extendBlocks) file.messages
  enums : List.Forall₂ (Enum.Mirrors declared.scope) declared.enums file.enums
  services : List.Forall₂ (Service.Mirrors scope known declared.scope) declared.services
    file.services
  extensions : List.Forall₂ (Field.Extends scope declared.scope)
    ((declaredExtensions declared.extendBlocks).filter (keepsExtension known declared.scope))
    file.extensions
  imports : file.imports = imports

end Mirrors

namespace Message.MirrorAll

variable {scope : Scope} {known : DottedName → TypeName → Bool} {place : DottedName}

theorem append {declared others : List Schema.Message} {messages more : List Message}
    (h : MirrorAll scope known place declared messages)
    (hmore : MirrorAll scope known place others more) :
    MirrorAll scope known place (declared ++ others) (messages ++ more) := by
  match h with
  | .nil => exact hmore
  | .cons first rest => exact .cons first (append rest hmore)

end Message.MirrorAll

def Yields {β : Type} (kept : Bool) (R : β → Prop) : Option β → Prop
  | some b => kept = true ∧ R b
  | none => kept = false

theorem Yields.map {β γ : Type} {kept : Bool} {R : β → Prop} {S : γ → Prop} {f : β → γ}
    {value : Option β} (h : Yields kept R value) (hf : ∀ b, R b → S (f b)) :
    Yields kept S (value.map f) := by
  cases value with
  | none => exact h
  | some b => exact ⟨h.1, hf b h.2⟩

namespace Noted

variable {α β : Type}

def Clean (noted : Noted α) : Prop := noted.Only fun problem => ¬problem.IsError

theorem Clean.of_bind {noted : Noted α} {f : α → Noted β} (h : (noted >>= f).Clean) :
    noted.Clean ∧ (f noted.value).Clean := by
  refine ⟨?_, ?_⟩
  · intro problem hmem
    exact h problem (List.mem_append_left _ hmem)
  · intro problem hmem
    exact h problem (List.mem_append_right _ hmem)

theorem not_clean_problem {position : Position} {fault : BindFault}
    (h : fault.severity = .error) : ¬(problem position fault).Clean :=
  fun hclean => hclean ⟨position, fault⟩ (List.mem_singleton.mpr rfl) h

theorem Clean.collect {f : α → Noted (Option β)} {kept : α → Bool} {R : α → β → Prop}
    (hf : ∀ a, (f a).Clean → Yields (kept a) (R a) (f a).value) {items : List α}
    (h : (collect f items).Clean) :
    List.Forall₂ R (items.filter kept) (collect f items).value := by
  induction items with
  | nil => exact .nil
  | cons a rest ih =>
    obtain ⟨hfirst, hothers⟩ := Clean.of_bind h
    have hrest := ih (Clean.of_bind hothers).1
    have hyields := hf a hfirst
    change List.Forall₂ R _ ((f a).value.toList ++ (Noted.collect f rest).value)
    cases hvalue : (f a).value with
    | none =>
      rw [hvalue] at hyields
      rw [List.filter_cons_of_neg (Bool.eq_false_iff.mp hyields)]
      exact hrest
    | some b =>
      rw [hvalue] at hyields
      rw [List.filter_cons_of_pos hyields.1]
      exact .cons hyields.2 hrest

theorem Clean.mapM {f : α → Noted β} {R : α → β → Prop}
    (hf : ∀ a, (f a).Clean → R a (f a).value) {items : List α} (h : (items.mapM f).Clean) :
    List.Forall₂ R items (items.mapM f).value := by
  induction items with
  | nil => exact .nil
  | cons a rest ih =>
    rw [List.mapM_cons] at h ⊢
    obtain ⟨hfirst, hothers⟩ := Clean.of_bind h
    exact .cons (hf a hfirst) (ih (Clean.of_bind hothers).1)

end Noted

namespace Scope

open Noted (Clean)

variable {scope : Scope} {known : DottedName → TypeName → Bool} {place : DottedName}

/-- The known names are those that resolve. Of a name that does not, nothing is asked in a
strict scope, where it is an error. -/
def Settles (scope : Scope) (known : DottedName → TypeName → Bool) : Prop :=
  ∀ place name, scope.resolves place name = true ∨ scope.lenient = true →
    known place name = scope.resolves place name

theorem settles_resolves : scope.Settles scope.resolves := fun _ _ _ => rfl

theorem settles_all (h : scope.lenient = false) : scope.Settles fun _ _ => true := by
  rintro place name (hresolves | hlenient)
  · exact hresolves.symm
  · rw [h] at hlenient
    cases hlenient

theorem refer_value (name : TypeName) (position : Position) :
    (scope.refer name place position).value = scope.resolve? name place true := by
  unfold refer
  split
  · next hfound => exact hfound.symm
  · next hnone =>
    rw [hnone]
    split
    · rfl
    · rfl

theorem known_eq_of_clean (hsettles : scope.Settles known) {name : TypeName} {position : Position}
    (h : (scope.refer name place position).Clean) :
    known place name = (scope.resolve? name place true).isSome := by
  refine hsettles place name ?_
  unfold refer at h
  split at h
  · next found hfound => exact .inl (Option.isSome_iff_exists.mpr ⟨found, hfound⟩)
  · refine .inr ?_
    by_contra hstrict
    rw [if_neg hstrict] at h
    exact Noted.not_clean_problem rfl (Clean.of_bind h).1

theorem bindMessageName_yields (hsettles : scope.Settles known) {name : TypeName}
    {position : Position} (h : (scope.bindMessageName name place position).Clean) :
    Yields (known place name) (scope.DenotesMessage place name)
      (scope.bindMessageName name place position).value := by
  unfold bindMessageName at h ⊢
  obtain ⟨hrefer, hrest⟩ := Clean.of_bind h
  rw [known_eq_of_clean hsettles hrefer, Noted.value_bind]
  rw [refer_value] at hrest ⊢
  revert hrest
  split
  · next hnone =>
    intro _
    rw [hnone]
    rfl
  · next fullName file hfound =>
    intro _
    rw [hfound]
    exact ⟨rfl, file, hfound⟩
  · -- The name of something else is an error in a lenient scope too.
    intro hrest
    exact absurd (Clean.of_bind hrest).1 (Noted.not_clean_problem rfl)

theorem bindType_yields (hsettles : scope.Settles known) {name : TypeName} {position : Position}
    (h : (scope.bindType name place position).Clean) :
    Yields (keepsType known place name) (scope.Denotes place name)
      (scope.bindType name place position).value := by
  unfold bindType keepsType at *
  cases hscalar : Scalar.ofName? name with
  | some scalar => exact ⟨rfl, .scalar hscalar⟩
  | none =>
    rw [hscalar] at h
    obtain ⟨hrefer, hrest⟩ := Clean.of_bind h
    rw [known_eq_of_clean hsettles hrefer, Noted.value_bind]
    rw [refer_value] at hrest ⊢
    revert hrest
    split
    · next hnone =>
      intro _
      rw [hnone]
      rfl
    · next fullName file hfound =>
      intro _
      rw [hfound]
      exact ⟨rfl, .message hscalar hfound⟩
    · next fullName file hfound =>
      intro _
      rw [hfound]
      exact ⟨rfl, .enum hscalar hfound⟩
    · intro hrest
      exact absurd (Clean.of_bind hrest).1 (Noted.not_clean_problem rfl)

theorem bindFieldType_yields (hsettles : scope.Settles known) {field : Schema.Field}
    (h : (scope.bindFieldType place field).Clean) :
    Yields (keepsField known place field) (scope.DenotesType place field.type)
      (scope.bindFieldType place field).value := by
  unfold bindFieldType keepsField at *
  cases htype : field.type with
  | single name =>
    rw [htype] at h
    exact (bindType_yields hsettles (Clean.of_bind h).1).map fun _ hdenotes => .single hdenotes
  | map key value =>
    rw [htype] at h
    cases hkey : mapKey? key with
    | none =>
      simp only [hkey] at h
      exact absurd (Clean.of_bind h).1 (Noted.not_clean_problem rfl)
    | some scalar =>
      simp only [hkey] at h ⊢
      exact (bindType_yields hsettles (Clean.of_bind h).1).map fun _ hdenotes =>
        .map hkey hdenotes

theorem bindField_yields (hsettles : scope.Settles known) (extendee : Option DottedName)
    (field : Schema.Field) (h : (scope.bindField place extendee field).Clean) :
    Yields (keepsField known place field) (Field.Mirrors scope place extendee field)
      (scope.bindField place extendee field).value := by
  obtain ⟨htype, _⟩ := Clean.of_bind (Clean.of_bind h).2
  have hyields := bindFieldType_yields hsettles htype
  unfold bindField
  rw [Noted.value_bind, Noted.value_bind]
  cases hvalue : (scope.bindFieldType place field).value with
  | none =>
    rw [hvalue] at hyields
    exact hyields
  | some type =>
    rw [hvalue] at hyields
    exact ⟨hyields.1, rfl, rfl, rfl, rfl, hyields.2, rfl, rfl, rfl, rfl⟩

theorem bindEnum_mirrors (place : DottedName) (enum : Schema.Enum) :
    (scope.bindEnum place enum).value.Mirrors place enum :=
  ⟨rfl, rfl, rfl, rfl, rfl⟩

theorem bindMethod_yields (hsettles : scope.Settles known) (method : Schema.Method)
    (h : (scope.bindMethod place method).Clean) :
    Yields (keepsMethod known place method) (Method.Mirrors scope place method)
      (scope.bindMethod place method).value := by
  obtain ⟨hinput, hrest⟩ := Clean.of_bind (Clean.of_bind h).2
  obtain ⟨houtput, _⟩ := Clean.of_bind hrest
  have hin := bindMessageName_yields hsettles hinput
  have hout := bindMessageName_yields hsettles houtput
  unfold bindMethod keepsMethod
  rw [Noted.value_bind, Noted.value_bind, Noted.value_bind]
  cases hi : (scope.bindMessageName method.input place method.inputPosition).value with
  | none =>
    rw [hi] at hin
    exact Bool.and_eq_false_iff.mpr (.inl hin)
  | some input =>
    rw [hi] at hin
    cases ho : (scope.bindMessageName method.output place method.outputPosition).value with
    | none =>
      rw [ho] at hout
      exact Bool.and_eq_false_iff.mpr (.inr hout)
    | some output =>
      rw [ho] at hout
      exact ⟨Bool.and_eq_true_iff.mpr ⟨hin.1, hout.1⟩, rfl, hin.2, hout.2, rfl, rfl, rfl⟩

theorem bindService_mirrors (hsettles : scope.Settles known) (service : Schema.Service)
    (h : (scope.bindService place service).Clean) :
    (scope.bindService place service).value.Mirrors scope known place service := by
  obtain ⟨hmethods, _⟩ := Clean.of_bind (Clean.of_bind h).2
  exact ⟨rfl, rfl, hmethods.collect fun method => bindMethod_yields hsettles method, rfl, rfl⟩

theorem bindExtensions_extend (hsettles : scope.Settles known) {extendee : TypeName}
    {position : Position} {fields : List Schema.Field}
    (h : (scope.bindExtensions place extendee position fields).Clean) :
    List.Forall₂ (Field.Extends scope place)
      ((fields.map (Prod.mk extendee)).filter (keepsExtension known place))
      (scope.bindExtensions place extendee position fields).value := by
  obtain ⟨hname, hfields⟩ := Clean.of_bind h
  have hyields := bindMessageName_yields hsettles hname
  unfold bindExtensions
  rw [Noted.value_bind, List.filter_map, List.forall₂_map_left_iff]
  cases hvalue : (scope.bindMessageName extendee place position).value with
  | none =>
    rw [hvalue] at hyields
    have hdropped : ∀ field ∈ fields, ¬(keepsExtension known place ∘ Prod.mk extendee) field := by
      intro field _
      exact Bool.eq_false_iff.mp (Bool.and_eq_false_iff.mpr (.inl hyields))
    rw [List.filter_eq_nil_iff.mpr hdropped]
    exact .nil
  | some message =>
    rw [hvalue] at hyields hfields
    have hkept : keepsExtension known place ∘ Prod.mk extendee = keepsField known place := by
      funext field
      simp [keepsExtension, hyields.1]
    rw [hkept]
    exact (Clean.collect (fun field => bindField_yields hsettles (some message) field)
      hfields).imp fun _ _ hfield => ⟨message, hyields.2, hfield⟩

-- The recursion is that of the binding: a message, the messages of a scope, its extend blocks.
mutual

theorem bindMessage_mirrors (hsettles : scope.Settles known) (place : DottedName)
    (message : Schema.Message) (h : (scope.bindMessage place message).Clean) :
    (scope.bindMessage place message).value.Mirrors scope known place message := by
  match message with
  | ⟨name, fields, oneofs, messages, enums, extendBlocks, options, position⟩ =>
    unfold bindMessage at h ⊢
    obtain ⟨hfields, hrest⟩ := Clean.of_bind (Clean.of_bind h).2
    obtain ⟨hmessages, hrest⟩ := Clean.of_bind hrest
    obtain ⟨henums, hrest⟩ := Clean.of_bind hrest
    obtain ⟨hextends, _⟩ := Clean.of_bind hrest
    have hnested := bindMessages_mirror hsettles _ messages hmessages
    obtain ⟨hgroups, hextensions⟩ := bindExtends_mirror hsettles _ extendBlocks hextends
    exact .intro rfl rfl (hfields.collect fun field => bindField_yields hsettles none field) rfl
      (hnested.append hgroups) (henums.mapM fun enum _ => bindEnum_mirrors _ enum)
      hextensions rfl rfl

theorem bindMessages_mirror (hsettles : scope.Settles known) (place : DottedName)
    (messages : List Schema.Message) (h : (scope.bindMessages place messages).Clean) :
    Message.MirrorAll scope known place messages (scope.bindMessages place messages).value := by
  match messages with
  | [] =>
    unfold bindMessages
    exact .nil
  | message :: rest =>
    unfold bindMessages at h ⊢
    obtain ⟨hfirst, hothers⟩ := Clean.of_bind h
    exact .cons (bindMessage_mirrors hsettles place message hfirst)
      (bindMessages_mirror hsettles place rest (Clean.of_bind hothers).1)

theorem bindExtends_mirror (hsettles : scope.Settles known) (place : DottedName)
    (blocks : List Schema.Extend) (h : (scope.bindExtends place blocks).Clean) :
    Message.MirrorAll scope known place (blocks.flatMap (·.groups))
        (scope.bindExtends place blocks).value.1 ∧
      List.Forall₂ (Field.Extends scope place)
        ((declaredExtensions blocks).filter (keepsExtension known place))
        (scope.bindExtends place blocks).value.2 := by
  match blocks with
  | [] =>
    unfold bindExtends
    exact ⟨.nil, .nil⟩
  | ⟨extendee, fields, groups, position⟩ :: rest =>
    unfold bindExtends at h ⊢
    obtain ⟨hgroups, hrest⟩ := Clean.of_bind h
    obtain ⟨hfields, hrest⟩ := Clean.of_bind hrest
    have hmore := bindExtends_mirror hsettles place rest (Clean.of_bind hrest).1
    refine ⟨(bindMessages_mirror hsettles place groups hgroups).append hmore.1, ?_⟩
    unfold declaredExtensions
    rw [List.flatMap_cons, List.filter_append]
    exact List.rel_append (bindExtensions_extend hsettles hfields) hmore.2

end

end Scope

variable {warnUnused : Bool} {path : VirtualPath} {file : Schema.File} {imports : List Import}
  {known : DottedName → TypeName → Bool}

theorem linkedFile_mirrors (hsettles : (Scope.ofFile path file imports).1.Settles known)
    (h : ((Scope.ofFile path file imports).1.bindFile file).Clean) :
    (linkedFile path file imports).Mirrors (Scope.ofFile path file imports).1 known path file
      imports := by
  obtain ⟨hmessages, hrest⟩ := Noted.Clean.of_bind (Noted.Clean.of_bind h).2
  obtain ⟨henums, hrest⟩ := Noted.Clean.of_bind hrest
  obtain ⟨hservices, hrest⟩ := Noted.Clean.of_bind hrest
  obtain ⟨hextends, _⟩ := Noted.Clean.of_bind hrest
  have hnested := Scope.bindMessages_mirror hsettles _ file.messages hmessages
  obtain ⟨hgroups, hextensions⟩ :=
    Scope.bindExtends_mirror hsettles _ file.extendBlocks hextends
  exact ⟨rfl, rfl, rfl, rfl, hnested.append hgroups,
    henums.mapM fun enum _ => Scope.bindEnum_mirrors _ enum,
    hservices.mapM fun service => Scope.bindService_mirrors hsettles service,
    hextensions, rfl⟩

theorem bindFile_clean {outcome : Outcome} (h : link warnUnused path file imports = .ok outcome) :
    ((Scope.ofFile path file imports).1.bindFile file).Clean := by
  intro problem hmem
  refine (link_eq_ok h).2 problem ?_
  exact List.mem_append_left _ (List.mem_append_right _
    (List.mem_filterMap.mpr ⟨.problem problem, hmem, rfl⟩))

/-- A file that is linked has all that was declared, save the fields, methods and
extensions with a reference that does not resolve; with all imports intact it has them
as well. -/
theorem linked_file_mirrors_tree {outcome : Outcome}
    (h : link warnUnused path file imports = .ok outcome) :
    (let scope := (Scope.ofFile path file imports).1
     outcome.file.Mirrors scope scope.resolves path file imports) ∧
    ((∀ edge ∈ imports, edge.IsIntact) →
      outcome.file.Mirrors (Scope.ofFile path file imports).1 (fun _ _ => true) path file
        imports) := by
  have hclean := bindFile_clean h
  rw [(link_eq_ok h).1]
  refine ⟨linkedFile_mirrors Scope.settles_resolves hclean, ?_⟩
  intro hintact
  have hstrict : (Scope.ofFile path file imports).1.lenient = false := by
    simpa [Scope.ofFile] using hintact
  exact linkedFile_mirrors (Scope.settles_all hstrict) hclean

/-- A field of a type from another file is left out when that file is missing, and kept
when it is there. -/
theorem linked_file_mirrors_tree_dropped : ∃ (path : VirtualPath) (tree : Schema.File)
    (missing intact : Import) (short whole : Outcome),
    link false path tree [missing] = .ok short ∧ link false path tree [intact] = .ok whole ∧
    missing.target = none ∧ intact.IsIntact ∧
    short.file.messages.map (·.fields.map (·.name)) = [["n"]] ∧
    whole.file.messages.map (·.fields.map (·.name)) = [["g", "n"]] ∧
    (let scope := (Scope.ofFile path tree [missing]).1
     short.file.Mirrors scope scope.resolves path tree [missing]) ∧
    whole.file.Mirrors (Scope.ofFile path tree [intact]).1 (fun _ _ => true) path tree
      [intact] := by
  let path : VirtualPath := ⟨⟨false, ["a.proto"], by decide⟩, by decide⟩
  let other : VirtualPath := ⟨⟨false, ["b.proto"], by decide⟩, by decide⟩
  let field (name : String) (number : Int) (type : TypeName) : Schema.Field :=
    ⟨name, number, some .optional, .single type, none, [], ⟨2, 3⟩, ⟨2, 12⟩⟩
  let message : Schema.Message :=
    ⟨"A", [field "g" 1 (.simple "Gone"), field "n" 2 (.simple "int32")], [], [], [], [], [], ⟨1, 9⟩⟩
  let tree : Schema.File := { Schema.File.empty with messages := [message] }
  let gone : File := ⟨other, .proto2, none, [], [], [], [], [], [], [(["Gone"], .message)], true⟩
  let missing : Import := ⟨other, .plain, ⟨1, 1⟩, none⟩
  let intact : Import := ⟨other, .plain, ⟨1, 1⟩, some gone⟩
  have hshort : link false path tree [missing] =
      .ok ⟨linkedFile path tree [missing], linkProblems false path tree [missing]⟩ :=
    (link_eq _ _ _ _).trans (if_neg (by decide +kernel))
  have hwhole : link false path tree [intact] =
      .ok ⟨linkedFile path tree [intact], linkProblems false path tree [intact]⟩ :=
    (link_eq _ _ _ _).trans (if_neg (by decide +kernel))
  have hintact : intact.IsIntact := ⟨gone, rfl, rfl⟩
  exact ⟨path, tree, missing, intact, _, _, hshort, hwhole, rfl, hintact, by decide +kernel,
    by decide +kernel, (linked_file_mirrors_tree hshort).1,
    (linked_file_mirrors_tree hwhole).2 (by simpa using hintact)⟩

end ProtoSchema.Linked
