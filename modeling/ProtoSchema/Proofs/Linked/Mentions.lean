import ProtoSchema.Proofs.Linked.Correspondence

/-!
The names that a file mentions, and which of them linking looks up. Types of fields, the
messages of methods and extend blocks, and the extensions that options are named after are
listed in the order of the text, each with the scope it stands in. Linking passes over the
options of oneofs and of enum values, and over the fields of an extend block whose message
is not known; whatever else the file mentions is looked up once. So the references found
while binding are the list itself, read name by name.
-/

namespace ProtoSchema.Linked

open Schema (OptionSetting)

inductive Spot where
  | plain
  | oneofOption
  | enumValueOption
  | extension (place : DottedName) (extendee : TypeName)

/-- A name as a file mentions it, with the scope that it is looked up from. -/
structure Mention where
  name : TypeName
  place : DottedName
  typesOnly : Bool
  spot : Spot

namespace Mention

def ofOptions (spot : Spot) (place : DottedName) (settings : List OptionSetting) : List Mention :=
  settings.filterMap fun setting => setting.extension?.map fun name => ⟨name, place, false, spot⟩

def ofType (spot : Spot) (place : DottedName) (name : TypeName) : List Mention :=
  match Scalar.ofName? name with
  | some _ => []
  | none => [⟨name, place, true, spot⟩]

def ofField (spot : Spot) (place : DottedName) (field : Schema.Field) : List Mention :=
  ofOptions spot place field.options ++
    match field.type with
    | .single name => ofType spot place name
    | .map _ value => ofType spot place value

def ofOneof (place : DottedName) (oneof : Schema.Oneof) : List Mention :=
  ofOptions .oneofOption place oneof.options

def ofEnum (place : DottedName) (enum : Schema.Enum) : List Mention :=
  ofOptions .plain (place.member enum.name) enum.options ++
    enum.values.flatMap fun value =>
      ofOptions .enumValueOption (place.member enum.name) value.options

def ofMessageName (place : DottedName) (name : TypeName) : Mention := ⟨name, place, true, .plain⟩

def ofMethod (place : DottedName) (method : Schema.Method) : List Mention :=
  ofOptions .plain place method.options ++
    [ofMessageName place method.input, ofMessageName place method.output]

def ofService (place : DottedName) (service : Schema.Service) : List Mention :=
  ofOptions .plain (place.member service.name) service.options ++
    service.methods.flatMap (ofMethod (place.member service.name))

def ofExtensions (place : DottedName) (extendee : TypeName) (fields : List Schema.Field) :
    List Mention :=
  ofMessageName place extendee :: fields.flatMap (ofField (.extension place extendee) place)

mutual

def ofMessage (place : DottedName) : Schema.Message → List Mention
  | ⟨name, fields, oneofs, messages, enums, extendBlocks, options, _⟩ =>
    ofOptions .plain (place.member name) options ++
      fields.flatMap (ofField .plain (place.member name)) ++
      oneofs.flatMap (ofOneof (place.member name)) ++ ofMessages (place.member name) messages ++
      enums.flatMap (ofEnum (place.member name)) ++ ofExtends (place.member name) extendBlocks

def ofMessages (place : DottedName) : List Schema.Message → List Mention
  | [] => []
  | message :: rest => ofMessage place message ++ ofMessages place rest

def ofExtends (place : DottedName) : List Schema.Extend → List Mention
  | [] => []
  | ⟨extendee, fields, groups, _⟩ :: rest =>
    ofMessages place groups ++ ofExtensions place extendee fields ++ ofExtends place rest

end

def ofFile (file : Schema.File) : List Mention :=
  ofOptions .plain file.scope file.options ++ ofMessages file.scope file.messages ++
    file.enums.flatMap (ofEnum file.scope) ++ file.services.flatMap (ofService file.scope) ++
    ofExtends file.scope file.extendBlocks

variable {spot : Spot} {place : DottedName} {mention : Mention}

theorem spot_of_mem_ofOptions {settings : List OptionSetting}
    (h : mention ∈ ofOptions spot place settings) : mention.spot = spot := by
  obtain ⟨setting, _, hmention⟩ := List.mem_filterMap.mp h
  obtain ⟨name, _, rfl⟩ := Option.map_eq_some_iff.mp hmention
  rfl

theorem spot_of_mem_ofType {name : TypeName} (h : mention ∈ ofType spot place name) :
    mention.spot = spot := by
  unfold ofType at h
  split at h
  · cases h
  · rw [List.mem_singleton.mp h]

theorem spot_of_mem_ofField {field : Schema.Field} (h : mention ∈ ofField spot place field) :
    mention.spot = spot := by
  rcases List.mem_append.mp h with h | h
  · exact spot_of_mem_ofOptions h
  · split at h
    · exact spot_of_mem_ofType h
    · exact spot_of_mem_ofType h

end Mention

namespace Scope

variable (scope : Scope)

def Visits : Spot → Prop
  | .plain => True
  | .oneofOption | .enumValueOption => False
  | .extension place extendee => scope.resolves place extendee = true

instance : DecidablePred scope.Visits := fun spot =>
  match spot with
  | .plain => isTrue trivial
  | .oneofOption | .enumValueOption => isFalse id
  | .extension place extendee => inferInstanceAs (Decidable (scope.resolves place extendee = true))

def meaning? (mention : Mention) : Option Found :=
  scope.resolve? mention.name mention.place mention.typesOnly

def consulted (mentions : List Mention) : List Found :=
  (mentions.filter fun mention => scope.Visits mention.spot).filterMap scope.meaning?

@[simp] theorem consulted_nil : scope.consulted [] = [] := rfl

@[simp] theorem consulted_append (mentions more : List Mention) :
    scope.consulted (mentions ++ more) = scope.consulted mentions ++ scope.consulted more := by
  simp [consulted]

theorem consulted_cons (mention : Mention) (h : scope.Visits mention.spot)
    (rest : List Mention) :
    scope.consulted (mention :: rest) =
      (scope.meaning? mention).toList ++ scope.consulted rest := by
  have hkept : (decide (scope.Visits mention.spot)) = true := decide_eq_true h
  rw [consulted, List.filter_cons, hkept, if_pos rfl, List.filterMap_cons]
  cases scope.meaning? mention with
  | none => rfl
  | some found => rfl

theorem consulted_eq_nil {mentions : List Mention}
    (h : ∀ mention ∈ mentions, ¬scope.Visits mention.spot) : scope.consulted mentions = [] := by
  have hnone : mentions.filter (fun mention => decide (scope.Visits mention.spot)) = [] :=
    List.filter_eq_nil_iff.mpr fun mention hmem => by simpa using h mention hmem
  rw [consulted, hnone, List.filterMap_nil]

end Scope

namespace Noted

variable {α β : Type}

def references (noted : Noted α) : List Found := noted.findings.filterMap Finding.reference?

@[simp] theorem references_pure (a : α) : (pure a : Noted α).references = [] := rfl

@[simp] theorem references_bind (noted : Noted α) (f : α → Noted β) :
    (noted >>= f).references = noted.references ++ (f noted.value).references := by
  simp [references]

@[simp] theorem references_note (found : Found) :
    (note (.reference found)).references = [found] := rfl

@[simp] theorem references_problem (position : Position) (fault : BindFault) :
    (problem position fault).references = [] := rfl

/-- Binding a list of items looks up what each of them mentions. -/
theorem Clean.references_collect {scope : Scope} {f : α → Noted (Option β)}
    (mentions : α → List Mention)
    (hf : ∀ a, (f a).Clean → (f a).references = scope.consulted (mentions a)) {items : List α}
    (h : (Noted.collect f items).Clean) :
    (Noted.collect f items).references = scope.consulted (items.flatMap mentions) := by
  induction items with
  | nil => rfl
  | cons a rest ih =>
    obtain ⟨hfirst, hothers⟩ := Clean.of_bind h
    obtain ⟨hrest, _⟩ := Clean.of_bind hothers
    rw [Noted.collect, references_bind, references_bind, references_pure, List.append_nil,
      hf a hfirst, ih hrest, List.flatMap_cons, scope.consulted_append]

theorem Clean.references_mapM {scope : Scope} {f : α → Noted β} (mentions : α → List Mention)
    (hf : ∀ a, (f a).Clean → (f a).references = scope.consulted (mentions a)) {items : List α}
    (h : (items.mapM f).Clean) :
    (items.mapM f).references = scope.consulted (items.flatMap mentions) := by
  induction items with
  | nil => rfl
  | cons a rest ih =>
    rw [List.mapM_cons] at h ⊢
    obtain ⟨hfirst, hothers⟩ := Clean.of_bind h
    obtain ⟨hrest, _⟩ := Clean.of_bind hothers
    rw [references_bind, references_bind, references_pure, List.append_nil, hf a hfirst, ih hrest,
      List.flatMap_cons, scope.consulted_append]

end Noted

namespace Scope

open Noted (Clean)

variable {scope : Scope} {place : DottedName} {spot : Spot}

theorem references_refer (scope : Scope) (place : DottedName) (name : TypeName)
    (position : Position) :
    (scope.refer name place position).references = (scope.resolve? name place true).toList := by
  unfold refer
  split
  · next found hfound =>
    rw [hfound]
    rfl
  · next hnone =>
    rw [hnone]
    split
    · rfl
    · rfl

/-- What stands behind a reference only judges it. -/
theorem references_bindMessageName (name : TypeName) (position : Position) :
    (scope.bindMessageName name place position).references =
      (scope.meaning? (Mention.ofMessageName place name)).toList := by
  have hrefer := scope.references_refer place name position
  unfold bindMessageName
  rw [Noted.references_bind, hrefer]
  refine Eq.trans (congrArg (Option.toList _ ++ ·) ?_) (List.append_nil _)
  split
  · rfl
  · rfl
  · rfl

theorem references_bindType (hspot : scope.Visits spot) (name : TypeName) (position : Position) :
    (scope.bindType name place position).references =
      scope.consulted (Mention.ofType spot place name) := by
  have hrefer := scope.references_refer place name position
  unfold bindType Mention.ofType
  cases Scalar.ofName? name with
  | some scalar => rfl
  | none =>
    rw [scope.consulted_cons _ hspot, Noted.references_bind, hrefer]
    refine congrArg (_ ++ ·) ?_
    split
    · rfl
    · rfl
    · rfl
    · rfl

theorem references_noteExtensions (scope : Scope) (spot : Spot) (hspot : scope.Visits spot)
    (place : DottedName) (settings : List OptionSetting) :
    (scope.noteExtensions place settings).references =
      scope.consulted (Mention.ofOptions spot place settings) := by
  induction settings with
  | nil => rfl
  | cons setting rest ih =>
    unfold noteExtensions Mention.ofOptions
    cases hextension : setting.extension? with
    | none =>
      rw [List.filterMap_cons_none (by rw [hextension]; rfl)]
      exact ih
    | some name =>
      have hmeaning : scope.meaning? ⟨name, place, false, spot⟩ =
          scope.resolve? name place false := rfl
      rw [List.filterMap_cons_some (by rw [hextension]; rfl), scope.consulted_cons _ hspot,
        hmeaning, Option.bind_some]
      cases scope.resolve? name place false with
      | some found => exact congrArg (found :: ·) ih
      | none => exact ih

theorem references_bindField (spot : Spot) (hspot : scope.Visits spot)
    (extendee : Option DottedName) (field : Schema.Field)
    (h : (scope.bindField place extendee field).Clean) :
    (scope.bindField place extendee field).references =
      scope.consulted (Mention.ofField spot place field) := by
  obtain ⟨htype, _⟩ := Clean.of_bind (Clean.of_bind h).2
  have hreferences : (scope.bindFieldType place field).references = scope.consulted
      (match field.type with
      | .single name => Mention.ofType spot place name
      | .map _ value => Mention.ofType spot place value) := by
    unfold bindFieldType at htype ⊢
    cases hfield : field.type with
    | single name =>
      rw [Noted.references_bind, references_bindType hspot]
      exact List.append_nil _
    | map key value =>
      rw [hfield] at htype
      cases hkey : mapKey? key with
      | none =>
        simp only [hkey] at htype
        exact absurd (Clean.of_bind htype).1 (Noted.not_clean_problem rfl)
      | some scalar =>
        simp only [hkey]
        rw [Noted.references_bind, references_bindType hspot]
        exact List.append_nil _
  unfold bindField Mention.ofField
  rw [Noted.references_bind, Noted.references_bind, scope.references_noteExtensions spot hspot,
    hreferences, consulted_append]
  refine congrArg (_ ++ ·) ?_
  cases (scope.bindFieldType place field).value with
  | none => exact List.append_nil _
  | some type => exact List.append_nil _

/-- The options of the values are not looked at. -/
theorem references_bindEnum (enum : Schema.Enum) :
    (scope.bindEnum place enum).references = scope.consulted (Mention.ofEnum place enum) := by
  have hvalues : scope.consulted (enum.values.flatMap fun value =>
      Mention.ofOptions .enumValueOption (place.member enum.name) value.options) = [] := by
    refine scope.consulted_eq_nil fun mention hmem => ?_
    obtain ⟨value, _, hmem⟩ := List.mem_flatMap.mp hmem
    rw [Mention.spot_of_mem_ofOptions hmem]
    exact id
  rw [Mention.ofEnum, consulted_append, hvalues, bindEnum, Noted.references_bind,
    scope.references_noteExtensions .plain trivial]
  rfl

theorem consulted_ofOneofs (oneofs : List Schema.Oneof) :
    scope.consulted (oneofs.flatMap (Mention.ofOneof place)) = [] := by
  refine scope.consulted_eq_nil fun mention hmem => ?_
  obtain ⟨oneof, _, hmem⟩ := List.mem_flatMap.mp hmem
  rw [Mention.spot_of_mem_ofOptions hmem]
  exact id

theorem references_bindMethod (method : Schema.Method) :
    (scope.bindMethod place method).references =
      scope.consulted (Mention.ofMethod place method) := by
  unfold bindMethod Mention.ofMethod
  rw [Noted.references_bind, Noted.references_bind, Noted.references_bind,
    scope.references_noteExtensions .plain trivial, references_bindMessageName,
    references_bindMessageName, consulted_append,
    scope.consulted_cons (Mention.ofMessageName place method.input) trivial,
    scope.consulted_cons (Mention.ofMessageName place method.output) trivial,
    consulted_nil]
  refine congrArg (_ ++ ·) (congrArg (Option.toList _ ++ ·) (congrArg (Option.toList _ ++ ·) ?_))
  split
  · rfl
  · rfl

theorem references_bindService (service : Schema.Service)
    (h : (scope.bindService place service).Clean) :
    (scope.bindService place service).references =
      scope.consulted (Mention.ofService place service) := by
  obtain ⟨hmethods, _⟩ := Clean.of_bind (Clean.of_bind h).2
  unfold bindService Mention.ofService
  rw [Noted.references_bind, Noted.references_bind,
    scope.references_noteExtensions .plain trivial,
    hmethods.references_collect (Mention.ofMethod _) fun method _ => references_bindMethod method,
    consulted_append]
  exact congrArg (_ ++ ·) (List.append_nil _)

/-- The fields of an extend block are passed over when its message is not known. -/
theorem references_bindExtensions {extendee : TypeName} {position : Position}
    {fields : List Schema.Field}
    (h : (scope.bindExtensions place extendee position fields).Clean) :
    (scope.bindExtensions place extendee position fields).references =
      scope.consulted (Mention.ofExtensions place extendee fields) := by
  obtain ⟨hname, hfields⟩ := Clean.of_bind h
  have hyields := bindMessageName_yields scope.settles_resolves hname
  unfold bindExtensions Mention.ofExtensions
  rw [Noted.references_bind, references_bindMessageName,
    scope.consulted_cons (Mention.ofMessageName place extendee) trivial]
  refine congrArg (_ ++ ·) ?_
  cases hvalue : (scope.bindMessageName extendee place position).value with
  | none =>
    rw [hvalue] at hyields
    refine (scope.consulted_eq_nil fun mention hmem => ?_).symm
    obtain ⟨field, _, hmem⟩ := List.mem_flatMap.mp hmem
    rw [Mention.spot_of_mem_ofField hmem]
    exact Bool.eq_false_iff.mp hyields
  | some message =>
    rw [hvalue] at hyields hfields
    exact hfields.references_collect (Mention.ofField _ _) fun field =>
      references_bindField (.extension place extendee) hyields.1 (some message) field

-- The recursion is that of the binding: a message, the messages of a scope, its extend blocks.
mutual

theorem references_bindMessage (place : DottedName) (message : Schema.Message)
    (h : (scope.bindMessage place message).Clean) :
    (scope.bindMessage place message).references =
      scope.consulted (Mention.ofMessage place message) := by
  match message with
  | ⟨name, fields, oneofs, messages, enums, extendBlocks, options, position⟩ =>
    unfold bindMessage at h ⊢
    obtain ⟨hfields, hrest⟩ := Clean.of_bind (Clean.of_bind h).2
    obtain ⟨hmessages, hrest⟩ := Clean.of_bind hrest
    obtain ⟨henums, hrest⟩ := Clean.of_bind hrest
    obtain ⟨hextends, _⟩ := Clean.of_bind hrest
    have hfields := hfields.references_collect (Mention.ofField .plain _)
      (references_bindField .plain trivial none)
    have henums := henums.references_mapM (Mention.ofEnum _)
      fun enum _ => references_bindEnum enum
    rw [Mention.ofMessage]
    simp only [Noted.references_bind, Noted.references_pure, List.append_nil, consulted_append,
      consulted_ofOneofs, List.nil_append,
      scope.references_noteExtensions .plain trivial, hfields,
      references_bindMessages _ messages hmessages, bindEnums, henums,
      references_bindExtends _ extendBlocks hextends, List.append_assoc]

theorem references_bindMessages (place : DottedName) (messages : List Schema.Message)
    (h : (scope.bindMessages place messages).Clean) :
    (scope.bindMessages place messages).references =
      scope.consulted (Mention.ofMessages place messages) := by
  match messages with
  | [] => rfl
  | message :: rest =>
    unfold bindMessages at h ⊢
    obtain ⟨hfirst, hothers⟩ := Clean.of_bind h
    rw [Mention.ofMessages, consulted_append, Noted.references_bind, Noted.references_bind,
      references_bindMessage place message hfirst,
      references_bindMessages place rest (Clean.of_bind hothers).1]
    exact congrArg (_ ++ ·) (List.append_nil _)

theorem references_bindExtends (place : DottedName) (blocks : List Schema.Extend)
    (h : (scope.bindExtends place blocks).Clean) :
    (scope.bindExtends place blocks).references =
      scope.consulted (Mention.ofExtends place blocks) := by
  match blocks with
  | [] => rfl
  | ⟨extendee, fields, groups, position⟩ :: rest =>
    unfold bindExtends at h ⊢
    obtain ⟨hgroups, hrest⟩ := Clean.of_bind h
    obtain ⟨hfields, hrest⟩ := Clean.of_bind hrest
    rw [Mention.ofExtends]
    simp only [Noted.references_bind, Noted.references_pure, List.append_nil, consulted_append,
      references_bindMessages place groups hgroups, references_bindExtensions hfields,
      references_bindExtends place rest (Clean.of_bind hrest).1, List.append_assoc]

end

theorem references_bindFile (file : Schema.File) (h : (scope.bindFile file).Clean) :
    (scope.bindFile file).references = scope.consulted (Mention.ofFile file) := by
  obtain ⟨hmessages, hrest⟩ := Clean.of_bind (Clean.of_bind h).2
  obtain ⟨henums, hrest⟩ := Clean.of_bind hrest
  obtain ⟨hservices, hrest⟩ := Clean.of_bind hrest
  obtain ⟨hextends, _⟩ := Clean.of_bind hrest
  have henums := henums.references_mapM (Mention.ofEnum _)
    fun enum _ => references_bindEnum enum
  have hservices := hservices.references_mapM (Mention.ofService _)
    references_bindService
  unfold bindFile Mention.ofFile
  simp only [Noted.references_bind, Noted.references_pure, List.append_nil, consulted_append,
    scope.references_noteExtensions .plain trivial,
    references_bindMessages _ file.messages hmessages, bindEnums, henums, hservices,
    references_bindExtends _ file.extendBlocks hextends, List.append_assoc]

end Scope

end ProtoSchema.Linked
