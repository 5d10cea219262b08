import Mathlib.Data.List.Pairwise
import ProtoSchema.Proofs.Linked.Partial
import ProtoSchema.Proofs.Linked.Usage

/-!
The order of declarations and of imports. Names meet or do not meet in whatever order they are
entered, and the tables that come of it have the same entries. Where no two visible files have
a name in common, packages apart, a name is found to be the same symbol whichever of them comes
first; of a package only the file may differ, and nothing is ever bound to a package. So the
same references are bound, and the same problems found, declaration by declaration.
-/

namespace ProtoSchema

/-- The other file has the declarations of the file in any order. What it imports is not asked
for: a link goes by the edges that the import statements became. -/
structure Schema.File.Rearranges (file other : Schema.File) : Prop where
  dialect : other.dialect = file.dialect
  package : other.package = file.package
  options : other.options = file.options
  messages : file.messages.Perm other.messages
  enums : file.enums.Perm other.enums
  services : file.services.Perm other.services
  extendBlocks : file.extendBlocks.Perm other.extendBlocks

namespace Schema.File

variable {file other : File}

theorem Rearranges.symm (h : file.Rearranges other) : other.Rearranges file :=
  ⟨h.dialect.symm, h.package.symm, h.options.symm, h.messages.symm, h.enums.symm,
    h.services.symm, h.extendBlocks.symm⟩

theorem Rearranges.scope_eq (h : file.Rearranges other) : other.scope = file.scope := by
  rw [scope, scope, h.package]

end Schema.File

namespace Linked

/-- The linked files are the same but for the order of what they declare and import. -/
structure File.Rearranges (file other : File) : Prop where
  path : other.path = file.path
  dialect : other.dialect = file.dialect
  package : other.package = file.package
  options : other.options = file.options
  messages : file.messages.Perm other.messages
  enums : file.enums.Perm other.enums
  services : file.services.Perm other.services
  extensions : file.extensions.Perm other.extensions
  imports : file.imports.Perm other.imports
  symbols : file.symbols.Perm other.symbols
  symbol?_eq : ∀ name, other.symbol? name = file.symbol? name
  complete : other.complete = file.complete

variable {declared other : Schema.File} {imports others : List Import} {path : VirtualPath}
  {warnUnused : Bool} {a b : Exposed}

/-- The same files are visible through the imports in any order. -/
theorem exists_exposed_of_perm (h : imports.Perm others) (ha : a ∈ exposed imports) :
    ∃ b ∈ exposed others, b.file = a.file := by
  obtain ⟨edge, hedge, target, htarget, hpassed⟩ := mem_exposedFrom ha
  obtain ⟨i, hi⟩ := List.mem_iff_getElem?.mp (h.subset hedge)
  exact ⟨⟨i, a.file⟩, mem_exposedFrom_iff.mpr ⟨i, edge, target, hi, htarget, hpassed, by simp⟩, rfl⟩

theorem ExposedOnce.of_perm (honce : ExposedOnce imports) (h : imports.Perm others) :
    ExposedOnce others := by
  intro a ha b hb name kind other hkind hother
  obtain ⟨first, hfirst, ha⟩ := exists_exposed_of_perm h.symm ha
  obtain ⟨second, hsecond, hb⟩ := exists_exposed_of_perm h.symm hb
  rw [← ha] at hkind ⊢
  rw [← hb] at hother ⊢
  exact honce first hfirst second hsecond name kind other hkind hother

namespace Declaration

theorem isTaken_of_perm {name : DottedName} {kind : SymbolKind} (h : imports.Perm others)
    (htaken : IsTaken (exposed imports) name kind) : IsTaken (exposed others) name kind := by
  obtain ⟨exposed, hexposed, taken, hsymbol, hclash⟩ := htaken
  obtain ⟨same, hsame, hfile⟩ := exists_exposed_of_perm h hexposed
  exact ⟨same, hsame, taken, by rw [hfile]; exact hsymbol, hclash⟩

theorem Repeats.symm {a b : Declaration} (h : a.Repeats b) : b.Repeats a :=
  ⟨h.1.symm, fun hpackages => h.2 hpackages.symm⟩

/-- Whether names meet does not hang on their order. -/
theorem apart_of_perm {declarations more : List Declaration} (himports : imports.Perm others)
    (h : declarations.Perm more) (hapart : Declaration.Apart (exposed imports) [] declarations) :
    Declaration.Apart (exposed others) [] more where
  fits := by
    rintro d _ entry hentry
    cases hentry
  pairwise := by
    refine (h.pairwise_iff ?_).mp hapart.pairwise
    exact fun hrepeats hsame => hrepeats (Repeats.symm hsame)
  free d hd htaken :=
    hapart.free d (h.symm.subset hd) (isTaken_of_perm himports.symm htaken)

theorem ofMessages_eq_flatMap (scope : DottedName) (messages : List Schema.Message) :
    ofMessages scope messages = messages.flatMap (ofMessage scope) := by
  induction messages with
  | nil => rw [ofMessages, List.flatMap_nil]
  | cons message rest ih => rw [ofMessages, List.flatMap_cons, ih]

theorem ofExtends_eq_flatMap (scope : DottedName) (blocks : List Schema.Extend) :
    ofExtends scope blocks =
      blocks.flatMap fun block => ofFields scope block.fields ++ ofMessages scope block.groups := by
  induction blocks with
  | nil => rw [ofExtends, List.flatMap_nil]
  | cons block rest ih =>
    obtain ⟨⟩ := block
    rw [ofExtends, List.flatMap_cons, ih]

theorem ofFile_perm (h : declared.Rearranges other) : (ofFile declared).Perm (ofFile other) := by
  unfold ofFile
  rw [h.scope_eq]
  simp only [ofMessages_eq_flatMap, ofExtends_eq_flatMap]
  refine .append (.append (.append (.append (.refl _) ?_) ?_) ?_) ?_
  · exact h.messages.flatMap_right _
  · exact h.enums.flatMap_right _
  · exact h.services.flatMap_right _
  · exact h.extendBlocks.flatMap_right _

end Declaration

section Tables

variable (hfile : declared.Rearranges other) (himports : imports.Perm others)
include hfile himports

theorem clashes_eq_nil_of_rearranges (h : (Scope.ofFile path declared imports).2 = []) :
    (Scope.ofFile path other others).2 = [] := by
  have hadmits (visible : List Exposed) : Declaration.Admits visible [] :=
    ⟨List.nodup_nil, by simp⟩
  have hapart := (Declaration.enterAll_eq_nil_iff (hadmits _) _).mp h
  exact (Declaration.enterAll_eq_nil_iff (hadmits _) _).mpr
    (Declaration.apart_of_perm himports (Declaration.ofFile_perm hfile) hapart)

/-- The tables have the same entries, no name twice. -/
theorem own_perm_of_rearranges (h : (Scope.ofFile path declared imports).2 = []) :
    (Scope.ofFile path declared imports).1.own.Perm (Scope.ofFile path other others).1.own := by
  have hadmits (visible : List Exposed) : Declaration.Admits visible [] :=
    ⟨List.nodup_nil, by simp⟩
  have hother : (Scope.ofFile path other others).2 = [] :=
    clashes_eq_nil_of_rearranges hfile himports h
  have hnodup := ((hadmits (exposed imports)).enterAll (Declaration.ofFile declared)).nodup
  have hnodup' := ((hadmits (exposed others)).enterAll (Declaration.ofFile other)).nodup
  refine (List.perm_ext_iff_of_nodup (.of_map _ hnodup) (.of_map _ hnodup')).mpr ?_
  rintro ⟨name, kind⟩
  have hperm := Declaration.ofFile_perm hfile
  refine (Declaration.mem_enterAll_iff h).trans (Iff.trans ?_
    (Declaration.mem_enterAll_iff hother).symm)
  simp only [List.not_mem_nil, false_or, hperm.mem_iff]

theorem symbol?_eq_of_rearranges (h : (Scope.ofFile path declared imports).2 = [])
    (name : DottedName) :
    (linkedFile path other others).symbol? name =
      (linkedFile path declared imports).symbol? name := by
  have hother : (Scope.ofFile path other others).2 = [] :=
    clashes_eq_nil_of_rearranges hfile himports h
  have hperm := Declaration.ofFile_perm hfile
  refine Option.ext fun kind => ?_
  rw [linkedFile_symbol?_iff hother, linkedFile_symbol?_iff h,
    ← Declaration.exists_mem_ofFile_iff, ← Declaration.exists_mem_ofFile_iff]
  simp only [hperm.mem_iff]

end Tables

def Found.Alike (first second : Found) : Prop :=
  first = second ∨ first.kind = .package ∧ second.kind = .package

theorem Found.Alike.kind_eq {first second : Found} (h : first.Alike second) :
    first.kind = second.kind := by
  rcases h with rfl | ⟨hfirst, hsecond⟩
  · rfl
  · rw [hfirst, hsecond]

namespace Noted

variable {α β : Type}

def problems (noted : Noted α) : List Problem := noted.findings.filterMap Finding.problem?

@[simp] theorem problems_pure (a : α) : (pure a : Noted α).problems = [] := rfl

@[simp] theorem problems_bind (noted : Noted α) (f : α → Noted β) :
    (noted >>= f).problems = noted.problems ++ (f noted.value).problems := by
  simp [problems]

theorem mem_problems {noted : Noted α} {found : Problem} :
    found ∈ noted.problems ↔ .problem found ∈ noted.findings := by
  rw [problems, List.mem_filterMap]
  constructor
  · rintro ⟨finding, hfinding, hfound⟩
    cases finding with
    | problem p =>
      cases hfound
      exact hfinding
    | reference r => cases hfound
  · exact fun h => ⟨.problem found, h, rfl⟩

theorem problems_mapM (f : α → Noted β) (items : List α) :
    (items.mapM f).problems = items.flatMap fun a => (f a).problems := by
  induction items with
  | nil => rfl
  | cons a rest ih =>
    rw [List.mapM_cons, problems_bind, problems_bind, problems_pure, List.append_nil, ih,
      List.flatMap_cons]

structure Agrees (first second : Noted α) : Prop where
  value : first.value = second.value
  problems : first.problems = second.problems

theorem Agrees.refl (noted : Noted α) : noted.Agrees noted := ⟨rfl, rfl⟩

theorem Agrees.bind {first second : Noted α} {f g : α → Noted β} (h : first.Agrees second)
    (hfg : ∀ a, (f a).Agrees (g a)) : (first >>= f).Agrees (second >>= g) where
  value := by rw [value_bind, value_bind, h.value, (hfg _).value]
  problems := by rw [problems_bind, problems_bind, h.problems, h.value, (hfg _).problems]

theorem Agrees.collect {f g : α → Noted (Option β)} (h : ∀ a, (f a).Agrees (g a))
    (items : List α) : (collect f items).Agrees (collect g items) := by
  induction items with
  | nil => exact .refl _
  | cons a rest ih => exact (h a).bind fun _ => ih.bind fun _ => .refl _

theorem Agrees.mapM {f g : α → Noted β} (h : ∀ a, (f a).Agrees (g a)) (items : List α) :
    (items.mapM f).Agrees (items.mapM g) := by
  induction items with
  | nil => exact .refl _
  | cons a rest ih =>
    rw [List.mapM_cons, List.mapM_cons]
    exact (h a).bind fun _ => ih.bind fun _ => .refl _

end Noted

namespace Scope

open Noted (Agrees)

structure Matches (scope other : Scope) : Prop where
  lenient : scope.lenient = other.lenient
  lookup? : ∀ name, Option.Rel Found.Alike (scope.lookup? name) (other.lookup? name)

variable {scope other : Scope}

theorem matches_of_within (hlenient : scope.lenient = other.lenient) (h : scope.Within other)
    (hback : other.Within scope) (honce : other.Once) : scope.Matches other where
  lenient := hlenient
  lookup? name := by
    cases hscope : scope.lookup? name with
    | none =>
      cases hother : other.lookup? name with
      | none => exact .none
      | some found =>
        obtain ⟨hit, hhit⟩ :=
          exists_lookup?_of_supplies (hback _ _ _ (supplies_of_lookup? hother))
        rw [hscope] at hhit
        cases hhit
    | some hit =>
      obtain ⟨found, hother⟩ := exists_lookup?_of_supplies (h _ _ _ (supplies_of_lookup? hscope))
      rw [hother]
      refine .some ?_
      by_cases hkind : found.kind = .package
      · exact .inr ⟨(h.kind_eq honce hother hscope).trans hkind, hkind⟩
      · exact .inl (h.lookup?_eq honce hother hscope hkind)

/-- Options only add to what was referred to. -/
theorem noteExtensions_agrees (scope other : Scope) (place : DottedName)
    (settings : List Schema.OptionSetting) :
    (scope.noteExtensions place settings).Agrees (other.noteExtensions place settings) := by
  have hproblems (scope : Scope) : (scope.noteExtensions place settings).problems = [] := by
    induction settings with
    | nil => rfl
    | cons setting rest ih =>
      rw [Scope.noteExtensions]
      split
      · exact ih
      · exact ih
  exact ⟨rfl, (hproblems scope).trans (hproblems other).symm⟩

theorem bindEnum_agrees (scope other : Scope) (place : DottedName) (enum : Schema.Enum) :
    (scope.bindEnum place enum).Agrees (other.bindEnum place enum) :=
  (noteExtensions_agrees _ _ _ _).bind fun _ => .refl _

namespace Matches

section

variable (h : scope.Matches other)
include h

theorem searchOutward (typesOnly : Bool) (first : String) (rest : DottedName)
    (places : List DottedName) :
    Option.Rel Found.Alike (scope.searchOutward typesOnly first rest places)
      (other.searchOutward typesOnly first rest places) := by
  induction places with
  | nil => exact .none
  | cons place outer ih =>
    have hfirst := h.lookup? (place.member first)
    rw [Scope.searchOutward, Scope.searchOutward]
    generalize scope.lookup? (place.member first) = here,
      other.lookup? (place.member first) = there at hfirst
    cases hfirst with
    | none => exact ih
    | some halike =>
      simp only [halike.kind_eq]
      split
      · split
        · exact ih
        · exact .some halike
      · split
        · exact h.lookup? _
        · exact ih

theorem resolve? (name : TypeName) (place : DottedName) (typesOnly : Bool) :
    Option.Rel Found.Alike (scope.resolve? name place typesOnly)
      (other.resolve? name place typesOnly) := by
  unfold Scope.resolve?
  split
  · exact h.lookup? _
  · split
    · exact .none
    · exact h.searchOutward _ _ _ _

/-- What is made of a reference agrees when it agrees for the same symbol and for packages. -/
theorem bind_refer {α : Type} {f g : Option Found → Noted α} (name : TypeName)
    (place : DottedName) (position : Position) (hnone : (f none).Agrees (g none))
    (hsame : ∀ found, (f (some found)).Agrees (g (some found)))
    (hpackages : ∀ first second : Found, first.kind = .package → second.kind = .package →
      (f (some first)).Agrees (g (some second))) :
    (scope.refer name place position >>= f).Agrees (other.refer name place position >>= g) := by
  have hsome (first second : Found) (halike : first.Alike second) :
      (f (some first)).Agrees (g (some second)) := by
    rcases halike with rfl | ⟨hfirst, hsecond⟩
    · exact hsame first
    · exact hpackages first second hfirst hsecond
  have hmeaning := h.resolve? name place true
  unfold refer
  generalize scope.resolve? name place true = here, other.resolve? name place true = there
    at hmeaning
  cases hmeaning with
  | some halike => exact ⟨(hsome _ _ halike).value, (hsome _ _ halike).problems⟩
  | none =>
    simp only [h.lenient]
    split
    · exact ⟨hnone.value, hnone.problems⟩
    · refine ⟨hnone.value, ?_⟩
      simp only [Noted.problems_bind, Noted.problems_pure, hnone.problems, List.append_nil,
        Noted.value_bind, Noted.value_pure]

theorem bindType (name : TypeName) (place : DottedName) (position : Position) :
    (scope.bindType name place position).Agrees (other.bindType name place position) := by
  unfold Scope.bindType
  split
  · exact .refl _
  · refine h.bind_refer name place position (.refl _) (fun _ => .refl _) ?_
    rintro ⟨_, _, _⟩ ⟨_, _, _⟩ ⟨⟩ ⟨⟩
    exact .refl _

theorem bindMessageName (name : TypeName) (place : DottedName) (position : Position) :
    (scope.bindMessageName name place position).Agrees
      (other.bindMessageName name place position) := by
  unfold Scope.bindMessageName
  refine h.bind_refer name place position (.refl _) (fun _ => .refl _) ?_
  rintro ⟨_, _, _⟩ ⟨_, _, _⟩ ⟨⟩ ⟨⟩
  exact .refl _

theorem bindFieldType (place : DottedName) (field : Schema.Field) :
    (scope.bindFieldType place field).Agrees (other.bindFieldType place field) := by
  unfold Scope.bindFieldType
  split
  · exact (h.bindType _ _ _).bind fun _ => .refl _
  · split
    · exact .refl _
    · exact (h.bindType _ _ _).bind fun _ => .refl _

theorem bindField (place : DottedName) (extendee : Option DottedName) (field : Schema.Field) :
    (scope.bindField place extendee field).Agrees (other.bindField place extendee field) :=
  (noteExtensions_agrees _ _ _ _).bind fun _ => (h.bindFieldType place field).bind fun _ => .refl _

theorem bindMethod (place : DottedName) (method : Schema.Method) :
    (scope.bindMethod place method).Agrees (other.bindMethod place method) :=
  (noteExtensions_agrees _ _ _ _).bind fun _ => (h.bindMessageName _ _ _).bind fun _ =>
    (h.bindMessageName _ _ _).bind fun _ => .refl _

theorem bindService (place : DottedName) (service : Schema.Service) :
    (scope.bindService place service).Agrees (other.bindService place service) :=
  (noteExtensions_agrees _ _ _ _).bind fun _ =>
    (Agrees.collect (h.bindMethod _) _).bind fun _ => .refl _

theorem bindExtensions (place : DottedName) (extendee : TypeName) (position : Position)
    (fields : List Schema.Field) :
    (scope.bindExtensions place extendee position fields).Agrees
      (other.bindExtensions place extendee position fields) := by
  refine (h.bindMessageName _ _ _).bind fun message => ?_
  cases message with
  | none => exact .refl _
  | some message => exact .collect (h.bindField place (some message)) fields

end

mutual

theorem bindMessage (h : scope.Matches other) (place : DottedName) (message : Schema.Message) :
    (scope.bindMessage place message).Agrees (other.bindMessage place message) := by
  match message with
  | ⟨name, fields, oneofs, messages, enums, extendBlocks, options, position⟩ =>
    unfold Scope.bindMessage
    refine (noteExtensions_agrees _ _ _ _).bind fun _ => ?_
    refine (Agrees.collect (h.bindField _ _) _).bind fun _ => ?_
    refine (bindMessages h _ messages).bind fun _ => ?_
    refine (Agrees.mapM (bindEnum_agrees _ _ _) _).bind fun _ => ?_
    exact (bindExtends h _ extendBlocks).bind fun _ => .refl _

theorem bindMessages (h : scope.Matches other) (place : DottedName)
    (messages : List Schema.Message) :
    (scope.bindMessages place messages).Agrees (other.bindMessages place messages) := by
  match messages with
  | [] =>
    unfold Scope.bindMessages
    exact .refl _
  | message :: rest =>
    unfold Scope.bindMessages
    refine (bindMessage h place message).bind fun _ => ?_
    exact (bindMessages h place rest).bind fun _ => .refl _

theorem bindExtends (h : scope.Matches other) (place : DottedName)
    (blocks : List Schema.Extend) :
    (scope.bindExtends place blocks).Agrees (other.bindExtends place blocks) := by
  match blocks with
  | [] =>
    unfold Scope.bindExtends
    exact .refl _
  | ⟨extendee, fields, groups, position⟩ :: rest =>
    unfold Scope.bindExtends
    refine (bindMessages h place groups).bind fun _ => ?_
    refine (h.bindExtensions place extendee position fields).bind fun _ => ?_
    exact (bindExtends h place rest).bind fun _ => .refl _

end

theorem bindFile (h : scope.Matches other) (file : Schema.File) :
    (scope.bindFile file).Agrees (other.bindFile file) := by
  unfold Scope.bindFile
  refine (noteExtensions_agrees _ _ _ _).bind fun _ => ?_
  refine (h.bindMessages _ _).bind fun _ => ?_
  refine (Agrees.mapM (bindEnum_agrees _ _ _) _).bind fun _ => ?_
  refine (Agrees.mapM (h.bindService _) _).bind fun _ => ?_
  exact (h.bindExtends _ _).bind fun _ => .refl _

end Matches

section Order

variable (scope : Scope) (place : DottedName)

theorem bindMessages_eq_mapM (messages : List Schema.Message) :
    scope.bindMessages place messages = messages.mapM (scope.bindMessage place) := by
  induction messages with
  | nil => rw [bindMessages, List.mapM_nil]
  | cons message rest ih => rw [bindMessages, List.mapM_cons, ih]

theorem bindExtends_value (blocks : List Schema.Extend) :
    (scope.bindExtends place blocks).value =
      (blocks.flatMap fun block => (scope.bindMessages place block.groups).value,
        blocks.flatMap fun block =>
          (scope.bindExtensions place block.extendee block.position block.fields).value) := by
  induction blocks with
  | nil => rfl
  | cons block rest ih =>
    obtain ⟨⟩ := block
    rw [bindExtends]
    simp only [Noted.value_bind, Noted.value_pure, ih, List.flatMap_cons]

theorem bindExtends_problems (blocks : List Schema.Extend) :
    (scope.bindExtends place blocks).problems =
      blocks.flatMap fun block => (scope.bindMessages place block.groups).problems ++
        (scope.bindExtensions place block.extendee block.position block.fields).problems := by
  induction blocks with
  | nil => rfl
  | cons block rest ih =>
    obtain ⟨⟩ := block
    rw [bindExtends]
    simp only [Noted.problems_bind, Noted.problems_pure, ih, List.flatMap_cons, List.append_nil,
      List.append_assoc]

variable {declared other : Schema.File}

/-- Declarations are bound one by one, whatever stands before them. -/
theorem bindFile_value_perm (h : declared.Rearranges other) :
    (scope.bindFile declared).value.messages.Perm (scope.bindFile other).value.messages ∧
    (scope.bindFile declared).value.enums.Perm (scope.bindFile other).value.enums ∧
    (scope.bindFile declared).value.services.Perm (scope.bindFile other).value.services ∧
    (scope.bindFile declared).value.extensions.Perm (scope.bindFile other).value.extensions := by
  unfold bindFile bindEnums
  simp only [h.scope_eq, Noted.value_bind, Noted.value_pure, bindMessages_eq_mapM,
    Noted.value_mapM, bindExtends_value]
  refine ⟨(h.messages.map _).append ?_, h.enums.map _, h.services.map _, ?_⟩
  · exact h.extendBlocks.flatMap_right _
  · exact h.extendBlocks.flatMap_right _

theorem bindFile_problems_perm (h : declared.Rearranges other) :
    (scope.bindFile declared).problems.Perm (scope.bindFile other).problems := by
  unfold bindFile bindEnums
  simp only [h.scope_eq, h.options, Noted.problems_bind, Noted.problems_pure,
    bindMessages_eq_mapM, Noted.problems_mapM, bindExtends_problems, List.append_nil]
  refine .append (.refl _) (.append ?_ (.append ?_ (.append ?_ ?_)))
  · exact h.messages.flatMap_right _
  · exact h.enums.flatMap_right _
  · exact h.services.flatMap_right _
  · exact h.extendBlocks.flatMap_right _

end Order

end Scope

section Linking

/-- Linking succeeds when no names meet and binding has no problem. -/
theorem link_ok_iff : (∃ outcome, link warnUnused path declared imports = .ok outcome) ↔
    (Scope.ofFile path declared imports).2 = [] ∧
      ((Scope.ofFile path declared imports).1.bindFile declared).problems = [] := by
  constructor
  · rintro ⟨outcome, h⟩
    refine ⟨clashes_eq_nil_of_link h, List.eq_nil_iff_forall_not_mem.mpr fun problem hmem => ?_⟩
    have hfinding := Noted.mem_problems.mp hmem
    exact bindFile_clean h problem hfinding (Scope.bindFile_only _ _ problem hfinding).1.isError
  · rintro ⟨hclashes, hproblems⟩
    refine ⟨_, (link_eq _ _ _ _).trans (if_neg ?_)⟩
    rintro ⟨problem, hmem, herror⟩
    rcases List.mem_append.mp hmem with hmem | hmem
    · rcases List.mem_append.mp hmem with hmem | hmem
      · exact List.not_mem_nil (hclashes ▸ hmem)
      · exact List.eq_nil_iff_forall_not_mem.mp hproblems problem hmem
    · split at hmem
      · obtain ⟨edge, _, rfl⟩ := Scope.exists_of_mem_unusedFrom _ hmem
        cases herror
      · cases hmem

variable (hfile : declared.Rearranges other) (himports : imports.Perm others)
include hfile himports

theorem within_of_rearranges (h : (Scope.ofFile path declared imports).2 = []) :
    (Scope.ofFile path declared imports).1.Within (Scope.ofFile path other others).1 := by
  rintro name kind file (⟨hown, hpath⟩ | ⟨exposed, hexposed, hsymbol, hpath⟩)
  · exact .inl ⟨(symbol?_eq_of_rearranges hfile himports h name).trans hown, hpath⟩
  · obtain ⟨same, hsame, hexposed⟩ := exists_exposed_of_perm himports hexposed
    rw [← hexposed] at hsymbol hpath
    exact .inr ⟨same, hsame, hsymbol, hpath⟩

omit hfile in
theorem lenient_eq_of_perm : (Scope.ofFile path declared imports).1.lenient =
    (Scope.ofFile path other others).1.lenient := by
  simp only [Scope.ofFile, himports.mem_iff]

theorem matches_of_rearranges (honce : ExposedOnce imports)
    (h : (Scope.ofFile path declared imports).2 = []) :
    (Scope.ofFile path declared imports).1.Matches (Scope.ofFile path other others).1 := by
  have hclashes : (Scope.ofFile path other others).2 = [] :=
    clashes_eq_nil_of_rearranges hfile himports h
  exact Scope.matches_of_within (lenient_eq_of_perm himports)
    (within_of_rearranges hfile himports h)
    (within_of_rearranges hfile.symm himports.symm hclashes)
    (once_ofFile hclashes (honce.of_perm himports))

theorem link_ok_of_rearranges (honce : ExposedOnce imports)
    (h : ∃ outcome, link warnUnused path declared imports = .ok outcome) :
    ∃ outcome, link warnUnused path other others = .ok outcome := by
  obtain ⟨hclashes, hproblems⟩ := link_ok_iff.mp h
  refine link_ok_iff.mpr ⟨clashes_eq_nil_of_rearranges hfile himports hclashes, ?_⟩
  have hmatches := matches_of_rearranges hfile himports honce hclashes
  rw [(hmatches.bindFile declared).problems] at hproblems
  have hperm := Scope.bindFile_problems_perm (Scope.ofFile path other others).1 hfile
  rw [hproblems] at hperm
  exact hperm.symm.eq_nil

theorem linkedFile_rearranges (honce : ExposedOnce imports)
    (h : (Scope.ofFile path declared imports).2 = []) :
    (linkedFile path declared imports).Rearranges (linkedFile path other others) := by
  have hmatches := matches_of_rearranges hfile himports honce h
  obtain ⟨hmessages, henums, hservices, hextensions⟩ :=
    Scope.bindFile_value_perm (Scope.ofFile path other others).1 hfile
  rw [← (hmatches.bindFile declared).value] at hmessages henums hservices hextensions
  exact ⟨rfl, hfile.dialect, hfile.package, hfile.options, hmessages, henums, hservices,
    hextensions, himports, own_perm_of_rearranges hfile himports h,
    symbol?_eq_of_rearranges hfile himports h, congrArg not hmatches.lenient.symm⟩

/-- The order of declarations and of imports does not matter: where no two visible files have a
name in common, packages apart, a file is linked in one order just when it is in another, and
is then the same file. -/
theorem link_of_rearranged (warnUnused : Bool) (path : VirtualPath)
    (honce : ExposedOnce imports) :
    ((∃ outcome, link warnUnused path declared imports = .ok outcome) ↔
      ∃ outcome, link warnUnused path other others = .ok outcome) ∧
    ∀ outcome rearranged, link warnUnused path declared imports = .ok outcome →
      link warnUnused path other others = .ok rearranged →
        outcome.file.Rearranges rearranged.file := by
  refine ⟨⟨link_ok_of_rearranges hfile himports honce, ?_⟩, ?_⟩
  · exact link_ok_of_rearranges hfile.symm himports.symm (honce.of_perm himports)
  · intro outcome rearranged hlink hagain
    rw [(link_eq_ok hlink).1, (link_eq_ok hagain).1]
    exact linkedFile_rearranges hfile himports honce (clashes_eq_nil_of_link hlink)

end Linking

def Exposed.SharesPackages (a b : Exposed) : Prop :=
  ∀ s ∈ a.file.symbols, ∀ t ∈ b.file.symbols, s.1 = t.1 → s.2 = .package ∧ t.2 = .package

instance (a b : Exposed) : Decidable (a.SharesPackages b) :=
  inferInstanceAs (Decidable (∀ s ∈ a.file.symbols, ∀ t ∈ b.file.symbols, _))

instance : Std.Symm Exposed.SharesPackages :=
  ⟨fun _ _ hab s hs t ht hname => (hab t ht s hs hname.symm).symm⟩

theorem exposedOnce_of_pairwise (h : (exposed imports).Pairwise Exposed.SharesPackages) :
    ExposedOnce imports := by
  intro a ha b hb name kind other hkind hother
  by_cases hab : a = b
  · exact .inl (hab ▸ rfl)
  · exact .inr (h.forall ha hb hab _ (File.mem_symbols_of_symbol? hkind) _
      (File.mem_symbols_of_symbol? hother) rfl)

/-- Two imports that have a package in common, and two messages, in either order. -/
theorem link_of_rearranged_reversed : ∃ (path x y : VirtualPath) (tree : Schema.File)
    (first second : Import) (outcome rearranged : Outcome),
    link true path tree [first, second] = .ok outcome ∧
    link true path { tree with messages := tree.messages.reverse } [second, first] =
      .ok rearranged ∧
    (exposed [first, second]).map (·.file.symbols) =
      [[(["p"], .package), (["p", "X"], .message)], [(["p"], .package), (["p", "Y"], .message)]] ∧
    outcome.file.messages.map (fun message => (message.name, message.fields.map (·.type))) =
      [("M", [.single (.message ["p", "X"] x)]), ("N", [.single (.message ["p", "Y"] y)])] ∧
    rearranged.file.messages.map (fun message => (message.name, message.fields.map (·.type))) =
      [("N", [.single (.message ["p", "Y"] y)]), ("M", [.single (.message ["p", "X"] x)])] ∧
    outcome.file.Rearranges rearranged.file := by
  let path : VirtualPath := ⟨⟨false, ["m.proto"], by decide⟩, by decide⟩
  let x : VirtualPath := ⟨⟨false, ["x.proto"], by decide⟩, by decide⟩
  let y : VirtualPath := ⟨⟨false, ["y.proto"], by decide⟩, by decide⟩
  let tree : Schema.File :=
    (Schema.File.read "message M { optional p.X x = 1; } message N { optional p.Y y = 1; }"
      ).toOption.getD .empty
  let first : Import := ⟨x, .plain, ⟨1, 1⟩, some (.ofText x "package p; message X {}" [])⟩
  let second : Import := ⟨y, .plain, ⟨2, 1⟩, some (.ofText y "package p; message Y {}" [])⟩
  let turned : Schema.File := { tree with messages := tree.messages.reverse }
  have hlink : link true path tree [first, second] =
      .ok ⟨linkedFile path tree [first, second], linkProblems true path tree [first, second]⟩ :=
    (link_eq _ _ _ _).trans (if_neg (by decide +kernel))
  have hagain : link true path turned [second, first] =
      .ok ⟨linkedFile path turned [second, first], linkProblems true path turned [second, first]⟩ :=
    (link_eq _ _ _ _).trans (if_neg (by decide +kernel))
  have hturned : tree.Rearranges turned :=
    ⟨rfl, rfl, rfl, (List.reverse_perm _).symm, .refl _, .refl _, .refl _⟩
  have honce : ExposedOnce [first, second] := exposedOnce_of_pairwise (by decide +kernel)
  exact ⟨path, x, y, tree, first, second, _, _, hlink, hagain, by decide +kernel,
    by decide +kernel, by decide +kernel,
    (link_of_rearranged hturned (.swap _ _ _) true path honce).2 _ _ hlink hagain⟩

end Linked

end ProtoSchema
