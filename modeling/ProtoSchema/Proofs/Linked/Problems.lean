import ProtoSchema.Linked.Linking
import ProtoSchema.Proofs.Schema.Worded

/-!
What the linker has to say about a file. Its problems are of two kinds only: a
reference means nothing, or names do not fit together. A file is linked when no
problem is an error, and is complete when all its edges are intact.
-/

namespace ProtoSchema.Linked

def Problem.ConcernsNames (problem : Problem) : Prop :=
  problem.fault.kind = .unresolvedReference ∨ problem.fault.kind = .bindFailure

def Problem.BlamesReference (problem : Problem) : Prop :=
  match problem.fault with
  | .notDefined _ | .notType _ _ | .notMessage _ | .badMapKey _ => True
  | _ => False

theorem Problem.BlamesReference.concernsNames {problem : Problem} (h : problem.BlamesReference) :
    problem.ConcernsNames := by
  obtain ⟨position, fault⟩ := problem
  cases fault with
  | notDefined name => exact .inl rfl
  | notType name kind => exact .inr rfl
  | notMessage name => exact .inr rfl
  | badMapKey name => exact .inr rfl
  | _ => cases h

def Scope.Blames (scope : Scope) (problem : Problem) : Prop :=
  problem.BlamesReference ∧
    (problem.fault.kind = .unresolvedReference → scope.lenient = false)

structure Scope.Allows (scope : Scope) (W : String → Prop) (P : Problem → Prop) : Prop where
  notDefined : ∀ (name : TypeName) (position : Position), name.Worded W →
    scope.lenient = false → P ⟨position, .notDefined name⟩
  notType : ∀ (name : TypeName) (kind : SymbolKind) (position : Position),
    name.Worded W → P ⟨position, .notType name kind⟩
  notMessage : ∀ (name : TypeName) (position : Position), name.Worded W →
    P ⟨position, .notMessage name⟩
  badMapKey : ∀ (name : TypeName) (position : Position), name.Worded W →
    P ⟨position, .badMapKey name⟩

theorem Scope.allows_blames (scope : Scope) : scope.Allows (fun _ => True) scope.Blames where
  notDefined _ _ _ hstrict := ⟨trivial, fun _ => hstrict⟩
  notType _ _ _ _ := ⟨trivial, nofun⟩
  notMessage _ _ _ := ⟨trivial, nofun⟩
  badMapKey _ _ _ := ⟨trivial, nofun⟩

namespace Noted

variable {α β : Type} {P : Problem → Prop}

def Only (P : Problem → Prop) (noted : Noted α) : Prop :=
  ∀ problem, .problem problem ∈ noted.findings → P problem

instance : LawfulMonad Noted := LawfulMonad.mk' Noted
  (fun noted => by simp [Functor.map, Noted.bind, Noted.pure])
  (fun a f => by simp [Bind.bind, Pure.pure, Noted.bind, Noted.pure])
  (fun noted f g => by simp [Bind.bind, Noted.bind])

theorem Only.pure (a : α) : (pure a : Noted α).Only P := by
  intro problem h
  cases h

theorem Only.bind {noted : Noted α} {f : α → Noted β} (h : noted.Only P)
    (hf : ∀ a, (f a).Only P) : (noted >>= f).Only P := by
  intro problem hmem
  rw [findings_bind, List.mem_append] at hmem
  rcases hmem with hmem | hmem
  · exact h problem hmem
  · exact hf _ problem hmem

theorem Only.note_reference (found : Found) : (note (.reference found)).Only P := by
  intro problem h
  cases List.mem_singleton.mp h

theorem Only.problem {position : Position} {fault : BindFault} (h : P ⟨position, fault⟩) :
    (Noted.problem position fault).Only P := by
  intro problem hmem
  cases List.mem_singleton.mp hmem
  exact h

theorem Only.collect {f : α → Noted (Option β)} {items : List α}
    (h : ∀ a ∈ items, (f a).Only P) : (collect f items).Only P := by
  induction items with
  | nil => exact .pure []
  | cons a rest ih =>
    obtain ⟨hfirst, hrest⟩ := List.forall_mem_cons.mp h
    exact hfirst.bind fun _ => (ih hrest).bind fun _ => .pure _

theorem Only.mapM {f : α → Noted β} {items : List α} (h : ∀ a ∈ items, (f a).Only P) :
    (items.mapM f).Only P := by
  induction items with
  | nil => exact .pure []
  | cons a rest ih =>
    obtain ⟨hfirst, hrest⟩ := List.forall_mem_cons.mp h
    rw [List.mapM_cons]
    exact hfirst.bind fun _ => (ih hrest).bind fun _ => .pure _

end Noted

namespace Scope

open Noted (Only)

variable {scope : Scope} {W : String → Prop} {P : Problem → Prop} (h : scope.Allows W P)
  (place : DottedName)

include h

theorem Allows.refer {name : TypeName} (hname : name.Worded W) (position : Position) :
    (scope.refer name place position).Only P := by
  unfold Scope.refer
  split
  · exact .bind (.note_reference _) fun _ => .pure _
  · split
    · exact .pure _
    · next hstrict =>
      exact .bind (.problem (h.notDefined name position hname (Bool.eq_false_iff.mpr hstrict)))
        fun _ => .pure _

theorem Allows.bindType {name : TypeName} (hname : name.Worded W) (position : Position) :
    (scope.bindType name place position).Only P := by
  unfold Scope.bindType
  split
  · exact .pure _
  · refine .bind (h.refer place hname position) fun found => ?_
    split
    · exact .pure _
    · exact .pure _
    · exact .pure _
    · exact .bind (.problem (h.notType name _ position hname)) fun _ => .pure _

theorem Allows.bindMessageName {name : TypeName} (hname : name.Worded W)
    (position : Position) : (scope.bindMessageName name place position).Only P := by
  unfold Scope.bindMessageName
  refine .bind (h.refer place hname position) fun found => ?_
  split
  · exact .pure _
  · exact .pure _
  · exact .bind (.problem (h.notMessage name position hname)) fun _ => .pure _

omit h in
theorem noteExtensions_only (settings : List Schema.OptionSetting) :
    (scope.noteExtensions place settings).Only P := by
  induction settings with
  | nil => exact .pure ()
  | cons setting rest ih =>
    unfold noteExtensions
    split
    · exact .bind (.note_reference _) fun _ => ih
    · exact .bind (.pure ()) fun _ => ih

theorem Allows.bindFieldType {field : Schema.Field} (hfield : field.Worded W) :
    (scope.bindFieldType place field).Only P := by
  have htype := hfield.type
  unfold Scope.bindFieldType
  split
  · next name hsingle =>
    rw [hsingle] at htype
    exact .bind (h.bindType place htype _) fun _ => .pure _
  · next key value hmap =>
    rw [hmap] at htype
    split
    · exact .bind (.problem (h.badMapKey key _ htype.1)) fun _ => .pure _
    · exact .bind (h.bindType place htype.2 _) fun _ => .pure _

theorem Allows.bindField (extendee : Option DottedName) {field : Schema.Field}
    (hfield : field.Worded W) : (scope.bindField place extendee field).Only P := by
  unfold Scope.bindField
  refine .bind (noteExtensions_only place _) fun _ => ?_
  refine .bind (h.bindFieldType place hfield) fun type => ?_
  split
  · exact .pure _
  · exact .pure _

omit h in
theorem bindEnum_only (enum : Schema.Enum) : (scope.bindEnum place enum).Only P :=
  .bind (noteExtensions_only _ _) fun _ => .pure _

theorem Allows.bindMethod {method : Schema.Method} (hmethod : method.Worded W) :
    (scope.bindMethod place method).Only P := by
  unfold Scope.bindMethod
  refine .bind (noteExtensions_only place _) fun _ => ?_
  refine .bind (h.bindMessageName place hmethod.input _) fun input => ?_
  refine .bind (h.bindMessageName place hmethod.output _) fun output => ?_
  split
  · exact .pure _
  · exact .pure _

theorem Allows.bindService {service : Schema.Service} (hservice : service.Worded W) :
    (scope.bindService place service).Only P :=
  .bind (noteExtensions_only _ _) fun _ =>
    .bind (.collect fun method hmethod => h.bindMethod _ (hservice.methods method hmethod))
      fun _ => .pure _

theorem Allows.bindExtensions {extendee : TypeName} (hextendee : extendee.Worded W)
    (position : Position) {fields : List Schema.Field}
    (hfields : ∀ field ∈ fields, field.Worded W) :
    (scope.bindExtensions place extendee position fields).Only P := by
  unfold Scope.bindExtensions
  refine .bind (h.bindMessageName place hextendee _) fun found => ?_
  split
  · exact .pure _
  · exact .collect fun field hfield => h.bindField place _ (hfields field hfield)

omit h

-- The recursion is that of the binding: a message, the messages of a scope, its extend blocks.
mutual

theorem Allows.bindMessage (h : scope.Allows W P) (place : DottedName) (message : Schema.Message)
    (hmessage : message.Worded W) : (scope.bindMessage place message).Only P := by
  match message, hmessage.extendBlocks with
  | ⟨name, fields, oneofs, messages, enums, extendBlocks, options, position⟩, hblocks =>
    cases hmessage with
    | intro _ hfields _ hmessages _ _ _ _ =>
      unfold Scope.bindMessage
      refine .bind (noteExtensions_only _ _) fun _ => ?_
      refine .bind (.collect fun field hfield => h.bindField _ _ (hfields field hfield)) fun _ => ?_
      refine .bind (h.bindMessages _ messages hmessages) fun _ => ?_
      refine .bind (.mapM fun enum _ => bindEnum_only _ enum) fun _ => ?_
      exact .bind (h.bindExtends _ extendBlocks hblocks) fun _ => .pure _

theorem Allows.bindMessages (h : scope.Allows W P) (place : DottedName)
    (messages : List Schema.Message) (hmessages : ∀ message ∈ messages, message.Worded W) :
    (scope.bindMessages place messages).Only P := by
  match messages with
  | [] =>
    unfold Scope.bindMessages
    exact .pure _
  | message :: rest =>
    obtain ⟨hfirst, hrest⟩ := List.forall_mem_cons.mp hmessages
    unfold Scope.bindMessages
    refine .bind (h.bindMessage place message hfirst) fun _ => ?_
    exact .bind (h.bindMessages place rest hrest) fun _ => .pure _

theorem Allows.bindExtends (h : scope.Allows W P) (place : DottedName)
    (blocks : List Schema.Extend) (hblocks : ∀ block ∈ blocks, Schema.ExtendBlock.Worded W block) :
    (scope.bindExtends place blocks).Only P := by
  match blocks with
  | [] =>
    unfold Scope.bindExtends
    exact .pure _
  | ⟨extendee, fields, groups, position⟩ :: rest =>
    obtain ⟨hfirst, hrest⟩ := List.forall_mem_cons.mp hblocks
    unfold Scope.bindExtends
    refine .bind (h.bindMessages place groups hfirst.groups) fun _ => ?_
    refine .bind (h.bindExtensions place hfirst.extendee position hfirst.fields) fun _ => ?_
    exact .bind (h.bindExtends place rest hrest) fun _ => .pure _

end

theorem Allows.bindFile (h : scope.Allows W P) {file : Schema.File} (hfile : file.Worded W) :
    (scope.bindFile file).Only P := by
  unfold Scope.bindFile
  refine .bind (noteExtensions_only _ _) fun _ => ?_
  refine .bind (h.bindMessages _ _ hfile.messages) fun _ => ?_
  refine .bind (.mapM fun enum _ => bindEnum_only _ enum) fun _ => ?_
  refine .bind (.mapM fun service hservice =>
    h.bindService _ (hfile.services service hservice)) fun _ => ?_
  exact .bind (h.bindExtends _ _ hfile.extendBlocks) fun _ => .pure _

variable (scope)

theorem bindFile_only (file : Schema.File) : (scope.bindFile file).Only scope.Blames :=
  scope.allows_blames.bindFile (Schema.File.worded_of_forall (fun _ => trivial) file)

/-- What is told of imports is that one of them is not used. -/
theorem exists_of_mem_unusedFrom {references : List Found} {index : Nat} {edges : List Import}
    {problem : Problem} (h : problem ∈ scope.unusedFrom references index edges) :
    ∃ edge ∈ edges, problem = ⟨edge.position, .unusedImport edge.path⟩ := by
  induction edges generalizing index with
  | nil => cases h
  | cons edge rest ih =>
    have hrest (hmem : problem ∈ scope.unusedFrom references (index + 1) rest) :
        ∃ other ∈ edge :: rest, problem = ⟨other.position, .unusedImport other.path⟩ :=
      let ⟨other, hother, hproblem⟩ := ih hmem
      ⟨other, List.mem_cons_of_mem _ hother, hproblem⟩
    unfold unusedFrom at h
    split at h
    · rcases List.mem_cons.mp h with rfl | h
      · exact ⟨edge, List.mem_cons_self, rfl⟩
      · exact hrest h
    · exact hrest h

theorem unusedFrom_isBindFailure (references : List Found) (index : Nat) (edges : List Import)
    (problem : Problem) (h : problem ∈ scope.unusedFrom references index edges) :
    problem.fault.kind = .bindFailure := by
  obtain ⟨edge, _, rfl⟩ := scope.exists_of_mem_unusedFrom h
  rfl

end Scope

namespace Declaration

theorem enter_isBindFailure (visible : List Exposed) (declaration : Declaration)
    (table : SymbolTable) (problem : Problem)
    (h : problem ∈ (declaration.enter visible table).2) :
    problem.fault.kind = .bindFailure := by
  unfold enter at h
  split at h
  · split at h
    · cases List.mem_singleton.mp h
      rfl
    · cases h
  · split at h
    · cases List.mem_singleton.mp h
      rfl
    · cases h

theorem enterAll_isBindFailure (visible : List Exposed) (declarations : List Declaration)
    (table : SymbolTable) (problem : Problem)
    (h : problem ∈ (enterAll visible declarations table).2) :
    problem.fault.kind = .bindFailure := by
  induction declarations generalizing table with
  | nil => cases h
  | cons declaration rest ih =>
    rcases List.mem_append.mp h with h | h
    · exact enter_isBindFailure visible declaration table problem h
    · exact ih _ h

end Declaration

variable {warnUnused : Bool} {path : VirtualPath} {file : Schema.File} {imports : List Import}

def linkProblems (warnUnused : Bool) (path : VirtualPath) (file : Schema.File)
    (imports : List Import) : List Problem :=
  let scope := (Scope.ofFile path file imports).1
  let findings := (scope.bindFile file).findings
  (Scope.ofFile path file imports).2 ++ findings.filterMap Finding.problem? ++
    if warnUnused then scope.unusedFrom (findings.filterMap Finding.reference?) 0 imports else []

def linkedFile (path : VirtualPath) (file : Schema.File) (imports : List Import) : File :=
  let scope := (Scope.ofFile path file imports).1
  let bound := (scope.bindFile file).value
  { path := path
    dialect := file.dialect
    package := file.package
    options := file.options
    messages := bound.messages
    enums := bound.enums
    services := bound.services
    extensions := bound.extensions
    imports := imports
    symbols := scope.own
    complete := !scope.lenient }

theorem link_eq (warnUnused : Bool) (path : VirtualPath) (file : Schema.File)
    (imports : List Import) :
    link warnUnused path file imports =
      if ∃ problem ∈ linkProblems warnUnused path file imports, problem.IsError then
        .error (linkProblems warnUnused path file imports)
      else
        .ok ⟨linkedFile path file imports, linkProblems warnUnused path file imports⟩ := rfl

theorem link_eq_error {problems : List Problem}
    (h : link warnUnused path file imports = .error problems) :
    problems = linkProblems warnUnused path file imports ∧
      ∃ problem ∈ linkProblems warnUnused path file imports, problem.IsError := by
  rw [link_eq] at h
  split at h
  · next herror =>
    cases h
    exact ⟨rfl, herror⟩
  · cases h

theorem link_eq_ok {outcome : Outcome}
    (h : link warnUnused path file imports = .ok outcome) :
    outcome = ⟨linkedFile path file imports, linkProblems warnUnused path file imports⟩ ∧
      ∀ problem ∈ linkProblems warnUnused path file imports, ¬problem.IsError := by
  rw [link_eq] at h
  split at h
  · cases h
  · next hnone =>
    cases h
    exact ⟨rfl, fun problem hmem herror => hnone ⟨problem, hmem, herror⟩⟩

theorem linkProblems_concernsNames (problem : Problem)
    (h : problem ∈ linkProblems warnUnused path file imports) : problem.ConcernsNames := by
  rcases List.mem_append.mp h with h | h
  · rcases List.mem_append.mp h with h | h
    · exact .inr (Declaration.enterAll_isBindFailure _ _ _ problem h)
    · obtain ⟨finding, hfinding, hproblem⟩ := List.mem_filterMap.mp h
      cases finding with
      | problem found =>
        cases hproblem
        exact (Scope.bindFile_only _ file problem hfinding).1.concernsNames
      | reference found => cases hproblem
  · split at h
    · exact .inr (Scope.unusedFrom_isBindFailure _ _ _ _ problem h)
    · cases h

/-- With an import that is missing or incomplete no name is told to be unknown. -/
theorem linkProblems_excused (hbroken : ∃ edge ∈ imports, ¬edge.IsIntact) (problem : Problem)
    (h : problem ∈ linkProblems warnUnused path file imports) :
    problem.fault.kind ≠ .unresolvedReference := by
  have hlenient : (Scope.ofFile path file imports).1.lenient = true := by
    simpa [Scope.ofFile] using hbroken
  rcases List.mem_append.mp h with h | h
  · rcases List.mem_append.mp h with h | h
    · rw [Declaration.enterAll_isBindFailure _ _ _ problem h]
      exact nofun
    · obtain ⟨finding, hfinding, hproblem⟩ := List.mem_filterMap.mp h
      cases finding with
      | problem found =>
        cases hproblem
        intro hkind
        rw [(Scope.bindFile_only _ file problem hfinding).2 hkind] at hlenient
        cases hlenient
      | reference found => cases hproblem
  · split at h
    · rw [Scope.unusedFrom_isBindFailure _ _ _ _ problem h]
      exact nofun
    · cases h

theorem linkedFile_complete :
    (linkedFile path file imports).complete = true ↔ ∀ edge ∈ imports, edge.IsIntact := by
  simp [linkedFile, Scope.ofFile]

end ProtoSchema.Linked
