import ProtoSchema.Proofs.Linked.Mentions
import ProtoSchema.Proofs.Linked.Symbols
import ProtoSchema.Proofs.Linked.Visibility

/-!
Which imports a file needs. An import is needed when a name that is looked up means a symbol
of another file, and a file that the import reaches or passes on declares that name. Of the
imports that are resolved and not passed on, just those get a warning that no name needs.
Options of oneofs and of enum values are not looked at, so that an import which only they
need gets a warning all the same.
-/

namespace ProtoSchema.Linked

def Scope.Needs (scope : Scope) (mentions : List Mention) (edge : Import) : Prop :=
  ∃ mention ∈ mentions, ∃ found, scope.meaning? mention = some found ∧ found.file ≠ scope.path ∧
    ∃ file, edge.Offers file ∧ (file.symbol? found.name).isSome

open Classical in
/-- A warning for each import that is resolved, keeps its names to the file and is not needed. -/
noncomputable def Scope.idleImports (scope : Scope) (mentions : List Mention)
    (imports : List Import) : List Problem :=
  (imports.filter fun edge =>
    edge.target.isSome ∧ edge.kind ≠ .reexport ∧ ¬scope.Needs mentions edge).map
      fun edge => ⟨edge.position, .unusedImport edge.path⟩

variable {scope : Scope} {mentions : List Mention} {imports : List Import} {edge : Import}

/-- The references use an import when what they were found from needs it. -/
theorem Scope.uses_iff_needs (hvisible : scope.visible = exposed imports) {index : Nat}
    (hedge : imports[index]? = some edge) (honce : edge.OffersOnce) :
    scope.Uses (scope.consulted mentions) index ↔
      scope.Needs (mentions.filter fun mention => scope.Visits mention.spot) edge := by
  have hoffers (file : File) : edge.Offers file ↔
      ∃ shown ∈ scope.visible, shown.index = index ∧ shown.file = file := by
    rw [hvisible, ← mem_exposed_iff hedge honce]
    constructor
    · exact fun hshown => ⟨⟨index, file⟩, hshown, rfl, rfl⟩
    · rintro ⟨shown, hshown, rfl, rfl⟩
      exact hshown
  simp only [Uses, consulted, Needs, hoffers, List.mem_filterMap]
  constructor
  · rintro ⟨found, ⟨mention, hmention, hmeaning⟩, hother, shown, hshown, hindex, hsymbol⟩
    exact ⟨mention, hmention, found, hmeaning, hother, shown.file, ⟨shown, hshown, hindex, rfl⟩,
      hsymbol⟩
  · rintro ⟨mention, hmention, found, hmeaning, hother, file, ⟨shown, hshown, hindex, rfl⟩,
      hsymbol⟩
    exact ⟨found, ⟨mention, hmention, hmeaning⟩, hother, shown, hshown, hindex, hsymbol⟩

/-- The induction is over the imports from an index on; those before it are only counted. -/
theorem Scope.unusedFrom_eq (hvisible : scope.visible = exposed imports)
    (honce : ∀ edge ∈ imports, edge.OffersOnce) (before rest : List Import)
    (himports : imports = before ++ rest) :
    scope.unusedFrom (scope.consulted mentions) before.length rest =
      scope.idleImports (mentions.filter fun mention => scope.Visits mention.spot) rest := by
  induction rest generalizing before with
  | nil => rfl
  | cons edge rest ih =>
    have hedge : imports[before.length]? = some edge := by simp [himports]
    have hmem : edge ∈ imports := List.mem_of_getElem? hedge
    have hmore := ih (before ++ [edge]) (by simp [himports])
    rw [List.length_append, List.length_singleton] at hmore
    have hneeds : scope.Uses (scope.consulted mentions) before.length ↔ _ :=
      uses_iff_needs hvisible hedge (honce edge hmem)
    rw [unusedFrom, hmore, idleImports, idleImports, List.filter_cons]
    by_cases hidle : edge.target.isSome ∧ edge.kind ≠ .reexport ∧
        ¬scope.Uses (scope.consulted mentions) before.length
    · have hwarned := hidle
      rw [hneeds] at hwarned
      rw [if_pos hidle, if_pos (by simpa using hwarned), List.map_cons]
    · have hspared := hidle
      rw [hneeds] at hspared
      rw [if_neg hidle, if_neg (by simpa using hspared)]

theorem Problem.BlamesReference.isError {problem : Problem} (h : problem.BlamesReference) :
    problem.IsError := by
  obtain ⟨position, fault⟩ := problem
  cases fault <;> first | rfl | cases h

variable {path : VirtualPath} {tree : Schema.File} {outcome : Outcome}

/-- Of a file that is linked there is nothing to tell but its unused imports. -/
theorem linkProblems_of_link {warnUnused : Bool}
    (h : link warnUnused path tree imports = .ok outcome) :
    linkProblems warnUnused path tree imports =
      if warnUnused then
        (Scope.ofFile path tree imports).1.unusedFrom
          ((Scope.ofFile path tree imports).1.bindFile tree).references 0 imports
      else [] := by
  have hclashes := clashes_eq_nil_of_link h
  have hproblems : ((Scope.ofFile path tree imports).1.bindFile tree).findings.filterMap
      Finding.problem? = [] := by
    refine List.filterMap_eq_nil_iff.mpr fun finding hfinding => ?_
    cases finding with
    | reference found => rfl
    | problem problem =>
      exact absurd (Scope.bindFile_only _ tree problem hfinding).1.isError
        (bindFile_clean h problem hfinding)
  simp only [linkProblems, hclashes, hproblems, List.nil_append]
  rfl

/-- A file that is linked is warned of just those imports that it does not need, going by the
names that are looked up; where all its names are, going by all of them. -/
theorem idle_imports_are_warned_of (h : link true path tree imports = .ok outcome)
    (honce : ∀ edge ∈ imports, edge.OffersOnce) :
    (let scope := (Scope.ofFile path tree imports).1
     outcome.warnings = scope.idleImports
      ((Mention.ofFile tree).filter fun mention => scope.Visits mention.spot) imports) ∧
    ((∀ mention ∈ Mention.ofFile tree, (Scope.ofFile path tree imports).1.Visits mention.spot) →
      outcome.warnings =
        (Scope.ofFile path tree imports).1.idleImports (Mention.ofFile tree) imports) := by
  have hwarnings : outcome.warnings = (Scope.ofFile path tree imports).1.idleImports
      ((Mention.ofFile tree).filter fun mention =>
        (Scope.ofFile path tree imports).1.Visits mention.spot) imports := by
    rw [(link_eq_ok h).1, linkProblems_of_link h, if_pos rfl,
      Scope.references_bindFile tree (bindFile_clean h)]
    exact Scope.unusedFrom_eq rfl honce [] imports rfl
  refine ⟨hwarnings, fun hall => ?_⟩
  rw [hwarnings, List.filter_eq_self.mpr fun mention hmem => decide_eq_true (hall mention hmem)]

/-- Of two imports the one without the type of the field gets a warning. -/
theorem idle_imports_are_warned_of_second : ∃ (path : VirtualPath) (tree : Schema.File)
    (needed idle : Import) (outcome : Outcome),
    link true path tree [needed, idle] = .ok outcome ∧
    (∀ edge ∈ [needed, idle], edge.OffersOnce) ∧
    outcome.warnings = [⟨idle.position, .unusedImport idle.path⟩] ∧
    outcome.warnings =
      (Scope.ofFile path tree [needed, idle]).1.idleImports (Mention.ofFile tree)
        [needed, idle] := by
  let path : VirtualPath := ⟨⟨false, ["a.proto"], by decide⟩, by decide⟩
  let first : VirtualPath := ⟨⟨false, ["b.proto"], by decide⟩, by decide⟩
  let second : VirtualPath := ⟨⟨false, ["c.proto"], by decide⟩, by decide⟩
  let field : Schema.Field :=
    ⟨"f", 1, some .optional, .single (.simple "Dep"), none, [], ⟨3, 3⟩, ⟨3, 12⟩⟩
  let tree : Schema.File :=
    { Schema.File.empty with messages := [⟨"A", [field], [], [], [], [], [], ⟨3, 9⟩⟩] }
  let file (path : VirtualPath) (name : String) : File :=
    ⟨path, .proto2, none, [], [], [], [], [], [], [([name], .message)], true⟩
  let needed : Import := ⟨first, .plain, ⟨1, 1⟩, some (file first "Dep")⟩
  let idle : Import := ⟨second, .plain, ⟨2, 1⟩, some (file second "Other")⟩
  have hlink : link true path tree [needed, idle] =
      .ok ⟨linkedFile path tree [needed, idle], linkProblems true path tree [needed, idle]⟩ :=
    (link_eq _ _ _ _).trans (if_neg (by decide +kernel))
  have honce : ∀ edge ∈ [needed, idle], edge.OffersOnce := by
    intro edge hedge
    refine ImportEdge.offersOnce_of_no_reexports fun target htarget => ?_
    rcases List.mem_pair.mp hedge with rfl | rfl
    · cases htarget
      rfl
    · cases htarget
      rfl
  exact ⟨path, tree, needed, idle, _, hlink, honce, by decide +kernel,
    (idle_imports_are_warned_of hlink honce).2 (by decide +kernel)⟩

/-- An import that only the option of an enum value or of a oneof needs gets a warning. -/
theorem needed_import_warned_of : ∃ (path : VirtualPath) (edge : Import)
    (ofValue ofOneof : Schema.File), edge.OffersOnce ∧
    ∀ tree ∈ [ofValue, ofOneof],
      (Scope.ofFile path tree [edge]).1.Needs (Mention.ofFile tree) edge ∧
      edge.kind ≠ .reexport ∧ edge.target.isSome ∧
      ∃ outcome, link true path tree [edge] = .ok outcome ∧
        outcome.warnings = [⟨edge.position, .unusedImport edge.path⟩] := by
  let path : VirtualPath := ⟨⟨false, ["m.proto"], by decide⟩, by decide⟩
  let other : VirtualPath := ⟨⟨false, ["dep.proto"], by decide⟩, by decide⟩
  let dep : File := ⟨other, .proto2, none, [], [], [], [], [], [],
    [(["Base"], .message), (["note"], .field)], true⟩
  let edge : Import := ⟨other, .plain, ⟨1, 1⟩, some dep⟩
  let setting : Schema.OptionSetting := ⟨[.extension (.simple "note")], "v", ⟨1, 17⟩⟩
  let enum : Schema.Enum := ⟨"E", [⟨"X", 0, [setting], ⟨1, 10⟩⟩], [], ⟨1, 6⟩⟩
  let message : Schema.Message :=
    ⟨"M", [⟨"x", 1, none, .single (.simple "int32"), some 0, [], ⟨1, 47⟩, ⟨1, 41⟩⟩],
      [⟨"o", [setting], ⟨1, 19⟩⟩], [], [], [], [], ⟨1, 9⟩⟩
  let ofValue : Schema.File := { Schema.File.empty with enums := [enum] }
  let ofOneof : Schema.File := { Schema.File.empty with messages := [message] }
  have honce : edge.OffersOnce := by
    refine ImportEdge.offersOnce_of_no_reexports fun target htarget => ?_
    cases htarget
    rfl
  have hoffers : edge.Offers dep := ⟨dep, rfl, .refl⟩
  have hvalue : link true path ofValue [edge] =
      .ok ⟨linkedFile path ofValue [edge], linkProblems true path ofValue [edge]⟩ :=
    (link_eq _ _ _ _).trans (if_neg (by decide +kernel))
  have honeof : link true path ofOneof [edge] =
      .ok ⟨linkedFile path ofOneof [edge], linkProblems true path ofOneof [edge]⟩ :=
    (link_eq _ _ _ _).trans (if_neg (by decide +kernel))
  have hnote (mentions : List Mention) (scope : Scope) (hpath : scope.path = path)
      (h : ∃ mention ∈ mentions, scope.meaning? mention = some ⟨["note"], .field, other⟩) :
      scope.Needs mentions edge := by
    obtain ⟨mention, hmention, hmeaning⟩ := h
    exact ⟨mention, hmention, _, hmeaning, by rw [hpath]; decide, dep, hoffers, rfl⟩
  refine ⟨path, edge, ofValue, ofOneof, honce, fun tree htree => ?_⟩
  rcases List.mem_pair.mp htree with rfl | rfl
  · exact ⟨hnote _ _ rfl (by decide +kernel), by decide, rfl, _, hvalue, by decide +kernel⟩
  · exact ⟨hnote _ _ rfl (by decide +kernel), by decide, rfl, _, honeof, by decide +kernel⟩

end ProtoSchema.Linked
