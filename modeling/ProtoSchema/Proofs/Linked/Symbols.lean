import ProtoSchema.Proofs.Linked.Sites

/-!
The symbol table of a file. A declaration is refused when its name is taken: by an earlier
declaration of the file or by a symbol of a visible file, packages apart. A refused name
stays refused, since what took it stays. So a refusal is told exactly when the names at two
places of the file meet, and the table of a file that is linked has each declared name with its
kind.
-/

namespace ProtoSchema.Linked

def BindFault.IsRedefinition (fault : BindFault) : Prop :=
  ∃ name, fault = .defined name ∨ ∃ file, fault = .definedElsewhere name file

namespace Declaration

/-- Both declare the same name, and not both as a package. -/
def Repeats (a b : Declaration) : Prop := a.name = b.name ∧ Clashes a.kind b.kind

instance : Std.Symm fun a b : Declaration => ¬a.Repeats b := by
  refine ⟨?_⟩
  rintro a b hrepeats ⟨hname, hclash⟩
  exact hrepeats ⟨hname.symm, fun hpackages => hclash hpackages.symm⟩

/-- A visible file has a symbol of the name, and not both are packages. -/
def IsTaken (visible : List Exposed) (name : DottedName) (kind : SymbolKind) : Prop :=
  ∃ exposed ∈ visible, ∃ other, exposed.file.symbol? name = some other ∧ Clashes other kind

def FitsIn (table : SymbolTable) (declaration : Declaration) : Prop :=
  ∀ entry ∈ table, entry.1 = declaration.name → ¬Clashes entry.2 declaration.kind

structure Admits (visible : List Exposed) (table : SymbolTable) : Prop where
  nodup : (table.map (·.1)).Nodup
  free : ∀ entry ∈ table, ¬IsTaken visible entry.1 entry.2

variable {visible : List Exposed} {declaration : Declaration} {declarations : List Declaration}
  {table : SymbolTable}

theorem clash?_isSome_iff :
    (declaration.clash? visible).isSome ↔ IsTaken visible declaration.name declaration.kind := by
  simp only [clash?, List.findSome?_isSome_iff, Option.isSome_map, Option.isSome_filter, IsTaken,
    Option.any_eq_true, decide_eq_true_eq]

/-- What is not a package clashes with everything. -/
theorem not_clashes_iff {a b : SymbolKind} : ¬Clashes a b ↔ a = .package ∧ b = .package := by
  rw [Clashes, not_not]

/-- What entering a declaration comes to: its name stands in the table for something else,
or for a package like itself; or it is taken elsewhere; or it is new. -/
inductive Enters (visible : List Exposed) (declaration : Declaration) (table : SymbolTable) :
    SymbolTable × List Problem → Prop
  | repeated (entry : DottedName × SymbolKind) (hmem : entry ∈ table)
      (hname : entry.1 = declaration.name) (hclash : Clashes entry.2 declaration.kind) :
      Enters visible declaration table
        (table, [⟨declaration.position, .defined declaration.name⟩])
  | package (hmem : (declaration.name, declaration.kind) ∈ table)
      (hkind : declaration.kind = .package) : Enters visible declaration table (table, [])
  | taken (file : VirtualPath) (htaken : IsTaken visible declaration.name declaration.kind) :
      Enters visible declaration table
        (table, [⟨declaration.position, .definedElsewhere declaration.name file⟩])
  | entered (hnew : declaration.name ∉ table.map (·.1))
      (hfree : ¬IsTaken visible declaration.name declaration.kind) :
      Enters visible declaration table (table ++ [(declaration.name, declaration.kind)], [])

theorem enters_enter (visible : List Exposed) (declaration : Declaration) (table : SymbolTable) :
    Enters visible declaration table (declaration.enter visible table) := by
  unfold enter
  split
  · next entry hfound =>
    have hmem := List.mem_of_find?_eq_some hfound
    have hname : entry.1 = declaration.name := by simpa using List.find?_some hfound
    split
    · next hclash => exact .repeated entry hmem hname hclash
    · next hclash =>
      obtain ⟨hentry, hkind⟩ := not_clashes_iff.mp hclash
      refine .package ?_ hkind
      rwa [hkind, ← hentry, ← hname]
  · next habsent =>
    have hnew : declaration.name ∉ table.map (·.1) := by
      intro hmem
      obtain ⟨entry, hentry, hname⟩ := List.mem_map.mp hmem
      have := List.find?_eq_none.mp habsent entry hentry
      simp [hname] at this
    split
    · next file hclash =>
      exact .taken file (clash?_isSome_iff.mp (Option.isSome_iff_exists.mpr ⟨file, hclash⟩))
    · next hclash =>
      refine .entered hnew fun htaken => ?_
      rw [← clash?_isSome_iff, hclash] at htaken
      cases htaken

theorem Admits.entered (h : Admits visible table) (hnew : declaration.name ∉ table.map (·.1))
    (hfree : ¬IsTaken visible declaration.name declaration.kind) :
    Admits visible (table ++ [(declaration.name, declaration.kind)]) where
  nodup := by
    rw [List.map_append, List.map_singleton]
    exact List.nodup_append.mpr ⟨h.nodup, List.nodup_singleton _, by
      rintro name hname _ hmem rfl
      rw [List.mem_singleton.mp hmem] at hname
      exact hnew hname⟩
  free entry hentry := by
    rcases List.mem_append.mp hentry with hentry | hentry
    · exact h.free entry hentry
    · rw [List.mem_singleton.mp hentry]
      exact hfree

theorem Admits.enter (h : Admits visible table) (declaration : Declaration) :
    Admits visible (declaration.enter visible table).1 := by
  cases hresult : declaration.enter visible table with
  | mk after problems =>
    have henters := enters_enter visible declaration table
    rw [hresult] at henters
    cases henters with
    | repeated entry hmem hname hclash => exact h
    | package hmem hkind => exact h
    | taken file htaken => exact h
    | entered hnew hfree => exact h.entered hnew hfree

theorem Admits.enterAll (h : Admits visible table) (declarations : List Declaration) :
    Admits visible (enterAll visible declarations table).1 := by
  induction declarations generalizing table with
  | nil => exact h
  | cons declaration rest ih => exact ih (h.enter declaration)

structure Apart (visible : List Exposed) (table : SymbolTable)
    (declarations : List Declaration) : Prop where
  fits : ∀ d ∈ declarations, FitsIn table d
  pairwise : declarations.Pairwise fun a b => ¬Repeats a b
  free : ∀ d ∈ declarations, ¬IsTaken visible d.name d.kind

theorem apart_cons_iff : Apart visible table (declaration :: declarations) ↔
    FitsIn table declaration ∧ ¬IsTaken visible declaration.name declaration.kind ∧
      (∀ d ∈ declarations, ¬Repeats declaration d) ∧ Apart visible table declarations := by
  constructor
  · intro h
    obtain ⟨hfits, hothers⟩ := List.forall_mem_cons.mp h.fits
    obtain ⟨hrepeats, hpairwise⟩ := List.pairwise_cons.mp h.pairwise
    obtain ⟨hfree, hrest⟩ := List.forall_mem_cons.mp h.free
    exact ⟨hfits, hfree, hrepeats, hothers, hpairwise, hrest⟩
  · rintro ⟨hfits, hfree, hrepeats, h⟩
    exact ⟨List.forall_mem_cons.mpr ⟨hfits, h.fits⟩,
      List.pairwise_cons.mpr ⟨hrepeats, h.pairwise⟩, List.forall_mem_cons.mpr ⟨hfree, h.free⟩⟩

theorem apart_entered_iff :
    Apart visible (table ++ [(declaration.name, declaration.kind)]) declarations ↔
      (∀ d ∈ declarations, ¬Repeats declaration d) ∧ Apart visible table declarations := by
  have hfits : (∀ d ∈ declarations, FitsIn (table ++ [(declaration.name, declaration.kind)]) d) ↔
      (∀ d ∈ declarations, ¬Repeats declaration d) ∧ ∀ d ∈ declarations, FitsIn table d := by
    simp only [FitsIn, List.forall_mem_append, List.forall_mem_singleton, Repeats, not_and]
    constructor
    · intro h
      exact ⟨fun d hd => (h d hd).2, fun d hd => (h d hd).1⟩
    · rintro ⟨hlast, hall⟩ d hd
      exact ⟨hall d hd, hlast d hd⟩
  constructor
  · intro h
    exact ⟨(hfits.mp h.fits).1, (hfits.mp h.fits).2, h.pairwise, h.free⟩
  · rintro ⟨hrepeats, h⟩
    exact ⟨hfits.mpr ⟨hrepeats, h.fits⟩, h.pairwise, h.free⟩

/-- A package that is in the table already meets nothing that the table does not meet. -/
theorem apart_package_iff (h : Admits visible table)
    (hmem : (declaration.name, declaration.kind) ∈ table) (hkind : declaration.kind = .package) :
    Apart visible table (declaration :: declarations) ↔ Apart visible table declarations := by
  rw [apart_cons_iff]
  constructor
  · exact fun hall => hall.2.2.2
  · intro hapart
    refine ⟨?_, h.free _ hmem, ?_, hapart⟩
    · intro entry hentry hname
      have hsame : entry = (declaration.name, declaration.kind) :=
        List.inj_on_of_nodup_map h.nodup hentry hmem hname
      rw [hsame, not_clashes_iff]
      exact ⟨hkind, hkind⟩
    · rintro d hd ⟨hname, hclash⟩
      exact hapart.fits d hd _ hmem hname hclash

/-- Entering declarations is without a problem just when no names meet. -/
theorem enterAll_eq_nil_iff (h : Admits visible table) (declarations : List Declaration) :
    (Declaration.enterAll visible declarations table).2 = [] ↔
      Apart visible table declarations := by
  induction declarations generalizing table with
  | nil => exact ⟨fun _ => ⟨by simp, .nil, by simp⟩, fun _ => rfl⟩
  | cons declaration rest ih =>
    have hrest := ih (h.enter declaration)
    have henters := enters_enter visible declaration table
    have hproblems : (Declaration.enterAll visible (declaration :: rest) table).2 =
        (declaration.enter visible table).2 ++
          (Declaration.enterAll visible rest (declaration.enter visible table).1).2 := rfl
    rw [hproblems, List.append_eq_nil_iff, hrest]
    generalize declaration.enter visible table = result at henters
    cases henters with
    | repeated entry hmem hname hclash =>
      simp only [List.cons_ne_nil, false_and, false_iff, apart_cons_iff]
      exact fun hall => hall.1 entry hmem hname hclash
    | package hmem hkind => simp only [true_and, apart_package_iff h hmem hkind]
    | taken file htaken =>
      simp only [List.cons_ne_nil, false_and, false_iff, apart_cons_iff]
      exact fun hall => hall.2.1 htaken
    | entered hnew hfree =>
      have hfits : FitsIn table declaration := by
        intro entry hentry hname
        exact absurd (List.mem_map.mpr ⟨entry, hentry, hname⟩) hnew
      simp only [true_and, apart_entered_iff, apart_cons_iff, hfits, hfree, not_false_eq_true]

/-- When nothing is refused, the table has what was declared. -/
theorem mem_enterAll_iff {name : DottedName} {kind : SymbolKind}
    (hnil : (Declaration.enterAll visible declarations table).2 = []) :
    (name, kind) ∈ (Declaration.enterAll visible declarations table).1 ↔
      (name, kind) ∈ table ∨ ∃ d ∈ declarations, d.name = name ∧ d.kind = kind := by
  induction declarations generalizing table with
  | nil => simp [Declaration.enterAll]
  | cons declaration rest ih =>
    have hproblems : (Declaration.enterAll visible (declaration :: rest) table).2 =
        (declaration.enter visible table).2 ++
          (Declaration.enterAll visible rest (declaration.enter visible table).1).2 := rfl
    rw [hproblems, List.append_eq_nil_iff] at hnil
    refine (ih hnil.2).trans ?_
    have henters := enters_enter visible declaration table
    have hnone := hnil.1
    generalize declaration.enter visible table = result at henters hnone
    cases henters with
    | repeated entry hmem hname hclash => cases hnone
    | package hmem hkind =>
      simp only [List.exists_mem_cons_iff]
      constructor
      · rintro (htable | hrest)
        · exact .inl htable
        · exact .inr (.inr hrest)
      · rintro (htable | ⟨rfl, rfl⟩ | hrest)
        · exact .inl htable
        · exact .inl hmem
        · exact .inr hrest
    | taken file htaken => cases hnone
    | entered hnew hfree =>
      simp only [List.mem_append, List.mem_singleton, Prod.mk.injEq, List.exists_mem_cons_iff,
        or_assoc, eq_comm]

theorem isRedefinition_of_mem_enterAll (declarations : List Declaration) (table : SymbolTable)
    (problem : Problem) (h : problem ∈ (Declaration.enterAll visible declarations table).2) :
    problem.fault.IsRedefinition := by
  induction declarations generalizing table with
  | nil => cases h
  | cons declaration rest ih =>
    rcases List.mem_append.mp h with h | h
    · have hfirst : problem ∈ (declaration.enter visible table).2 := h
      have henters := enters_enter visible declaration table
      generalize declaration.enter visible table = result at henters hfirst
      cases henters with
      | repeated entry hmem hname hclash =>
        cases List.mem_singleton.mp hfirst
        exact ⟨_, .inl rfl⟩
      | package hmem hkind => cases hfirst
      | taken file htaken =>
        cases List.mem_singleton.mp hfirst
        exact ⟨_, .inr ⟨file, rfl⟩⟩
      | entered hnew hfree => cases hfirst
    · exact ih _ h

/-- Entering the declarations of a whole file is refused just when the names at two places meet,
or one is taken. -/
theorem enterAll_ne_nil_iff (file : Schema.File) :
    (Declaration.enterAll visible (ofFile file) []).2 ≠ [] ↔
      (∃ s t a b, s ≠ t ∧ file.DeclaresAt s a ∧ file.DeclaresAt t b ∧ a.Repeats b) ∨
        ∃ s d, file.DeclaresAt s d ∧ IsTaken visible d.name d.kind := by
  have hempty : Admits visible [] := ⟨List.nodup_nil, by simp⟩
  have hpairwise := (listed_ofFile file).pairwise_iff (R := fun a b => ¬a.Repeats b)
  rw [ne_eq, enterAll_eq_nil_iff hempty]
  constructor
  · intro hmeet
    by_contra hnone
    push Not at hnone
    refine hmeet ⟨?_, hpairwise.mpr hnone.1, fun d hd => ?_⟩
    · rintro d _ entry hentry
      cases hentry
    · obtain ⟨site, hsite⟩ := mem_ofFile_iff.mp hd
      exact hnone.2 site d hsite
  · rintro (⟨s, t, a, b, hne, ha, hb, hrepeats⟩ | ⟨s, d, hd, htaken⟩) hapart
    · exact hpairwise.mp hapart.pairwise s t a b hne ha hb hrepeats
    · exact hapart.free d (mem_ofFile_iff.mpr ⟨s, hd⟩) htaken

/-- Names that do not meet are distinct, for every kind but packages. -/
theorem nodup_namesOf {kind : SymbolKind} (hkind : kind ≠ .package)
    (h : declarations.Pairwise fun a b => ¬Repeats a b) : (namesOf kind declarations).Nodup := by
  refine List.pairwise_map.mpr (List.pairwise_filter.mpr (h.imp ?_))
  intro a b hrepeats ha _ hname
  refine hrepeats ⟨hname, fun hpackages => hkind ?_⟩
  rw [← of_decide_eq_true ha]
  exact hpackages.1

end Declaration

open Declaration (IsTaken Repeats namesOf)

variable {warnUnused : Bool} {path : VirtualPath} {declared : Schema.File}
  {imports : List Import}

theorem BindFault.IsRedefinition.isError {problem : Problem} (h : problem.fault.IsRedefinition) :
    problem.IsError := by
  obtain ⟨position, fault⟩ := problem
  obtain ⟨name, rfl | ⟨file, rfl⟩⟩ := h
  · rfl
  · rfl

theorem Problem.BlamesReference.not_isRedefinition {problem : Problem}
    (h : problem.BlamesReference) : ¬problem.fault.IsRedefinition := by
  obtain ⟨position, fault⟩ := problem
  rintro ⟨name, rfl | ⟨file, rfl⟩⟩
  · exact h
  · exact h

theorem Scope.unusedFrom_not_isRedefinition (scope : Scope) (references : List Found)
    (index : Nat) (edges : List Import) (problem : Problem)
    (h : problem ∈ scope.unusedFrom references index edges) : ¬problem.fault.IsRedefinition := by
  obtain ⟨edge, _, rfl⟩ := scope.exists_of_mem_unusedFrom h
  rintro ⟨name, habsurd | ⟨file, habsurd⟩⟩
  · cases habsurd
  · cases habsurd

/-- Among the problems of a file, those about names already defined come from entering its
declarations. -/
theorem exists_isRedefinition_iff (warnUnused : Bool) :
    (∃ problem ∈ linkProblems warnUnused path declared imports, problem.fault.IsRedefinition) ↔
      (Scope.ofFile path declared imports).2 ≠ [] := by
  constructor
  · rintro ⟨problem, hmem, hredefined⟩
    rcases List.mem_append.mp hmem with hmem | hmem
    · rcases List.mem_append.mp hmem with hmem | hmem
      · exact List.ne_nil_of_mem hmem
      · obtain ⟨finding, hfinding, hproblem⟩ := List.mem_filterMap.mp hmem
        cases finding with
        | problem found =>
          cases hproblem
          exact absurd hredefined (Scope.bindFile_only _ _ _ hfinding).1.not_isRedefinition
        | reference found => cases hproblem
    · split at hmem
      · exact absurd hredefined (Scope.unusedFrom_not_isRedefinition _ _ _ _ _ hmem)
      · cases hmem
  · intro hclashes
    obtain ⟨problem, hmem⟩ := List.exists_mem_of_ne_nil _ hclashes
    exact ⟨problem, List.mem_append_left _ (List.mem_append_left _ hmem),
      Declaration.isRedefinition_of_mem_enterAll _ _ _ hmem⟩

/-- A file in which names meet is not linked. -/
theorem link_reports_redefinition_iff :
    (∃ problems, link warnUnused path declared imports = .error problems ∧
      ∃ problem ∈ problems, problem.fault.IsRedefinition) ↔
      (Scope.ofFile path declared imports).2 ≠ [] := by
  rw [← exists_isRedefinition_iff warnUnused, link_eq]
  constructor
  · rintro ⟨problems, hlink, hredefined⟩
    rw [(link_eq_error hlink).1] at hredefined
    exact hredefined
  · rintro ⟨problem, hmem, hredefined⟩
    exact ⟨_, if_pos ⟨problem, hmem, hredefined.isError⟩, problem, hmem, hredefined⟩

/-- In a table without repeated names a name has the kind that stands beside it. -/
theorem find?_eq_iff_mem {table : SymbolTable} (h : (table.map (·.1)).Nodup) {name : DottedName}
    {kind : SymbolKind} :
    (table.find? (·.1 = name)).map (·.2) = some kind ↔ (name, kind) ∈ table := by
  constructor
  · intro hfound
    obtain ⟨entry, hentry, rfl⟩ := Option.map_eq_some_iff.mp hfound
    have hname : entry.1 = name := by simpa using List.find?_some hentry
    rw [← hname]
    exact List.mem_of_find?_eq_some hentry
  · intro hmem
    have hsome : (table.find? (·.1 = name)).isSome :=
      List.find?_isSome.mpr ⟨_, hmem, by simp⟩
    obtain ⟨entry, hentry⟩ := Option.isSome_iff_exists.mp hsome
    have hname : entry.1 = name := by simpa using List.find?_some hentry
    have hsame : entry = (name, kind) :=
      List.inj_on_of_nodup_map h (List.mem_of_find?_eq_some hentry) hmem hname
    rw [hentry, hsame]
    rfl

structure File.Lists (file : File) (kind : SymbolKind) (names : List DottedName) : Prop where
  nodup : names.Nodup
  mem_iff : ∀ name, name ∈ names ↔ file.symbol? name = some kind

/-- The symbol table has no name twice and maps just the declared names to their kinds; the
messages, enums and services stand in it one for one. -/
structure File.SymbolsAgree (file : File) (declared : Schema.File) : Prop where
  nodup : (file.symbols.map (·.1)).Nodup
  symbol?_iff : ∀ name kind, file.symbol? name = some kind ↔ declared.Declares name kind
  messages : file.Lists .message (file.allMessages.map (·.fullName))
  enums : file.Lists .enum (file.allEnums.map (·.fullName))
  services : file.Lists .service (file.services.map (·.fullName))

theorem linkedFile_symbol?_iff (h : (Scope.ofFile path declared imports).2 = [])
    (name : DottedName) (kind : SymbolKind) :
    (linkedFile path declared imports).symbol? name = some kind ↔
      declared.Declares name kind := by
  have hadmits : Declaration.Admits (exposed imports) [] := ⟨List.nodup_nil, by simp⟩
  have htable : (name, kind) ∈ (Scope.ofFile path declared imports).1.own ↔
      (name, kind) ∈ ([] : SymbolTable) ∨
        ∃ d ∈ Declaration.ofFile declared, d.name = name ∧ d.kind = kind :=
    Declaration.mem_enterAll_iff h
  rw [← Declaration.exists_mem_ofFile_iff]
  refine (find?_eq_iff_mem (hadmits.enterAll _).nodup).trans (htable.trans ?_)
  simp only [List.not_mem_nil, false_or]

theorem linkedFile_symbolsAgree (h : (Scope.ofFile path declared imports).2 = []) :
    (linkedFile path declared imports).SymbolsAgree declared := by
  have hadmits : Declaration.Admits (exposed imports) [] := ⟨List.nodup_nil, by simp⟩
  have happart := ((Declaration.enterAll_eq_nil_iff hadmits _).mp h).pairwise
  have hsymbol := linkedFile_symbol?_iff h
  have hnames (kind : SymbolKind) (name : DottedName) :
      name ∈ namesOf kind (Declaration.ofFile declared) ↔
        (linkedFile path declared imports).symbol? name = some kind := by
    rw [hsymbol, Declaration.mem_namesOf, Declaration.exists_mem_ofFile_iff]
  refine ⟨(hadmits.enterAll _).nodup, hsymbol, ⟨?_, ?_⟩, ⟨?_, ?_⟩, ⟨?_, ?_⟩⟩
  · rw [linkedFile_messages]
    exact Declaration.nodup_namesOf (by simp) happart
  · intro name
    rw [linkedFile_messages]
    exact hnames .message name
  · rw [linkedFile_enums.nodup_iff]
    exact Declaration.nodup_namesOf (by simp) happart
  · intro name
    rw [linkedFile_enums.mem_iff]
    exact hnames .enum name
  · rw [linkedFile_services, ← Declaration.namesOf_service_ofServices]
    refine Declaration.nodup_namesOf (by simp) (happart.sublist ?_)
    exact (List.sublist_append_right _ _).trans (List.sublist_append_left _ _)
  · intro name
    rw [linkedFile_services, hsymbol, List.mem_map]
    constructor
    · rintro ⟨service, hservice, rfl⟩
      exact .service hservice
    · intro hdeclared
      cases hdeclared with
      | service hservice => exact ⟨_, hservice, rfl⟩

/-- In a file that is linked no declaration was refused. -/
theorem clashes_eq_nil_of_link {outcome : Outcome}
    (h : link warnUnused path declared imports = .ok outcome) :
    (Scope.ofFile path declared imports).2 = [] := by
  by_contra hclashes
  obtain ⟨problem, hmem, hredefined⟩ := (exists_isRedefinition_iff warnUnused).mpr hclashes
  exact (link_eq_ok h).2 problem hmem hredefined.isError

theorem symbolsAgree_of_link {outcome : Outcome}
    (h : link warnUnused path declared imports = .ok outcome) :
    outcome.file.SymbolsAgree declared := by
  rw [(link_eq_ok h).1]
  exact linkedFile_symbolsAgree (clashes_eq_nil_of_link h)

/-- A name is reported as already defined just when what stands at two places of the file meets
in it, or what stands at some place meets a symbol of a visible file. A file that is linked has
the declared names in its symbol table, and has its messages, enums and services under them. -/
theorem symbols_unique_and_declared (warnUnused : Bool) (path : VirtualPath)
    (declared : Schema.File) (imports : List Import) :
    ((∃ problems, link warnUnused path declared imports = .error problems ∧
        ∃ problem ∈ problems, problem.fault.IsRedefinition) ↔
      (∃ s t a b, s ≠ t ∧ declared.DeclaresAt s a ∧ declared.DeclaresAt t b ∧ a.Repeats b) ∨
        ∃ s d, declared.DeclaresAt s d ∧ IsTaken (exposed imports) d.name d.kind) ∧
    (∀ name kind, (∃ s d, declared.DeclaresAt s d ∧ d.name = name ∧ d.kind = kind) ↔
      declared.Declares name kind) ∧
    ∀ outcome, link warnUnused path declared imports = .ok outcome →
      outcome.file.SymbolsAgree declared := by
  exact ⟨link_reports_redefinition_iff.trans (Declaration.enterAll_ne_nil_iff declared),
    fun name kind => Schema.File.exists_declaresAt_iff, fun outcome => symbolsAgree_of_link⟩

/-- A package may come again, as here where an imported file has it too; an enum may not have
the name of a message, nor two fields of a message the same name. -/
theorem symbols_unique_and_declared_package : ∃ (path : VirtualPath)
    (declared clashing twice : Schema.File) (imports : List Import) (outcome : Outcome),
    link true path declared imports = .ok outcome ∧
    outcome.file.symbols =
      [(["p"], .package), (["p", "A"], .message), (["p", "A", "E"], .enum),
        (["p", "A", "X"], .enumValue)] ∧
    outcome.file.SymbolsAgree declared ∧
    (exposed imports).map (·.file.symbols) = [[(["p"], .package)]] ∧
    (∃ problems, link true path clashing imports = .error problems ∧
      ∃ problem ∈ problems, problem.fault.IsRedefinition) ∧
    (∃ problems, link true path twice imports = .error problems ∧
      ∃ problem ∈ problems, problem.fault.IsRedefinition) := by
  let path : VirtualPath := ⟨⟨false, ["a.proto"], by decide⟩, by decide⟩
  let other : VirtualPath := ⟨⟨false, ["b.proto"], by decide⟩, by decide⟩
  let enum (name : String) : Schema.Enum :=
    ⟨name, [⟨"X", 0, [], ⟨3, 3⟩⟩], [], ⟨2, 8⟩⟩
  let field (number : Int) : Schema.Field :=
    ⟨"f", number, none, .single ⟨false, ["int32"]⟩, none, [], ⟨2, 3⟩, ⟨2, 9⟩⟩
  let message (fields : List Schema.Field) (enums : List Schema.Enum) : Schema.Message :=
    ⟨"A", fields, [], [], enums, [], [], ⟨1, 9⟩⟩
  let declared : Schema.File :=
    { Schema.File.empty with package := some ["p"], messages := [message [] [enum "E"]] }
  let clashing : Schema.File := { declared with enums := [enum "A"] }
  let twice : Schema.File := { declared with messages := [message [field 1, field 2] []] }
  let packaged : File :=
    ⟨other, .proto2, some ["p"], [], [], [], [], [], [], [(["p"], .package)], true⟩
  let imports : List Import := [⟨other, .reexport, ⟨1, 1⟩, some packaged⟩]
  have hlink : link true path declared imports =
      .ok ⟨linkedFile path declared imports, linkProblems true path declared imports⟩ :=
    (link_eq _ _ _ _).trans (if_neg (by decide +kernel))
  have hagree := (symbols_unique_and_declared true path declared imports).2.2 _ hlink
  refine ⟨path, declared, clashing, twice, imports, _, hlink, by decide +kernel, hagree,
    by decide +kernel, ?_, ?_⟩
  · refine (symbols_unique_and_declared true path clashing imports).1.mpr (.inl ?_)
    exact ⟨.message 0, .enum 0, _, _, by decide, .outer (.message rfl), .outer (.enum rfl), rfl,
      by decide⟩
  · refine (symbols_unique_and_declared true path twice imports).1.mpr (.inl ?_)
    exact ⟨.field 0 0, .field 0 1, _, _, by decide, .outer (.field rfl rfl),
      .outer (.field rfl rfl), rfl, by decide⟩

end ProtoSchema.Linked
