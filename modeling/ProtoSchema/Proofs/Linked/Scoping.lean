import ProtoSchema.Proofs.Linked.Supply

/-!
The rule by which a name is understood, told without a search. A file knows its own symbols
and, where it has none of the name, those of the first visible file that has one. A relative
name is read in the longest of the scopes around the place in which its first part will do: a
name of one part must be known there, as a type where only types are wanted; the first part of
a longer name must be known there as something that holds names, and the rest is then looked
for inside it and nowhere else.
-/

namespace ProtoSchema.Linked

def Tells (table : SymbolTable) (name : DottedName) (kind : SymbolKind) : Prop :=
  ∃ front back, table = front ++ (name, kind) :: back ∧ ∀ entry ∈ front, entry.1 ≠ name

theorem find?_eq_some_iff_tells {table : SymbolTable} {name : DottedName} {kind : SymbolKind} :
    (table.find? (·.1 = name)).map (·.2) = some kind ↔ Tells table name kind := by
  constructor
  · intro h
    obtain ⟨⟨other, kind⟩, hfind, rfl⟩ := Option.map_eq_some_iff.mp h
    obtain ⟨hname, front, back, htable, hfront⟩ := List.find?_eq_some_iff_append.mp hfind
    obtain rfl : other = name := by simpa using hname
    exact ⟨front, back, htable, fun entry hentry => by simpa using hfront entry hentry⟩
  · rintro ⟨front, back, rfl, hfront⟩
    refine Option.map_eq_some_iff.mpr ⟨(name, kind), List.find?_eq_some_iff_append.mpr ?_, rfl⟩
    exact ⟨by simp, front, back, rfl, fun entry hentry => by simpa using hfront entry hentry⟩

theorem find?_eq_none_iff_tells {table : SymbolTable} {name : DottedName} :
    table.find? (·.1 = name) = none ↔ ∀ kind, ¬Tells table name kind := by
  simp only [← find?_eq_some_iff_tells]
  cases table.find? (·.1 = name) with
  | none => simp
  | some entry => simp

structure Longest (place : DottedName) (P : DottedName → Prop) (candidate : DottedName) :
    Prop where
  encloses : candidate <+: place
  holds : P candidate
  longest : ∀ other, other <+: place → P other → other <+: candidate

/-- The scopes are gone through from the longest on. -/
theorem longest_iff {place candidate : DottedName} {P : DottedName → Prop} :
    Longest place P candidate ↔ ∃ inner outer, enclosing place = inner ++ candidate :: outer ∧
      (∀ scope ∈ inner, ¬P scope) ∧ P candidate := by
  have hpairwise := enclosing_pairwise place
  constructor
  · rintro ⟨hencloses, hholds, hlongest⟩
    obtain ⟨inner, outer, hplaces⟩ := List.append_of_mem (mem_enclosing.mpr hencloses)
    refine ⟨inner, outer, hplaces, fun scope hscope h => ?_, hholds⟩
    rw [hplaces, List.pairwise_append] at hpairwise
    obtain ⟨houter, hne⟩ := hpairwise.2.2 scope hscope candidate List.mem_cons_self
    have hinside := hlongest scope (mem_enclosing.mp (hplaces ▸ List.mem_append_left _ hscope)) h
    exact hne (houter.eq_of_length_le hinside.length_le)
  · rintro ⟨inner, outer, hplaces, hinner, hholds⟩
    refine ⟨mem_enclosing.mp (hplaces ▸ List.mem_append_right _ List.mem_cons_self), hholds,
      fun other hother h => ?_⟩
    rw [hplaces, List.pairwise_append, List.pairwise_cons] at hpairwise
    have hmem := mem_enclosing.mpr hother
    rw [hplaces, List.mem_append, List.mem_cons] at hmem
    rcases hmem with hmem | rfl | hmem
    · exact absurd h (hinner other hmem)
    · exact List.prefix_rfl
    · exact (hpairwise.2.1.1 other hmem).1

/-- No two scopes are the longest. -/
theorem Longest.unique {place candidate other : DottedName} {P : DottedName → Prop}
    (h : Longest place P candidate) (hother : Longest place P other) : candidate = other := by
  have hle := (hother.longest candidate h.encloses h.holds).length_le
  exact ((h.longest other hother.encloses hother.holds).eq_of_length_le hle).symm

namespace Scope

variable {scope : Scope} {name : DottedName} {found : Found}

/-- What the file knows by the full name: its own symbol or, if it has none, that of the first
visible file with one. -/
inductive Finds (scope : Scope) (name : DottedName) : Found → Prop
  | own {kind : SymbolKind} (htells : Tells scope.own name kind) :
      Finds scope name ⟨name, kind, scope.path⟩
  | visible {front back : List Exposed} {exposed : Exposed} {kind : SymbolKind}
      (hown : ∀ kind, ¬Tells scope.own name kind)
      (hvisible : scope.visible = front ++ exposed :: back)
      (hfront : ∀ nearer ∈ front, ∀ kind, ¬Tells nearer.file.symbols name kind)
      (htells : Tells exposed.file.symbols name kind) :
      Finds scope name ⟨name, kind, exposed.file.path⟩

theorem lookup?_eq_some_iff_finds : scope.lookup? name = some found ↔ scope.Finds name found := by
  unfold lookup?
  constructor
  · intro h
    cases hown : scope.own.find? (·.1 = name) with
    | some entry =>
      rw [hown] at h
      cases h
      exact .own (find?_eq_some_iff_tells.mp (by rw [hown]; rfl))
    | none =>
      rw [hown] at h
      obtain ⟨front, exposed, back, hvisible, hsome, hfront⟩ := List.findSome?_eq_some_iff.mp h
      obtain ⟨kind, hsymbol, rfl⟩ := Option.map_eq_some_iff.mp hsome
      refine .visible (find?_eq_none_iff_tells.mp hown) hvisible (fun nearer hnearer => ?_)
        (find?_eq_some_iff_tells.mp hsymbol)
      have hnone := Option.map_eq_none_iff.mp (hfront nearer hnearer)
      exact find?_eq_none_iff_tells.mp (Option.map_eq_none_iff.mp hnone)
  · intro h
    cases h with
    | own htells =>
      obtain ⟨entry, hfind, rfl⟩ := Option.map_eq_some_iff.mp (find?_eq_some_iff_tells.mpr htells)
      rw [hfind]
    | @visible front back exposed kind hown hvisible hfront htells =>
      rw [find?_eq_none_iff_tells.mpr hown]
      refine List.findSome?_eq_some_iff.mpr
        ⟨front, exposed, back, hvisible, ?_, fun nearer hn => ?_⟩
      · exact Option.map_eq_some_iff.mpr ⟨kind, find?_eq_some_iff_tells.mpr htells, rfl⟩
      · unfold File.symbol?
        rw [find?_eq_none_iff_tells.mpr (hfront nearer hn)]
        rfl

def FindsAs (scope : Scope) (suits : SymbolKind → Prop) (name : DottedName) : Prop :=
  ∃ found, scope.Finds name found ∧ suits found.kind

def Final (typesOnly : Bool) (kind : SymbolKind) : Prop :=
  typesOnly = true → kind = .message ∨ kind = .enum

def Holds (kind : SymbolKind) : Prop :=
  kind = .package ∨ kind = .message ∨ kind = .enum ∨ kind = .service

inductive Means (scope : Scope) (place : DottedName) (typesOnly : Bool) :
    TypeName → Found → Prop
  | absolute {name : DottedName} {found : Found} (hfinds : scope.Finds name found) :
      Means scope place typesOnly ⟨true, name⟩ found
  | simple {name : String} {around : DottedName} {found : Found}
      (hlongest : Longest place
        (fun candidate => scope.FindsAs (Final typesOnly) (candidate.member name)) around)
      (hfinds : scope.Finds (around.member name) found) :
      Means scope place typesOnly ⟨false, [name]⟩ found
  | compound {first : String} {rest around : DottedName} {found : Found} (hrest : rest ≠ [])
      (hlongest : Longest place
        (fun candidate => scope.FindsAs Holds (candidate.member first)) around)
      (hfinds : scope.Finds (around ++ first :: rest) found) :
      Means scope place typesOnly ⟨false, first :: rest⟩ found

variable {typesOnly : Bool} {first : String} {rest : DottedName}

def Ends (typesOnly : Bool) (rest : DottedName) (kind : SymbolKind) : Prop :=
  if rest = [] then Final typesOnly kind else Holds kind

theorem ends_nil : Ends typesOnly [] = Final typesOnly := funext fun _ => if_pos rfl

theorem ends_of_ne_nil (hrest : rest ≠ []) : Ends typesOnly rest = Holds :=
  funext fun _ => if_neg hrest

theorem isType_iff {kind : SymbolKind} :
    kind.isType = true ↔ kind = .message ∨ kind = .enum := by
  cases kind <;> simp [SymbolKind.isType]

theorem isAggregate_iff_holds {kind : SymbolKind} : kind.isAggregate = true ↔ Holds kind := by
  cases kind <;> simp [SymbolKind.isAggregate, Holds]

theorem ends_iff_closes {kind : SymbolKind} :
    Ends typesOnly rest kind ↔ Closes typesOnly rest kind := by
  rw [Ends, Final, Closes, isType_iff, isAggregate_iff_holds]

/-- At a scope in which the first part will do, the whole name is looked up and nothing else. -/
theorem searchOutward_of_ends {place : DottedName} {outer : List DottedName}
    (h : scope.FindsAs (Ends typesOnly rest) (place.member first)) :
    scope.searchOutward typesOnly first rest (place :: outer) =
      scope.lookup? (place ++ first :: rest) := by
  obtain ⟨found, hfinds, hends⟩ := h
  exact searchOutward_of_closes (lookup?_eq_some_iff_finds.mpr hfinds) (ends_iff_closes.mp hends)

/-- Elsewhere it goes on to the next scope. -/
theorem searchOutward_of_not_ends {place : DottedName} {outer : List DottedName}
    (h : ¬scope.FindsAs (Ends typesOnly rest) (place.member first)) :
    scope.searchOutward typesOnly first rest (place :: outer) =
      scope.searchOutward typesOnly first rest outer :=
  searchOutward_of_not_closes fun found hfound hcloses =>
    h ⟨found, lookup?_eq_some_iff_finds.mp hfound, ends_iff_closes.mpr hcloses⟩

/-- The search ends at the first scope in which the first part will do. -/
theorem searchOutward_eq_some_iff {places : List DottedName} :
    scope.searchOutward typesOnly first rest places = some found ↔
      ∃ inner around outer, places = inner ++ around :: outer ∧
        (∀ place ∈ inner, ¬scope.FindsAs (Ends typesOnly rest) (place.member first)) ∧
        scope.FindsAs (Ends typesOnly rest) (around.member first) ∧
        scope.Finds (around ++ first :: rest) found := by
  induction places with
  | nil =>
    rw [searchOutward]
    simp
  | cons place outer ih =>
    by_cases hends : scope.FindsAs (Ends typesOnly rest) (place.member first)
    · rw [searchOutward_of_ends hends, lookup?_eq_some_iff_finds]
      constructor
      · exact fun hfinds => ⟨[], place, outer, rfl, by simp, hends, hfinds⟩
      · rintro ⟨inner, around, outer', hplaces, hinner, _, hfinds⟩
        cases inner with
        | nil =>
          obtain ⟨rfl, _⟩ := List.cons.inj hplaces
          exact hfinds
        | cons nearest inner =>
          obtain ⟨rfl, _⟩ := List.cons.inj hplaces
          exact absurd hends (hinner place List.mem_cons_self)
    · rw [searchOutward_of_not_ends hends, ih]
      constructor
      · rintro ⟨inner, around, outer', rfl, hinner, hrest⟩
        exact ⟨place :: inner, around, outer', rfl, List.forall_mem_cons.mpr ⟨hends, hinner⟩, hrest⟩
      · rintro ⟨inner, around, outer', hplaces, hinner, haround, hfinds⟩
        cases inner with
        | nil =>
          obtain ⟨rfl, _⟩ := List.cons.inj hplaces
          exact absurd haround hends
        | cons nearest inner =>
          obtain ⟨_, rfl⟩ := List.cons.inj hplaces
          exact ⟨inner, around, outer', rfl, fun p hp => hinner p (List.mem_cons_of_mem _ hp),
            haround, hfinds⟩

/-- A relative name is read in the longest scope in which its first part will do. -/
theorem searchOutward_enclosing_eq_some_iff {place : DottedName} :
    scope.searchOutward typesOnly first rest (enclosing place) = some found ↔
      ∃ around, Longest place
          (fun candidate => scope.FindsAs (Ends typesOnly rest) (candidate.member first)) around ∧
        scope.Finds (around ++ first :: rest) found := by
  rw [searchOutward_eq_some_iff]
  simp only [longest_iff]
  constructor
  · rintro ⟨inner, around, outer, hplaces, hinner, haround, hfinds⟩
    exact ⟨around, ⟨inner, outer, hplaces, hinner, haround⟩, hfinds⟩
  · rintro ⟨around, ⟨inner, outer, hplaces, hinner, haround⟩, hfinds⟩
    exact ⟨inner, around, outer, hplaces, hinner, haround, hfinds⟩

/-- A name resolves to what it denotes by the rule, and to nothing where it denotes nothing. -/
theorem resolve?_eq_some_iff_means (scope : Scope) (name : TypeName) (place : DottedName)
    (typesOnly : Bool) (found : Found) :
    scope.resolve? name place typesOnly = some found ↔
      scope.Means place typesOnly name found := by
  obtain ⟨absolute, parts⟩ := name
  constructor
  · intro h
    cases absolute with
    | true => exact .absolute (lookup?_eq_some_iff_finds.mp h)
    | false =>
      cases parts with
      | nil => cases h
      | cons first rest =>
        obtain ⟨around, hlongest, hfinds⟩ := searchOutward_enclosing_eq_some_iff.mp h
        by_cases hrest : rest = []
        · subst hrest
          rw [ends_nil] at hlongest
          exact .simple hlongest hfinds
        · rw [ends_of_ne_nil hrest] at hlongest
          exact .compound hrest hlongest hfinds
  · intro h
    cases h with
    | absolute hfinds => exact lookup?_eq_some_iff_finds.mpr hfinds
    | @simple first around _ hlongest hfinds =>
      rw [← ends_nil] at hlongest
      exact searchOutward_enclosing_eq_some_iff.mpr ⟨around, hlongest, hfinds⟩
    | @compound first rest around _ hrest hlongest hfinds =>
      rw [← ends_of_ne_nil hrest] at hlongest
      exact searchOutward_enclosing_eq_some_iff.mpr ⟨around, hlongest, hfinds⟩

end Scope

end ProtoSchema.Linked
