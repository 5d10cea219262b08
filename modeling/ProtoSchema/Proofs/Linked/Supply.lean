import ProtoSchema.Proofs.Linked.References

/-!
Scopes that know less. A scope is supplied with symbols by the file itself and by those that
it sees. Where no two files supply one name, but for packages, and no file has a name without
what stands around it, a name that means something in a scope means the same in every scope
that knows less of the others' names, as long as what it means is known there. Otherwise it
means nothing there, or what is found when its last part is read further out.
-/

namespace ProtoSchema.Linked

def FurtherOut (name other : DottedName) : Prop :=
  ∃ outer inner written, inner ≠ [] ∧ written ≠ [] ∧ name = outer ++ inner ++ written ∧
    other = outer ++ written

/-- Each scope is a part of those before it. -/
theorem enclosing_pairwise (place : DottedName) :
    (enclosing place).Pairwise fun inner outer => outer <+: inner ∧ outer ≠ inner := by
  induction place with
  | nil => exact List.pairwise_singleton _ _
  | cons part rest ih =>
    rw [enclosing, List.pairwise_append, List.pairwise_map]
    refine ⟨ih.imp fun h => ?_, List.pairwise_singleton _ _, ?_⟩
    · exact ⟨List.cons_prefix_cons.mpr ⟨rfl, h.1⟩, by simpa using h.2⟩
    · intro inner hinner outer houter
      obtain ⟨scope, _, rfl⟩ := List.mem_map.mp hinner
      rw [List.mem_singleton.mp houter]
      exact ⟨List.nil_prefix, (List.cons_ne_nil _ _).symm⟩

namespace Scope

variable {scope small large : Scope} {name : DottedName} {kind other : SymbolKind}
  {file path : VirtualPath} {found : Found}

def Supplies (scope : Scope) (name : DottedName) (kind : SymbolKind) (file : VirtualPath) :
    Prop :=
  (scope.own.find? (·.1 = name)).map (·.2) = some kind ∧ file = scope.path ∨
    ∃ exposed ∈ scope.visible, exposed.file.symbol? name = some kind ∧
      file = exposed.file.path

theorem supplies_of_lookup? (h : scope.lookup? name = some found) :
    scope.Supplies name found.kind found.file := by
  unfold lookup? at h
  split at h
  · next entry hown =>
    cases h
    exact .inl ⟨by rw [hown]; rfl, rfl⟩
  · obtain ⟨exposed, hexposed, hfound⟩ := List.exists_of_findSome?_eq_some h
    obtain ⟨kind, hsymbol, rfl⟩ := Option.map_eq_some_iff.mp hfound
    exact .inr ⟨exposed, hexposed, hsymbol, rfl⟩

theorem exists_lookup?_of_supplies (h : scope.Supplies name kind file) :
    ∃ found, scope.lookup? name = some found := by
  unfold lookup?
  cases hown : scope.own.find? (·.1 = name) with
  | some entry => exact ⟨_, rfl⟩
  | none =>
    rcases h with ⟨hsome, _⟩ | ⟨exposed, hexposed, hsymbol, _⟩
    · rw [hown] at hsome
      cases hsome
    · refine Option.isSome_iff_exists.mp (List.findSome?_isSome_iff.mpr ⟨exposed, hexposed, ?_⟩)
      rw [hsymbol]
      rfl

def Once (scope : Scope) : Prop :=
  ∀ name kind other file path, scope.Supplies name kind file → scope.Supplies name other path →
    kind = other ∧ file = path ∨ kind = .package ∧ other = .package

def Nested (scope : Scope) : Prop :=
  ∀ outer inner kind file, scope.Supplies (outer ++ inner) kind file → outer ≠ [] →
    inner ≠ [] → ∃ kind, scope.Supplies outer kind file ∧ kind.isAggregate = true

def Within (small large : Scope) : Prop :=
  ∀ name kind file, small.Supplies name kind file → large.Supplies name kind file

theorem Once.kind_eq (h : scope.Once) (hkind : scope.Supplies name kind file)
    (hother : scope.Supplies name other path) : kind = other := by
  rcases h name kind other file path hkind hother with ⟨heq, _⟩ | ⟨rfl, rfl⟩
  · exact heq
  · rfl

/-- What both know of a name is the same. -/
theorem Within.lookup?_eq (h : small.Within large) (honce : large.Once) {hit : Found}
    (hlarge : large.lookup? name = some found) (hsmall : small.lookup? name = some hit)
    (hkind : found.kind ≠ .package) : hit = found := by
  have hsupplied := h name _ _ (supplies_of_lookup? hsmall)
  rcases honce name _ _ _ _ (supplies_of_lookup? hlarge) hsupplied with
    ⟨hkinds, hfiles⟩ | ⟨hpackage, _⟩
  · obtain ⟨name', kind', file'⟩ := hit
    obtain ⟨foundName, foundKind, foundFile⟩ := found
    have hname := name_of_lookup? hsmall
    have hfound := name_of_lookup? hlarge
    simp only at hkinds hfiles hname hfound
    rw [hkinds, hfiles, hname, hfound]
  · exact absurd hpackage hkind

theorem Within.kind_eq (h : small.Within large) (honce : large.Once) {hit : Found}
    (hlarge : large.lookup? name = some found) (hsmall : small.lookup? name = some hit) :
    hit.kind = found.kind :=
  honce.kind_eq (h name _ _ (supplies_of_lookup? hsmall)) (supplies_of_lookup? hlarge)

def suits (rest : DottedName) (kind : SymbolKind) : Bool :=
  if rest = [] then kind.isType else kind.isAggregate

def Closes (typesOnly : Bool) (rest : DottedName) (kind : SymbolKind) : Prop :=
  if rest = [] then typesOnly = true → kind.isType = true else kind.isAggregate = true

theorem suits_iff {rest : DottedName} {kind : SymbolKind} :
    suits rest kind = true ↔ Closes true rest kind := by
  unfold suits Closes
  split <;> simp

def Stops (scope : Scope) (first : String) (rest place : DottedName) : Prop :=
  ∃ found, scope.lookup? (place.member first) = some found ∧ suits rest found.kind = true

section Search

variable {first : String} {rest place : DottedName} {places outer : List DottedName} {hit : Found}

/-- Where the first part closes the search the whole name is looked up, and nothing else. -/
theorem searchOutward_of_closes {typesOnly : Bool}
    (hfound : scope.lookup? (place.member first) = some found)
    (hcloses : Closes typesOnly rest found.kind) :
    scope.searchOutward typesOnly first rest (place :: outer) =
      scope.lookup? (place ++ first :: rest) := by
  unfold Closes at hcloses
  rw [searchOutward, hfound]
  by_cases hrest : rest = []
  · rw [if_pos hrest] at hcloses
    subst hrest
    have hfinal : ¬(typesOnly && !found.kind.isType) = true := by simpa using hcloses
    simp only [if_true, if_neg hfinal]
    exact hfound.symm
  · rw [if_neg hrest] at hcloses
    simp only [if_neg hrest, if_pos hcloses]

/-- Elsewhere it goes on further out. -/
theorem searchOutward_of_not_closes {typesOnly : Bool}
    (hpasses : ∀ found, scope.lookup? (place.member first) = some found →
      ¬Closes typesOnly rest found.kind) :
    scope.searchOutward typesOnly first rest (place :: outer) =
      scope.searchOutward typesOnly first rest outer := by
  rw [searchOutward]
  cases hfound : scope.lookup? (place.member first) with
  | none => rfl
  | some found =>
    have hpass := hpasses found hfound
    unfold Closes at hpass
    by_cases hrest : rest = []
    · rw [if_pos hrest, Classical.not_imp] at hpass
      simp only [hrest, hpass.1, hpass.2, Bool.not_false, Bool.and_self, if_true]
    · rw [if_neg hrest] at hpass
      simp only [if_neg hrest, if_neg hpass]

theorem searchOutward_of_stops (h : scope.Stops first rest place) :
    scope.searchOutward true first rest (place :: outer) =
      scope.lookup? (place ++ first :: rest) := by
  obtain ⟨found, hfound, hsuits⟩ := h
  exact searchOutward_of_closes hfound (suits_iff.mp hsuits)

theorem searchOutward_of_not_stops (h : ¬scope.Stops first rest place) :
    scope.searchOutward true first rest (place :: outer) =
      scope.searchOutward true first rest outer :=
  searchOutward_of_not_closes fun found hfound hcloses =>
    h ⟨found, hfound, suits_iff.mpr hcloses⟩

/-- What is found at a place is the whole name, read there. -/
theorem exists_place_of_searchOutward
    (h : scope.searchOutward true first rest places = some found) :
    ∃ place ∈ places, found.name = place ++ first :: rest := by
  induction places with
  | nil => cases h
  | cons place outer ih =>
    by_cases hstops : scope.Stops first rest place
    · rw [searchOutward_of_stops hstops] at h
      exact ⟨place, List.mem_cons_self, name_of_lookup? h⟩
    · rw [searchOutward_of_not_stops hstops] at h
      obtain ⟨further, hfurther, hname⟩ := ih h
      exact ⟨further, List.mem_cons_of_mem _ hfurther, hname⟩

theorem Within.stops (h : small.Within large) (honce : large.Once)
    (hstops : small.Stops first rest place) : large.Stops first rest place := by
  obtain ⟨less, hless, hsuits⟩ := hstops
  obtain ⟨hit, hhit⟩ :=
    exists_lookup?_of_supplies (h _ _ _ (supplies_of_lookup? hless))
  exact ⟨hit, hhit, h.kind_eq honce hhit hless ▸ hsuits⟩

/-- Around a name that both know they stop at the same place. -/
theorem Within.stops_of_known (h : small.Within large) (honce : large.Once)
    (hnested : small.Nested) (hstops : large.Stops first rest place)
    (hknown : small.lookup? (place ++ first :: rest) = some found) :
    small.Stops first rest place := by
  obtain ⟨hit, hhit, hsuits⟩ := hstops
  obtain ⟨less, hless⟩ : ∃ less, small.lookup? (place.member first) = some less := by
    by_cases hrest : rest = []
    · subst hrest
      exact ⟨found, hknown⟩
    · have hsupplied := supplies_of_lookup? hknown
      rw [List.append_cons] at hsupplied
      obtain ⟨kind, haround, _⟩ := hnested _ rest _ _ hsupplied (by simp) hrest
      exact exists_lookup?_of_supplies haround
  exact ⟨less, hless, (h.kind_eq honce hhit hless).symm ▸ hsuits⟩

/-- The search goes the same way past every place where nothing suitable is found, and at the
place where the name was found it is found again. -/
theorem Within.searchOutward_eq (h : small.Within large) (honce : large.Once)
    (hnested : small.Nested)
    (hlarge : large.searchOutward true first rest places = some found)
    (hsmall : small.lookup? found.name = some found) :
    small.searchOutward true first rest places = some found := by
  induction places with
  | nil => cases hlarge
  | cons place outer ih =>
    by_cases hstops : large.Stops first rest place
    · rw [searchOutward_of_stops hstops] at hlarge
      rw [name_of_lookup? hlarge] at hsmall
      rw [searchOutward_of_stops (h.stops_of_known honce hnested hstops hsmall)]
      exact hsmall
    · rw [searchOutward_of_not_stops hstops] at hlarge
      rw [searchOutward_of_not_stops fun hless => hstops (h.stops honce hless)]
      exact ih hlarge

/-- The scope that knows less stops where the other does, or goes on outward from there. -/
theorem Within.searchOutward_furtherOut (h : small.Within large) (honce : large.Once)
    (hplaces : places.Pairwise fun inner outer => outer <+: inner ∧ outer ≠ inner)
    (hlarge : large.searchOutward true first rest places = some found)
    (hsmall : small.searchOutward true first rest places = some hit) :
    hit.name = found.name ∨ FurtherOut found.name hit.name := by
  induction places with
  | nil => cases hlarge
  | cons place outer ih =>
    obtain ⟨hbehind, hpairwise⟩ := List.pairwise_cons.mp hplaces
    by_cases hless : small.Stops first rest place
    · rw [searchOutward_of_stops hless] at hsmall
      rw [searchOutward_of_stops (h.stops honce hless)] at hlarge
      exact .inl ((name_of_lookup? hsmall).trans (name_of_lookup? hlarge).symm)
    · rw [searchOutward_of_not_stops hless] at hsmall
      by_cases hstops : large.Stops first rest place
      · rw [searchOutward_of_stops hstops] at hlarge
        obtain ⟨further, hfurther, hname⟩ := exists_place_of_searchOutward hsmall
        obtain ⟨⟨inner, hinner⟩, hne⟩ := hbehind further hfurther
        refine .inr ⟨further, inner, first :: rest, ?_, List.cons_ne_nil _ _, ?_, hname⟩
        · rintro rfl
          exact hne (by simpa using hinner)
        · rw [name_of_lookup? hlarge, hinner]
      · rw [searchOutward_of_not_stops hstops] at hlarge
        exact ih hpairwise hlarge hsmall

end Search

section Resolving

variable {written : TypeName} {place : DottedName} {hit : Found}

/-- A type that the large scope finds the small one finds as well, if it knows its full name. -/
theorem Within.resolve?_eq (h : small.Within large) (honce : large.Once) (hnested : small.Nested)
    (hlarge : large.resolve? written place true = some found) (hkind : found.kind ≠ .package)
    (hknown : (small.lookup? found.name).isSome = true) :
    small.resolve? written place true = some found := by
  have hlookup := lookup?_of_resolve? hlarge
  obtain ⟨hit, hhit⟩ := Option.isSome_iff_exists.mp hknown
  have hsmall : small.lookup? found.name = some found := by
    rw [hhit, h.lookup?_eq honce hlookup hhit hkind]
  unfold resolve? at hlarge ⊢
  split at hlarge
  · next habsolute =>
    rw [if_pos habsolute, ← name_of_lookup? hlarge]
    exact hsmall
  · next hrelative =>
    rw [if_neg hrelative]
    split at hlarge
    · cases hlarge
    · exact h.searchOutward_eq honce hnested hlarge hsmall

def Rereads (scope : Scope) (name other : DottedName) : Prop :=
  other = name ∨ scope.lookup? name = none ∧ FurtherOut name other

/-- A name means in the small scope what it meant in the large one, or something further out
where that is not known. -/
theorem Within.resolve?_rereads (h : small.Within large) (honce : large.Once)
    (hnested : small.Nested) (hlarge : large.resolve? written place true = some found)
    (hkind : found.kind ≠ .package) (hsmall : small.resolve? written place true = some hit) :
    small.Rereads found.name hit.name := by
  cases hknown : small.lookup? found.name with
  | some known =>
    rw [h.resolve?_eq honce hnested hlarge hkind (by rw [hknown]; rfl)] at hsmall
    cases hsmall
    exact .inl rfl
  | none =>
    unfold resolve? at hlarge hsmall
    by_cases habsolute : written.absolute = true
    · rw [if_pos habsolute] at hlarge hsmall
      exact .inl ((name_of_lookup? hsmall).trans (name_of_lookup? hlarge).symm)
    · rw [if_neg habsolute] at hlarge hsmall
      cases hparts : written.parts with
      | nil =>
        rw [hparts] at hlarge
        cases hlarge
      | cons first rest =>
        rw [hparts] at hlarge hsmall
        refine (h.searchOutward_furtherOut honce (enclosing_pairwise place) hlarge hsmall).imp_right
          fun hfurther => ⟨hknown, hfurther⟩

end Resolving

end Scope

end ProtoSchema.Linked
