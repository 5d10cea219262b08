import Mathlib.Data.List.Nodup
import Mathlib.Data.List.Pairwise
import ProtoSchema.Proofs.Linked.Declaring

/-!
The places at which a file declares something. A place is told by numbers alone: that of the
message among those of its scope, and inside it that of the field, the oneof or the enum, to any
depth. Regions of one scope that stand side by side are counted through. So the list of the
declarations of a file has what stands at each place just once, and has nothing else.
-/

namespace ProtoSchema

namespace Schema

open Linked (Declaration)

/-- A place in a file. The messages of a scope are counted with the bodies of its groups, those
of extend blocks behind the others. -/
inductive Site where
  | package (length : Nat)
  | message (message : Nat)
  | field (message field : Nat)
  | oneof (message oneof : Nat)
  | enum (enum : Nat)
  | enumValue (enum value : Nat)
  | extension (block field : Nat)
  | service (service : Nat)
  | method (service method : Nat)
  | inside (message : Nat) (site : Site)
deriving DecidableEq

inductive Region.DeclaresAt : Region → Site → Declaration → Prop
  | message {region : Region} {message : Message} {i : Nat}
      (hmessage : region.messages[i]? = some message) :
      DeclaresAt region (.message i)
        ⟨region.scope.member message.name, .message, message.position⟩
  | field {region : Region} {message : Message} {field : Field} {i j : Nat}
      (hmessage : region.messages[i]? = some message) (hfield : message.fields[j]? = some field) :
      DeclaresAt region (.field i j)
        ⟨(region.scope.member message.name).member field.name, .field, field.position⟩
  | oneof {region : Region} {message : Message} {oneof : Oneof} {i j : Nat}
      (hmessage : region.messages[i]? = some message) (honeof : message.oneofs[j]? = some oneof) :
      DeclaresAt region (.oneof i j)
        ⟨(region.scope.member message.name).member oneof.name, .oneof, oneof.position⟩
  | enum {region : Region} {enum : Enum} {i : Nat} (henum : region.enums[i]? = some enum) :
      DeclaresAt region (.enum i) ⟨region.scope.member enum.name, .enum, enum.position⟩
  | enumValue {region : Region} {enum : Enum} {value : EnumValue} {i j : Nat}
      (henum : region.enums[i]? = some enum) (hvalue : enum.values[j]? = some value) :
      DeclaresAt region (.enumValue i j)
        ⟨region.scope.member value.name, .enumValue, value.position⟩
  | extension {region : Region} {block : Extend} {field : Field} {i j : Nat}
      (hblock : region.extendBlocks[i]? = some block) (hfield : block.fields[j]? = some field) :
      DeclaresAt region (.extension i j)
        ⟨region.scope.member field.name, .field, field.position⟩
  | inside {region : Region} {message : Message} {i : Nat} {site : Site}
      {declaration : Declaration} (hmessage : region.messages[i]? = some message)
      (h : DeclaresAt (message.region region.scope) site declaration) :
      DeclaresAt region (.inside i site) declaration

/-- What stands at a place of the file. A package is declared with each package around it. -/
inductive File.DeclaresAt (file : File) : Site → Declaration → Prop
  | package {name : DottedName} (hname : name ≠ []) (hscope : name <+: file.scope) :
      file.DeclaresAt (.package name.length) ⟨name, .package, .none⟩
  | service {service : Service} {i : Nat} (hservice : file.services[i]? = some service) :
      file.DeclaresAt (.service i)
        ⟨file.scope.member service.name, .service, service.position⟩
  | method {service : Service} {method : Method} {i j : Nat}
      (hservice : file.services[i]? = some service) (hmethod : service.methods[j]? = some method) :
      file.DeclaresAt (.method i j)
        ⟨(file.scope.member service.name).member method.name, .method, method.position⟩
  | outer {site : Site} {declaration : Declaration}
      (h : file.region.DeclaresAt site declaration) : file.DeclaresAt site declaration

namespace Region

variable {region other : Region} {site : Site} {declaration : Declaration}

def beside (region other : Region) : Region :=
  ⟨region.scope, region.messages ++ other.messages, region.enums ++ other.enums,
    region.extendBlocks ++ other.extendBlocks⟩

def behind (region : Region) : Site → Site
  | .message i => .message (region.messages.length + i)
  | .field i j => .field (region.messages.length + i) j
  | .oneof i j => .oneof (region.messages.length + i) j
  | .enum i => .enum (region.enums.length + i)
  | .enumValue i j => .enumValue (region.enums.length + i) j
  | .extension i j => .extension (region.extendBlocks.length + i) j
  | .inside i site => .inside (region.messages.length + i) site
  | site => site

theorem behind_injective (region : Region) : region.behind.Injective := by
  intro s t h
  cases s <;> cases t <;> simp_all [behind]

theorem not_declaresAt_behind : ¬region.DeclaresAt (region.behind site) declaration := by
  have hbeyond {α : Type} {xs : List α} {i : Nat} {a : α} : ¬xs[xs.length + i]? = some a := by
    simp
  intro h
  cases site with
  | message => cases h with | message hmessage => exact hbeyond hmessage
  | field => cases h with | field hmessage _ => exact hbeyond hmessage
  | oneof => cases h with | oneof hmessage _ => exact hbeyond hmessage
  | enum => cases h with | enum henum => exact hbeyond henum
  | enumValue => cases h with | enumValue henum _ => exact hbeyond henum
  | extension => cases h with | extension hblock _ => exact hbeyond hblock
  | inside => cases h with | inside hmessage _ => exact hbeyond hmessage
  | package => cases h
  | service => cases h
  | method => cases h

theorem getElem?_append_eq_some_iff {α : Type} {xs ys : List α} {i : Nat} {a : α} :
    (xs ++ ys)[i]? = some a ↔ xs[i]? = some a ∨ ∃ j, xs.length + j = i ∧ ys[j]? = some a := by
  rcases Nat.lt_or_ge i xs.length with hless | hmore
  · rw [List.getElem?_append_left hless]
    constructor
    · exact .inl
    · rintro (h | ⟨j, rfl, _⟩)
      · exact h
      · exact absurd hless (by simp)
  · obtain ⟨j, rfl⟩ := Nat.exists_eq_add_of_le hmore
    simp [List.getElem?_append_right]

theorem getElem?_singleton_eq_some_iff {α : Type} {a b : α} {i : Nat} :
    [a][i]? = some b ↔ i = 0 ∧ a = b := by
  rw [List.getElem?_singleton, Option.ite_none_right_eq_some, Option.some.injEq]

/-- The places of two regions side by side are those of the first, and those of the second
counted on. -/
theorem declaresAt_beside_iff (hscope : other.scope = region.scope) :
    (region.beside other).DeclaresAt site declaration ↔
      region.DeclaresAt site declaration ∨
        ∃ place, region.behind place = site ∧ other.DeclaresAt place declaration := by
  obtain ⟨scope, messages, enums, blocks⟩ := region
  obtain ⟨_, more, others, behind⟩ := other
  cases hscope
  constructor
  · intro h
    cases h with
    | message hmessage =>
      rcases getElem?_append_eq_some_iff.mp hmessage with h | ⟨k, rfl, h⟩
      · exact .inl (.message h)
      · exact .inr ⟨.message k, rfl, .message h⟩
    | field hmessage hfield =>
      rcases getElem?_append_eq_some_iff.mp hmessage with h | ⟨k, rfl, h⟩
      · exact .inl (.field h hfield)
      · exact .inr ⟨.field k _, rfl, .field h hfield⟩
    | oneof hmessage honeof =>
      rcases getElem?_append_eq_some_iff.mp hmessage with h | ⟨k, rfl, h⟩
      · exact .inl (.oneof h honeof)
      · exact .inr ⟨.oneof k _, rfl, .oneof h honeof⟩
    | enum henum =>
      rcases getElem?_append_eq_some_iff.mp henum with h | ⟨k, rfl, h⟩
      · exact .inl (.enum h)
      · exact .inr ⟨.enum k, rfl, .enum h⟩
    | enumValue henum hvalue =>
      rcases getElem?_append_eq_some_iff.mp henum with h | ⟨k, rfl, h⟩
      · exact .inl (.enumValue h hvalue)
      · exact .inr ⟨.enumValue k _, rfl, .enumValue h hvalue⟩
    | extension hblock hfield =>
      rcases getElem?_append_eq_some_iff.mp hblock with h | ⟨k, rfl, h⟩
      · exact .inl (.extension h hfield)
      · exact .inr ⟨.extension k _, rfl, .extension h hfield⟩
    | inside hmessage hinside =>
      rcases getElem?_append_eq_some_iff.mp hmessage with h | ⟨k, rfl, h⟩
      · exact .inl (.inside h hinside)
      · exact .inr ⟨.inside k _, rfl, .inside h hinside⟩
  · have hfirst {α : Type} {xs ys : List α} {i : Nat} {a : α} (h : xs[i]? = some a) :
        (xs ++ ys)[i]? = some a := getElem?_append_eq_some_iff.mpr (.inl h)
    have hsecond {α : Type} {xs ys : List α} {i : Nat} {a : α} (h : ys[i]? = some a) :
        (xs ++ ys)[xs.length + i]? = some a := getElem?_append_eq_some_iff.mpr (.inr ⟨i, rfl, h⟩)
    rintro (h | ⟨place, rfl, h⟩)
    · cases h with
      | message hmessage => exact .message (hfirst hmessage)
      | field hmessage hfield => exact .field (hfirst hmessage) hfield
      | oneof hmessage honeof => exact .oneof (hfirst hmessage) honeof
      | enum henum => exact .enum (hfirst henum)
      | enumValue henum hvalue => exact .enumValue (hfirst henum) hvalue
      | extension hblock hfield => exact .extension (hfirst hblock) hfield
      | inside hmessage hinside => exact .inside (hfirst hmessage) hinside
    · cases h with
      | message hmessage => exact .message (hsecond hmessage)
      | field hmessage hfield => exact .field (hsecond hmessage) hfield
      | oneof hmessage honeof => exact .oneof (hsecond hmessage) honeof
      | enum henum => exact .enum (hsecond henum)
      | enumValue henum hvalue => exact .enumValue (hsecond henum) hvalue
      | extension hblock hfield => exact .extension (hsecond hblock) hfield
      | inside hmessage hinside => exact .inside (hsecond hmessage) hinside

end Region

variable {file : File} {region : Region} {site : Site} {declaration : Declaration}

theorem Region.DeclaresAt.declares (h : region.DeclaresAt site declaration)
    (hregion : file.HasRegion region) : file.Declares declaration.name declaration.kind := by
  induction h with
  | message hmessage => exact .message hregion (List.mem_of_getElem? hmessage)
  | field hmessage hfield =>
    exact .field hregion (List.mem_of_getElem? hmessage) (List.mem_of_getElem? hfield)
  | oneof hmessage honeof =>
    exact .oneof hregion (List.mem_of_getElem? hmessage) (List.mem_of_getElem? honeof)
  | enum henum => exact .enum hregion (List.mem_of_getElem? henum)
  | enumValue henum hvalue =>
    exact .enumValue hregion (List.mem_of_getElem? henum) (List.mem_of_getElem? hvalue)
  | extension hblock hfield =>
    exact .extension hregion (List.mem_of_getElem? hblock) (List.mem_of_getElem? hfield)
  | inside hmessage _ ih => exact ih (.inner hregion (List.mem_of_getElem? hmessage))

namespace File

theorem HasRegion.exists_declaresAt (h : file.HasRegion region)
    (hdeclares : region.DeclaresAt site declaration) :
    ∃ place, file.DeclaresAt place declaration := by
  induction h generalizing site with
  | outer => exact ⟨_, .outer hdeclares⟩
  | inner _ hmessage ih =>
    obtain ⟨i, hi⟩ := List.mem_iff_getElem?.mp hmessage
    exact ih (.inside hi hdeclares)

/-- What stands at the places of a file is what it declares. -/
theorem exists_declaresAt_iff {name : DottedName} {kind : Linked.SymbolKind} :
    (∃ site d, file.DeclaresAt site d ∧ d.name = name ∧ d.kind = kind) ↔
      file.Declares name kind := by
  constructor
  · rintro ⟨site, d, hd, rfl, rfl⟩
    cases hd with
    | package hname hscope => exact .package hname hscope
    | service hservice => exact .service (List.mem_of_getElem? hservice)
    | method hservice hmethod =>
      exact .method (List.mem_of_getElem? hservice) (List.mem_of_getElem? hmethod)
    | outer h => exact h.declares .outer
  · have hwithin {region : Region} {site : Site} {d : Declaration} (hregion : file.HasRegion region)
        (hd : region.DeclaresAt site d) :
        ∃ site e, file.DeclaresAt site e ∧ e.name = d.name ∧ e.kind = d.kind := by
      obtain ⟨place, hplace⟩ := hregion.exists_declaresAt hd
      exact ⟨place, d, hplace, rfl, rfl⟩
    intro h
    cases h with
    | package hname hscope => exact ⟨_, _, .package hname hscope, rfl, rfl⟩
    | message hregion hmessage =>
      obtain ⟨i, hi⟩ := List.mem_iff_getElem?.mp hmessage
      exact hwithin hregion (.message hi)
    | field hregion hmessage hfield =>
      obtain ⟨i, hi⟩ := List.mem_iff_getElem?.mp hmessage
      obtain ⟨j, hj⟩ := List.mem_iff_getElem?.mp hfield
      exact hwithin hregion (.field hi hj)
    | oneof hregion hmessage honeof =>
      obtain ⟨i, hi⟩ := List.mem_iff_getElem?.mp hmessage
      obtain ⟨j, hj⟩ := List.mem_iff_getElem?.mp honeof
      exact hwithin hregion (.oneof hi hj)
    | enum hregion henum =>
      obtain ⟨i, hi⟩ := List.mem_iff_getElem?.mp henum
      exact hwithin hregion (.enum hi)
    | enumValue hregion henum hvalue =>
      obtain ⟨i, hi⟩ := List.mem_iff_getElem?.mp henum
      obtain ⟨j, hj⟩ := List.mem_iff_getElem?.mp hvalue
      exact hwithin hregion (.enumValue hi hj)
    | extension hregion hblock hfield =>
      obtain ⟨i, hi⟩ := List.mem_iff_getElem?.mp hblock
      obtain ⟨j, hj⟩ := List.mem_iff_getElem?.mp hfield
      exact hwithin hregion (.extension hi hj)
    | service hservice =>
      obtain ⟨i, hi⟩ := List.mem_iff_getElem?.mp hservice
      exact ⟨_, _, .service hi, rfl, rfl⟩
    | method hservice hmethod =>
      obtain ⟨i, hi⟩ := List.mem_iff_getElem?.mp hservice
      obtain ⟨j, hj⟩ := List.mem_iff_getElem?.mp hmethod
      exact ⟨_, _, .method hi hj, rfl, rfl⟩

end File

end Schema

namespace Linked

open Schema (Region Site)

def Listed {σ : Type} (At : σ → Declaration → Prop) (declarations : List Declaration) : Prop :=
  ∃ pairs : List (σ × Declaration), (pairs.map (·.2)).Perm declarations ∧
    (pairs.map (·.1)).Nodup ∧ ∀ place declaration, At place declaration ↔
      (place, declaration) ∈ pairs

namespace Listed

variable {α σ τ : Type} {At At' : σ → Declaration → Prop} {ds ds' : List Declaration}

theorem congr (h : Listed At ds) (hAt : ∀ place d, At' place d ↔ At place d) : Listed At' ds := by
  obtain ⟨pairs, hperm, hnodup, hpairs⟩ := h
  exact ⟨pairs, hperm, hnodup, fun place d => (hAt place d).trans (hpairs place d)⟩

theorem perm (h : Listed At ds) (hperm : ds.Perm ds') : Listed At ds' := by
  obtain ⟨pairs, hpairs, hrest⟩ := h
  exact ⟨pairs, hpairs.trans hperm, hrest⟩

theorem nil (h : ∀ place d, ¬At place d) : Listed At [] :=
  ⟨[], .refl _, List.nodup_nil, by simp [h]⟩

theorem single (place : σ) (declaration : Declaration) :
    Listed (fun p d => p = place ∧ d = declaration) [declaration] :=
  ⟨[(place, declaration)], .refl _, List.nodup_singleton _, by simp⟩

/-- Other names for the places. -/
theorem move (h : Listed At ds) (place : σ → τ) (hplace : place.Injective) :
    Listed (fun p d => ∃ q, place q = p ∧ At q d) ds := by
  obtain ⟨pairs, hperm, hnodup, hpairs⟩ := h
  refine ⟨pairs.map fun pair => (place pair.1, pair.2), ?_, ?_, fun p d => ?_⟩
  · rwa [List.map_map]
  · have hmoved := hnodup.map hplace
    rwa [List.map_map] at hmoved ⊢
  · rw [List.mem_map]
    constructor
    · rintro ⟨q, rfl, hq⟩
      exact ⟨(q, d), (hpairs q d).mp hq, rfl⟩
    · rintro ⟨⟨q, e⟩, hq, heq⟩
      cases heq
      exact ⟨q, rfl, (hpairs q e).mpr hq⟩

theorem append (h : Listed At ds) (h' : Listed At' ds')
    (hapart : ∀ place d d', At place d → ¬At' place d') :
    Listed (fun place d => At place d ∨ At' place d) (ds ++ ds') := by
  obtain ⟨pairs, hperm, hnodup, hpairs⟩ := h
  obtain ⟨others, hperm', hnodup', hothers⟩ := h'
  refine ⟨pairs ++ others, ?_, ?_, fun place d => ?_⟩
  · rw [List.map_append]
    exact hperm.append hperm'
  · rw [List.map_append, List.nodup_append]
    refine ⟨hnodup, hnodup', ?_⟩
    rintro _ hplace _ hother rfl
    obtain ⟨⟨place, d⟩, hd, rfl⟩ := List.mem_map.mp hplace
    obtain ⟨⟨_, d'⟩, hd', heq⟩ := List.mem_map.mp hother
    cases heq
    exact hapart place d d' ((hpairs _ _).mpr hd) ((hothers _ _).mpr hd')
  · rw [List.mem_append]
    exact or_congr (hpairs place d) (hothers place d)

/-- The items are told apart by their numbers. -/
theorem flatMap {At : α → σ → Declaration → Prop} {f : α → List Declaration}
    (h : ∀ a, Listed (At a) (f a)) (items : List α) :
    Listed (fun (place : Nat × σ) d => ∃ a, items[place.1]? = some a ∧ At a place.2 d)
      (items.flatMap f) := by
  induction items with
  | nil => exact .nil (by simp)
  | cons a rest ih =>
    have hfirst := (h a).move (fun p => ((0, p) : Nat × σ)) fun p q heq => by
      simpa using heq
    have hrest := ih.move (fun p => (p.1 + 1, p.2)) fun p q heq => by
      simpa [Prod.ext_iff] using heq
    refine (hfirst.append hrest ?_).congr ?_
    · rintro _ d d' ⟨p, rfl, _⟩ ⟨q, heq, _⟩
      cases heq
    · rintro ⟨i, p⟩ d
      cases i with
      | zero => simp
      | succ i => simp

theorem map (items : List α) (f : α → Declaration) :
    Listed (fun (i : Nat) d => ∃ a, items[i]? = some a ∧ d = f a) (items.map f) := by
  have hall := (flatMap (fun a => single () (f a)) items).move Prod.fst
    fun p q heq => Prod.ext heq rfl
  rw [← List.map_eq_flatMap] at hall
  exact hall.congr fun i d => by simp

/-- Items with members: each item stands in front of what it has. -/
theorem members {β : Type} {head : α → Declaration} {members : α → List β}
    {f : α → β → Declaration} (one : Nat → τ) (two : Nat → Nat → τ) (hone : one.Injective)
    (htwo : ∀ i j k l, two i j = two k l → i = k ∧ j = l) (hapart : ∀ i j k, one i ≠ two j k)
    (items : List α) : Listed (fun place d => ∃ i a, items[i]? = some a ∧
        (place = one i ∧ d = head a ∨
          ∃ j b, (members a)[j]? = some b ∧ place = two i j ∧ d = f a b))
      (items.flatMap fun a => head a :: (members a).map (f a)) := by
  have hitem (a : α) : Listed _ (head a :: (members a).map (f a)) :=
    (single none (head a)).append
      ((map (members a) (f a)).move some fun i j => Option.some.inj) <| by
        rintro _ d d' ⟨rfl, _⟩ ⟨i, heq, _⟩
        cases heq
  refine ((flatMap hitem items).move
    (fun place => place.2.elim (one place.1) (two place.1)) ?_).congr fun place d => ?_
  · rintro ⟨i, _ | j⟩ ⟨k, _ | l⟩ heq
    · cases hone heq
      rfl
    · exact absurd heq (hapart i k l)
    · exact absurd heq.symm (hapart k i j)
    · obtain ⟨rfl, rfl⟩ := htwo i j k l heq
      rfl
  · constructor
    · rintro ⟨i, a, ha, ⟨rfl, rfl⟩ | ⟨j, b, hb, rfl, rfl⟩⟩
      · exact ⟨(i, none), rfl, a, ha, .inl ⟨rfl, rfl⟩⟩
      · exact ⟨(i, some j), rfl, a, ha, .inr ⟨j, rfl, b, hb, rfl⟩⟩
    · rintro ⟨⟨i, _⟩, rfl, a, ha, ⟨rfl, rfl⟩ | ⟨j, rfl, b, hb, rfl⟩⟩
      · exact ⟨i, a, ha, .inl ⟨rfl, rfl⟩⟩
      · exact ⟨i, a, ha, .inr ⟨j, b, hb, rfl, rfl⟩⟩

theorem beside {region other : Region} (h : Listed region.DeclaresAt ds)
    (h' : Listed other.DeclaresAt ds') (hscope : other.scope = region.scope) :
    Listed (region.beside other).DeclaresAt (ds ++ ds') := by
  refine (h.append (h'.move region.behind region.behind_injective) ?_).congr
    fun place d => Region.declaresAt_beside_iff hscope
  rintro _ d d' hd ⟨place, rfl, _⟩
  exact Region.not_declaresAt_behind hd

theorem mem_iff (h : Listed At ds) {declaration : Declaration} :
    declaration ∈ ds ↔ ∃ place, At place declaration := by
  obtain ⟨pairs, hperm, _, hpairs⟩ := h
  rw [← hperm.mem_iff, List.mem_map]
  constructor
  · rintro ⟨⟨place, d⟩, hd, rfl⟩
    exact ⟨place, (hpairs place d).mpr hd⟩
  · rintro ⟨place, hd⟩
    exact ⟨(place, declaration), (hpairs place declaration).mp hd, rfl⟩

/-- What holds between any two items of the list holds between any two places. -/
theorem pairwise_iff (h : Listed At ds) {R : Declaration → Declaration → Prop} [Std.Symm R] :
    ds.Pairwise R ↔ ∀ place other a b, place ≠ other → At place a → At other b → R a b := by
  obtain ⟨pairs, hperm, hnodup, hpairs⟩ := h
  rw [← hperm.pairwise_iff fun h => Std.Symm.symm _ _ h, List.pairwise_map]
  constructor
  · intro hall place other a b hne ha hb
    have hsymm : Std.Symm fun x y : σ × Declaration => R x.2 y.2 :=
      ⟨fun x y => Std.Symm.symm x.2 y.2⟩
    exact hall.forall ((hpairs _ _).mp ha) ((hpairs _ _).mp hb) fun heq => hne (congrArg (·.1) heq)
  · intro hall
    refine (List.pairwise_map.mp hnodup).imp_of_mem fun {x y} hx hy hne => ?_
    exact hall x.1 y.1 x.2 y.2 hne ((hpairs _ _).mpr hx) ((hpairs _ _).mpr hy)

end Listed

namespace Declaration

variable {file : Schema.File} {declaration : Declaration}

theorem listed_empty (scope : DottedName) : Listed (Region.mk scope [] [] []).DeclaresAt [] := by
  refine .nil fun site d h => ?_
  cases h with
  | message hmessage => cases hmessage
  | field hmessage => cases hmessage
  | oneof hmessage => cases hmessage
  | enum henum => cases henum
  | enumValue henum => cases henum
  | extension hblock => cases hblock
  | inside hmessage => cases hmessage

theorem listed_ofEnums (scope : DottedName) (enums : List Schema.Enum) :
    Listed (Region.mk scope [] enums []).DeclaresAt (enums.flatMap (ofEnum scope)) := by
  refine (Listed.members Site.enum Site.enumValue (fun i j => Site.enum.inj)
    (fun i j k l => Site.enumValue.inj) (fun i j k => by simp) enums).congr fun site d => ?_
  constructor
  · intro h
    cases h with
    | message hmessage => cases hmessage
    | field hmessage => cases hmessage
    | oneof hmessage => cases hmessage
    | enum henum => exact ⟨_, _, henum, .inl ⟨rfl, rfl⟩⟩
    | enumValue henum hvalue => exact ⟨_, _, henum, .inr ⟨_, _, hvalue, rfl, rfl⟩⟩
    | extension hblock => cases hblock
    | inside hmessage => cases hmessage
  · rintro ⟨i, enum, henum, ⟨rfl, rfl⟩ | ⟨j, value, hvalue, rfl, rfl⟩⟩
    · exact .enum henum
    · exact .enumValue henum hvalue

/-- A message whose inside has the declarations of the list. -/
theorem listed_message {scope : DottedName} {message : Schema.Message} {inner : List Declaration}
    (h : Listed (message.region scope).DeclaresAt inner) :
    Listed (Region.mk scope [message] [] []).DeclaresAt
      (⟨scope.member message.name, .message, message.position⟩ ::
        (ofFields (scope.member message.name) message.fields ++
          ofOneofs (scope.member message.name) message.oneofs ++ inner)) := by
  have hself := Listed.single (Site.message 0)
    (⟨scope.member message.name, .message, message.position⟩ : Declaration)
  have hfields := (Listed.map message.fields fun field =>
    ⟨(scope.member message.name).member field.name, .field, field.position⟩).move
    (Site.field 0) fun i j heq => by simpa using heq
  have honeofs := (Listed.map message.oneofs fun oneof =>
    ⟨(scope.member message.name).member oneof.name, .oneof, oneof.position⟩).move
    (Site.oneof 0) fun i j heq => by simpa using heq
  have hinner := h.move (Site.inside 0) fun s t heq => by simpa using heq
  refine (hself.append ((hfields.append honeofs ?_).append hinner ?_) ?_).congr fun site d => ?_
  · rintro _ d d' ⟨i, rfl, _⟩ ⟨j, heq, _⟩
    cases heq
  · rintro _ d d' (⟨i, rfl, _⟩ | ⟨i, rfl, _⟩) ⟨j, heq, _⟩
    · cases heq
    · cases heq
  · rintro _ d d' ⟨rfl, _⟩ ((⟨i, heq, _⟩ | ⟨i, heq, _⟩) | ⟨s, heq, _⟩)
    · cases heq
    · cases heq
    · cases heq
  constructor
  · intro h
    cases h with
    | message hmessage =>
      obtain ⟨rfl, rfl⟩ := Region.getElem?_singleton_eq_some_iff.mp hmessage
      exact .inl ⟨rfl, rfl⟩
    | field hmessage hfield =>
      obtain ⟨rfl, rfl⟩ := Region.getElem?_singleton_eq_some_iff.mp hmessage
      exact .inr (.inl (.inl ⟨_, rfl, _, hfield, rfl⟩))
    | oneof hmessage honeof =>
      obtain ⟨rfl, rfl⟩ := Region.getElem?_singleton_eq_some_iff.mp hmessage
      exact .inr (.inl (.inr ⟨_, rfl, _, honeof, rfl⟩))
    | enum henum => cases henum
    | enumValue henum => cases henum
    | extension hblock => cases hblock
    | inside hmessage hinside =>
      obtain ⟨rfl, rfl⟩ := Region.getElem?_singleton_eq_some_iff.mp hmessage
      exact .inr (.inr ⟨_, rfl, hinside⟩)
  · rintro (⟨rfl, rfl⟩ | (⟨j, rfl, field, hfield, rfl⟩ | ⟨j, rfl, oneof, honeof, rfl⟩) |
      ⟨s, rfl, hinside⟩)
    · exact .message rfl
    · exact .field rfl hfield
    · exact .oneof rfl honeof
    · exact .inside rfl hinside

theorem listed_extensions (scope : DottedName) (block : Schema.Extend) :
    Listed (Region.mk scope [] [] [block]).DeclaresAt (ofFields scope block.fields) := by
  have hfields := (Listed.map block.fields fun field =>
    ⟨scope.member field.name, .field, field.position⟩).move
    (Site.extension 0) fun i j heq => by simpa using heq
  refine hfields.congr fun site d => ?_
  constructor
  · intro h
    cases h with
    | message hmessage => cases hmessage
    | field hmessage => cases hmessage
    | oneof hmessage => cases hmessage
    | enum henum => cases henum
    | enumValue henum => cases henum
    | extension hblock hfield =>
      obtain ⟨rfl, rfl⟩ := Region.getElem?_singleton_eq_some_iff.mp hblock
      exact ⟨_, rfl, _, hfield, rfl⟩
    | inside hmessage => cases hmessage
  · rintro ⟨j, rfl, field, hfield, rfl⟩
    exact .extension rfl hfield

/-- The messages of a region and the bodies of its groups. -/
theorem listed_region {scope : DottedName} {messages : List Schema.Message}
    {enums : List Schema.Enum} {blocks : List Schema.Extend} {ds ds' : List Declaration}
    (hmessages : Listed (Region.mk scope messages [] []).DeclaresAt ds)
    (hblocks : Listed (Region.mk scope (blocks.flatMap (·.groups)) [] blocks).DeclaresAt ds') :
    Listed (Region.mk scope (declaredMessages messages blocks) enums blocks).DeclaresAt
      (ds ++ (enums.flatMap (ofEnum scope) ++ ds')) := by
  have hinner := hmessages.beside ((listed_ofEnums scope enums).beside hblocks rfl) rfl
  simpa only [Region.beside, declaredMessages, List.nil_append, List.append_nil] using hinner

-- The recursion is that of the list: a message, the messages of a scope, its extend blocks.
mutual

theorem listed_ofMessage (scope : DottedName) (message : Schema.Message) :
    Listed (Region.mk scope [message] [] []).DeclaresAt (ofMessage scope message) := by
  match message with
  | ⟨name, fields, oneofs, messages, enums, extendBlocks, options, position⟩ =>
    have hmessages := listed_ofMessages (scope.member name) messages
    have hblocks := listed_ofExtends (scope.member name) extendBlocks
    rw [ofMessage, List.append_assoc _ _ (ofExtends _ _), List.append_assoc _ _ (_ ++ _)]
    exact listed_message (listed_region hmessages hblocks)

theorem listed_ofMessages (scope : DottedName) (messages : List Schema.Message) :
    Listed (Region.mk scope messages [] []).DeclaresAt (ofMessages scope messages) := by
  match messages with
  | [] =>
    rw [ofMessages]
    exact listed_empty scope
  | message :: rest =>
    rw [ofMessages]
    exact (listed_ofMessage scope message).beside (listed_ofMessages scope rest) rfl

theorem listed_ofExtends (scope : DottedName) (blocks : List Schema.Extend) :
    Listed (Region.mk scope (blocks.flatMap (·.groups)) [] blocks).DeclaresAt
      (ofExtends scope blocks) := by
  match blocks with
  | [] =>
    rw [ofExtends]
    exact listed_empty scope
  | ⟨extendee, fields, groups, position⟩ :: rest =>
    rw [ofExtends]
    have hgroups := listed_ofMessages scope groups
    have hblock := (listed_extensions scope ⟨extendee, fields, groups, position⟩).beside hgroups rfl
    exact hblock.beside (listed_ofExtends scope rest) rfl

end

theorem nodup_length_enclosing (scope : DottedName) :
    ((enclosing scope).map List.length).Nodup := by
  induction scope with
  | nil => exact List.nodup_singleton _
  | cons part rest ih =>
    have hlonger := ih.map fun i j => Nat.succ.inj
    rw [List.map_map] at hlonger
    rw [enclosing, List.map_append, List.map_map, List.map_singleton, List.nodup_append]
    refine ⟨hlonger, List.nodup_singleton _, ?_⟩
    rintro n hn _ hnil rfl
    obtain ⟨name, _, rfl⟩ := List.mem_map.mp hn
    cases List.mem_singleton.mp hnil

theorem listed_ofPackage (scope : DottedName) :
    Listed (fun site d => ∃ name, name ≠ [] ∧ name <+: scope ∧ site = Site.package name.length ∧
      d = ⟨name, .package, .none⟩) (ofPackage scope) := by
  refine ⟨(ofPackage scope).map fun d => (.package d.name.length, d), ?_, ?_, fun site d => ?_⟩
  · simp [Function.comp_def]
  · have hlengths := (List.nodup_reverse.mpr (nodup_length_enclosing scope)).map
      fun i j => Site.package.inj
    rw [← List.map_reverse, List.map_map] at hlengths
    rw [ofPackage, List.map_map, List.map_map]
    exact hlengths.sublist ((List.drop_sublist 1 _).map _)
  · simp only [List.mem_map, mem_ofPackage]
    constructor
    · rintro ⟨name, hname, hscope, rfl, rfl⟩
      exact ⟨_, ⟨name, hname, hscope, rfl⟩, rfl⟩
    · rintro ⟨_, ⟨name, hname, hscope, rfl⟩, heq⟩
      cases heq
      exact ⟨name, hname, hscope, rfl, rfl⟩

/-- The list of the declarations of a file has what stands at each place, once. -/
theorem listed_ofFile (file : Schema.File) : Listed file.DeclaresAt (ofFile file) := by
  have hregion : Listed file.region.DeclaresAt _ :=
    listed_region (listed_ofMessages file.scope file.messages)
      (listed_ofExtends file.scope file.extendBlocks)
  have hservices : Listed _ (file.services.flatMap (ofService file.scope)) :=
    Listed.members Site.service Site.method (fun i j => Site.service.inj)
      (fun i j k l => Site.method.inj) (fun i j k => by simp) file.services
  refine (((listed_ofPackage file.scope).append hservices ?_).append hregion ?_).perm ?_ |>.congr
    fun site d => ?_
  · rintro _ d d' ⟨name, _, _, rfl, _⟩ ⟨i, service, _, ⟨heq, _⟩ | ⟨j, method, _, heq, _⟩⟩
    · cases heq
    · cases heq
  · rintro _ d d' (⟨name, _, _, rfl, _⟩ | ⟨i, service, _, ⟨rfl, _⟩ | ⟨j, method, _, rfl, _⟩⟩) h
    · cases h
    · cases h
    · cases h
  · -- The services stand in front of the extend blocks there.
    have hswap (p s m e x : List Declaration) :
        (p ++ s ++ (m ++ (e ++ x))).Perm (p ++ m ++ e ++ s ++ x) := by
      have hperm : (s ++ (m ++ e) ++ x).Perm (m ++ e ++ s ++ x) :=
        List.perm_append_comm.append_right x
      simpa only [List.append_assoc] using hperm.append_left p
    exact hswap _ _ _ _ _
  · constructor
    · intro h
      cases h with
      | package hname hscope => exact .inl (.inl ⟨_, hname, hscope, rfl, rfl⟩)
      | service hservice => exact .inl (.inr ⟨_, _, hservice, .inl ⟨rfl, rfl⟩⟩)
      | method hservice hmethod =>
        exact .inl (.inr ⟨_, _, hservice, .inr ⟨_, _, hmethod, rfl, rfl⟩⟩)
      | outer h => exact .inr h
    · rintro ((⟨name, hname, hscope, rfl, rfl⟩ | ⟨i, service, hservice, ⟨rfl, rfl⟩ |
        ⟨j, method, hmethod, rfl, rfl⟩⟩) | h)
      · exact .package hname hscope
      · exact .service hservice
      · exact .method hservice hmethod
      · exact .outer h

theorem mem_ofFile_iff : declaration ∈ ofFile file ↔
    ∃ site, file.DeclaresAt site declaration := (listed_ofFile file).mem_iff

/-- The list of the declarations of a file has the declared names with their kinds. -/
theorem exists_mem_ofFile_iff {name : DottedName} {kind : SymbolKind} :
    (∃ d ∈ ofFile file, d.name = name ∧ d.kind = kind) ↔ file.Declares name kind := by
  rw [← Schema.File.exists_declaresAt_iff]
  constructor
  · rintro ⟨d, hd, hname⟩
    obtain ⟨site, hsite⟩ := mem_ofFile_iff.mp hd
    exact ⟨site, d, hsite, hname⟩
  · rintro ⟨site, d, hsite, hname⟩
    exact ⟨d, mem_ofFile_iff.mpr ⟨site, hsite⟩, hname⟩

end Declaration

end Linked

end ProtoSchema
