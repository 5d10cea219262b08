import ProtoSchema.Proofs.Linked.Supply

/-!
Links with some imports missing. What is left of a file keeps its references as long as what
they mean is still known: a field, an extension or a method with only such references is
there as before. Where something it refers to has gone with a missing file, it is left out,
unless what is written there means something else that is still known further out.
-/

namespace ProtoSchema

namespace Schema.File

open Linked (SymbolKind)

variable {file : File} {region : Region} {name outer inner : DottedName} {kind : SymbolKind}

/-- A scope stands in packages and messages of the file. -/
theorem HasRegion.declares_outer (h : file.HasRegion region) (hleading : outer <+: region.scope)
    (hne : outer ≠ []) : ∃ kind, file.Declares outer kind ∧ kind.isAggregate = true := by
  induction h with
  | outer => exact ⟨.package, .package hne hleading, rfl⟩
  | inner hregion hmessage ih =>
    rcases List.prefix_concat_iff.mp hleading with rfl | hshort
    · exact ⟨.message, .message hregion hmessage, rfl⟩
    · exact ih hshort

theorem prefix_of_append_eq_member {scope : DottedName} {last : String}
    (h : outer ++ inner = scope.member last) (hne : inner ≠ []) : outer <+: scope := by
  have hleading : outer <+: scope ++ [last] := ⟨inner, h⟩
  rcases List.prefix_concat_iff.mp hleading with rfl | hshort
  · exact absurd (List.append_right_eq_self.mp h) hne
  · exact hshort

/-- What stands around a declared name is declared and can hold names. -/
theorem Declares.declares_outer (h : file.Declares name kind) (hname : outer ++ inner = name)
    (houter : outer ≠ []) (hinner : inner ≠ []) :
    ∃ kind, file.Declares outer kind ∧ kind.isAggregate = true := by
  have hwithin {region : Region} {last : String} (hregion : file.HasRegion region)
      (hmember : outer ++ inner = region.scope.member last) :
      ∃ kind, file.Declares outer kind ∧ kind.isAggregate = true :=
    hregion.declares_outer (prefix_of_append_eq_member hmember hinner) houter
  cases h with
  | package _ hscope =>
    have hshort : outer <+: file.scope := (List.prefix_append outer inner).trans (hname ▸ hscope)
    exact ⟨.package, .package houter hshort, rfl⟩
  | message hregion _ => exact hwithin hregion hname
  | field hregion hmessage _ => exact hwithin (.inner hregion hmessage) hname
  | oneof hregion hmessage _ => exact hwithin (.inner hregion hmessage) hname
  | enum hregion _ => exact hwithin hregion hname
  | enumValue hregion _ _ => exact hwithin hregion hname
  | extension hregion _ _ => exact hwithin hregion hname
  | service _ => exact hwithin .outer hname
  | method hservice _ =>
    have hshort := prefix_of_append_eq_member hname hinner
    rcases List.prefix_concat_iff.mp hshort with rfl | hscope
    · exact ⟨.service, .service hservice, rfl⟩
    · exact ⟨.package, .package houter hscope, rfl⟩

end Schema.File

namespace Linked

variable {warnUnused : Bool} {path : VirtualPath} {tree : Schema.File}
  {imports fewer : List Import} {whole part : Outcome} {file : File}

section Scopes

/-- The edge as it is, or without the file that it reached. -/
def ImportEdge.Drops (edge less : Import) : Prop :=
  less = edge ∨ less = { edge with target := none }

/-- No two files that are visible through the imports have a name in common, packages apart. -/
def DeclaredOnce (imports : List Import) : Prop :=
  ∀ f g, Visible imports f → Visible imports g → ∀ name kind other,
    f.symbol? name = some kind → g.symbol? name = some other →
      f = g ∨ kind = .package ∧ other = .package

def ExposedOnce (imports : List Import) : Prop :=
  ∀ a ∈ exposed imports, ∀ b ∈ exposed imports, ∀ name kind other,
    a.file.symbol? name = some kind → b.file.symbol? name = some other →
      a.file = b.file ∨ kind = .package ∧ other = .package

theorem DeclaredOnce.exposedOnce (h : DeclaredOnce imports) : ExposedOnce imports :=
  fun _ ha _ hb => h _ _ (visible_of_mem_exposed ha) (visible_of_mem_exposed hb)

theorem exposedFrom_sublist (h : List.Forall₂ ImportEdge.Drops imports fewer) (index : Nat) :
    (exposedFrom index fewer).Sublist (exposedFrom index imports) := by
  induction h generalizing index with
  | nil => exact .slnil
  | cons hdrops _ ih =>
    rw [exposedFrom, exposedFrom]
    rcases hdrops with rfl | rfl
    · exact (ih (index + 1)).append_left _
    · exact (ih (index + 1)).trans (List.sublist_append_right _ _)

theorem built_of_drops (h : List.Forall₂ ImportEdge.Drops imports fewer)
    (hbuilt : ∀ edge ∈ imports, ∀ target, edge.target = some target → target.Built) :
    ∀ edge ∈ fewer, ∀ target, edge.target = some target → target.Built := by
  induction h with
  | nil => exact List.forall_mem_nil _
  | cons hfirst _ ih =>
    obtain ⟨hedge, hrest⟩ := List.forall_mem_cons.mp hbuilt
    refine List.forall_mem_cons.mpr ⟨fun target htarget => ?_, ih hrest⟩
    rcases hfirst with rfl | rfl
    · exact hedge target htarget
    · cases htarget

/-- Both links know the same names of the file itself. -/
theorem within_ofFile (hdrops : List.Forall₂ ImportEdge.Drops imports fewer)
    (hwhole : link warnUnused path tree imports = .ok whole)
    (hpart : link warnUnused path tree fewer = .ok part) :
    (Scope.ofFile path tree fewer).1.Within (Scope.ofFile path tree imports).1 := by
  have hsymbol := linkedFile_symbol?_iff (clashes_eq_nil_of_link hwhole)
  have hless := linkedFile_symbol?_iff (clashes_eq_nil_of_link hpart)
  rintro name kind file (⟨hown, hfile⟩ | ⟨exposed, hexposed, hvisible⟩)
  · exact .inl ⟨(hsymbol name kind).mpr ((hless name kind).mp hown), hfile⟩
  · exact .inr ⟨exposed, (exposedFrom_sublist hdrops 0).subset hexposed, hvisible⟩

/-- Where no names meet none is taken elsewhere, so what the imports have but once the scope has
but once. -/
theorem once_ofFile (hclashes : (Scope.ofFile path tree imports).2 = [])
    (honce : ExposedOnce imports) : (Scope.ofFile path tree imports).1.Once := by
  have hadmits : Declaration.Admits (exposed imports) [] := ⟨List.nodup_nil, by simp⟩
  have happart := (Declaration.enterAll_eq_nil_iff hadmits _).mp hclashes
  have hfree {name : DottedName} {kind other : SymbolKind} {exposed : Exposed}
      (hown : (linkedFile path tree imports).symbol? name = some kind)
      (hexposed : exposed ∈ Linked.exposed imports)
      (hother : exposed.file.symbol? name = some other) : other = .package ∧ kind = .package := by
    have hdeclares := (linkedFile_symbol?_iff hclashes name kind).mp hown
    obtain ⟨d, hd, rfl, rfl⟩ := Declaration.exists_mem_ofFile_iff.mpr hdeclares
    by_contra hclash
    exact happart.free d hd ⟨exposed, hexposed, other, hother, hclash⟩
  rintro name kind other file place (⟨hown, rfl⟩ | ⟨exposed, hexposed, hkind, rfl⟩)
    (⟨hagain, rfl⟩ | ⟨second, hsecond, hother, rfl⟩)
  · exact .inl ⟨Option.some.inj (hown.symm.trans hagain), rfl⟩
  · obtain ⟨hpackage, hsame⟩ := hfree hown hsecond hother
    exact .inr ⟨hsame, hpackage⟩
  · obtain ⟨hpackage, hsame⟩ := hfree hagain hexposed hkind
    exact .inr ⟨hpackage, hsame⟩
  · rcases honce exposed hexposed second hsecond name kind other hkind hother with heq | hpackages
    · rw [heq] at hkind ⊢
      exact .inl ⟨Option.some.inj (hkind.symm.trans hother), rfl⟩
    · exact .inr hpackages

/-- The symbol table of a built file has what stands around its names. -/
theorem File.Built.exists_outer (h : file.Built) {outer inner : DottedName} {kind : SymbolKind}
    (hsymbol : file.symbol? (outer ++ inner) = some kind) (houter : outer ≠ [])
    (hinner : inner ≠ []) :
    ∃ kind, file.symbol? outer = some kind ∧ kind.isAggregate = true := by
  induction h with
  | link hread hlink _ =>
    have hagree := symbolsAgree_of_link hlink
    have hdeclares := (hagree.symbol?_iff _ kind).mp hsymbol
    obtain ⟨around, haround, haggregate⟩ := hdeclares.declares_outer rfl houter hinner
    exact ⟨around, (hagree.symbol?_iff _ around).mpr haround, haggregate⟩
  | incomplete _ ih => exact ih hsymbol

theorem nested_ofFile (hpart : link warnUnused path tree fewer = .ok part)
    (hbuilt : ∀ edge ∈ fewer, ∀ target, edge.target = some target → target.Built) :
    (Scope.ofFile path tree fewer).1.Nested := by
  have hsymbol := linkedFile_symbol?_iff (clashes_eq_nil_of_link hpart)
  rintro outer inner kind file (⟨hown, rfl⟩ | ⟨exposed, hexposed, hkind, rfl⟩) houter hinner
  · obtain ⟨around, haround, haggregate⟩ :=
      ((hsymbol _ kind).mp hown).declares_outer rfl houter hinner
    exact ⟨around, .inl ⟨(hsymbol _ around).mpr haround, rfl⟩, haggregate⟩
  · have hfile := File.built_of_visible hbuilt (visible_of_mem_exposed hexposed)
    obtain ⟨around, haround, haggregate⟩ := hfile.exists_outer hkind houter hinner
    exact ⟨around, .inr ⟨exposed, hexposed, haround, rfl⟩, haggregate⟩

end Scopes

/-- The items that stay are in both lists, the same and in the same order; of the others some
are in the second list too, told to be twins of those in the first. -/
inductive Thins {β : Type} (Stays : β → Prop) (Twin : β → β → Prop) : List β → List β → Prop
  | nil : Thins Stays Twin [] []
  | keep {b c : β} {items others : List β} (htwin : Twin b c) (hsame : Stays b → c = b)
      (h : Thins Stays Twin items others) : Thins Stays Twin (b :: items) (c :: others)
  | drop {b : β} {items others : List β} (hgone : ¬Stays b)
      (h : Thins Stays Twin items others) : Thins Stays Twin (b :: items) others

namespace Thins

variable {α β γ : Type} {Stays : β → Prop} {Twin : β → β → Prop}

theorem append {items others more rest : List β} (h : Thins Stays Twin items others)
    (hmore : Thins Stays Twin more rest) : Thins Stays Twin (items ++ more) (others ++ rest) := by
  induction h with
  | nil => exact hmore
  | keep htwin hsame _ ih => exact .keep htwin hsame ih
  | drop hgone _ ih => exact .drop hgone ih

theorem flatMap {R : γ → γ → Prop} {f : γ → List β} {items others : List γ}
    (h : List.Forall₂ R items others) (hf : ∀ a b, R a b → Thins Stays Twin (f a) (f b)) :
    Thins Stays Twin (items.flatMap f) (others.flatMap f) := by
  induction h with
  | nil => exact .nil
  | cons hfirst _ ih => exact (hf _ _ hfirst).append ih

/-- Two lists made from the same items, the first from all of them. -/
theorem of_forall₂ {R S : α → β → Prop} {keep : α → Bool} {items : List α} {whole part : List β}
    (hwhole : List.Forall₂ R items whole) (hpart : List.Forall₂ S (items.filter keep) part)
    (htwin : ∀ a b c, R a b → S a c → Twin b c)
    (hstays : ∀ a b, R a b → Stays b → keep a = true ∧ ∀ c, S a c → c = b) :
    Thins Stays Twin whole part := by
  induction hwhole generalizing part with
  | nil =>
    cases hpart
    exact .nil
  | @cons a b _ _ hfirst _ ih =>
    by_cases hkeep : keep a = true
    · rw [List.filter_cons_of_pos hkeep] at hpart
      cases hpart with
      | cons hsecond hrest =>
        exact .keep (htwin _ _ _ hfirst hsecond)
          (fun hb => (hstays _ _ hfirst hb).2 _ hsecond) (ih hrest)
    · rw [List.filter_cons_of_neg hkeep] at hpart
      exact .drop (fun hb => hkeep (hstays _ _ hfirst hb).1) (ih hpart)

end Thins

section References

def ValueType.reference? : ValueType → Option DottedName
  | .scalar _ => none
  | .message name _ | .enum name _ => some name

def Field.references (field : Field) : List DottedName :=
  field.type.valueType.reference?.toList ++ field.extendee.toList

def Method.references (method : Method) : List DottedName := [method.input, method.output]

variable {small large : Scope} {place : DottedName} {name : TypeName}

def Scope.Knows (scope : Scope) (names : List DottedName) : Prop :=
  ∀ name ∈ names, (scope.lookup? name).isSome = true

/-- The scope that knows less gives a name the same type, if it knows the type. -/
theorem Scope.Within.denotes (h : small.Within large) (honce : large.Once)
    (hnested : small.Nested) {type : ValueType} (hlarge : large.Denotes place name type)
    (hknows : small.Knows type.reference?.toList) : small.Denotes place name type := by
  cases hlarge with
  | scalar hscalar => exact .scalar hscalar
  | message hscalar hresolve =>
    exact .message hscalar
      (h.resolve?_eq honce hnested hresolve (by simp) (hknows _ List.mem_cons_self))
  | enum hscalar hresolve =>
    exact .enum hscalar
      (h.resolve?_eq honce hnested hresolve (by simp) (hknows _ List.mem_cons_self))

theorem Scope.Within.denotesMessage (h : small.Within large) (honce : large.Once)
    (hnested : small.Nested) {fullName : DottedName}
    (hlarge : large.DenotesMessage place name fullName) (hknows : small.Knows [fullName]) :
    small.DenotesMessage place name fullName := by
  obtain ⟨file, hresolve⟩ := hlarge
  exact ⟨file, h.resolve?_eq honce hnested hresolve (by simp) (hknows _ List.mem_cons_self)⟩

theorem Scope.Denotes.unique {type other : ValueType} (h : small.Denotes place name type)
    (hother : small.Denotes place name other) : other = type := by
  cases h <;> cases hother <;> simp_all

theorem Scope.DenotesMessage.unique {fullName other : DottedName}
    (h : small.DenotesMessage place name fullName)
    (hother : small.DenotesMessage place name other) : other = fullName := by
  obtain ⟨file, hresolve⟩ := h
  obtain ⟨_, hagain⟩ := hother
  rw [hresolve] at hagain
  cases hagain
  rfl

theorem Scope.Denotes.keepsType {type : ValueType} (h : small.Denotes place name type) :
    keepsType small.resolves place name = true := by
  unfold Linked.keepsType Scope.resolves
  cases h with
  | scalar hscalar => simp [hscalar]
  | message _ hresolve => simp [hresolve]
  | enum _ hresolve => simp [hresolve]

/-- The types of two fields made from one declaration. -/
theorem Scope.Within.denotesType (h : small.Within large) (honce : large.Once)
    (hnested : small.Nested) {declared : Schema.Field} {type : FieldType}
    (hlarge : large.DenotesType place declared.type type)
    (hknows : small.Knows type.valueType.reference?.toList) :
    keepsField small.resolves place declared = true ∧
      ∀ other, small.DenotesType place declared.type other → other = type := by
  unfold keepsField
  generalize declared.type = written at hlarge ⊢
  cases hlarge with
  | single hdenotes =>
    have hsmall := h.denotes honce hnested hdenotes hknows
    refine ⟨hsmall.keepsType, fun other hother => ?_⟩
    cases hother with
    | single hagain => rw [hsmall.unique hagain]
  | map hkey hdenotes =>
    have hsmall := h.denotes honce hnested hdenotes hknows
    refine ⟨hsmall.keepsType, fun other hother => ?_⟩
    cases hother with
    | map hagainKey hagain =>
      rw [hkey] at hagainKey
      cases hagainKey
      rw [hsmall.unique hagain]

def FieldType.holding (value : ValueType) : FieldType → FieldType
  | .single _ => .single value
  | .map key _ => .map key value

theorem FieldType.holding_valueType (type : FieldType) : type.holding type.valueType = type := by
  cases type <;> rfl

structure Field.Twin (scope : Scope) (field other : Field) : Prop where
  same : other = { field with
    type := field.type.holding other.type.valueType, extendee := other.extendee }
  references : List.Forall₂ scope.Rereads field.references other.references

structure Method.Twin (scope : Scope) (method other : Method) : Prop where
  same : other = { method with input := other.input, output := other.output }
  references : List.Forall₂ scope.Rereads method.references other.references

theorem Scope.Within.rereads (h : small.Within large) (honce : large.Once)
    (hnested : small.Nested) {type other : ValueType} (hlarge : large.Denotes place name type)
    (hsmall : small.Denotes place name other) :
    List.Forall₂ small.Rereads type.reference?.toList other.reference?.toList := by
  have hnames {found hit : Found} (hfound : large.resolve? name place true = some found)
      (hkind : found.kind ≠ .package) (hhit : small.resolve? name place true = some hit) :
      List.Forall₂ small.Rereads [found.name] [hit.name] :=
    .cons (h.resolve?_rereads honce hnested hfound hkind hhit) .nil
  cases hlarge with
  | scalar hscalar =>
    cases hsmall with
    | scalar _ => exact .nil
    | message hnone _ | enum hnone _ => simp [hscalar] at hnone
  | message hnone hresolve | enum hnone hresolve =>
    cases hsmall with
    | scalar hscalar => simp [hscalar] at hnone
    | message _ hhit | enum _ hhit => exact hnames hresolve (by simp) hhit

theorem Scope.Within.rereadsMessage (h : small.Within large) (honce : large.Once)
    (hnested : small.Nested) {fullName other : DottedName}
    (hlarge : large.DenotesMessage place name fullName)
    (hsmall : small.DenotesMessage place name other) : small.Rereads fullName other := by
  obtain ⟨file, hresolve⟩ := hlarge
  obtain ⟨_, hhit⟩ := hsmall
  exact h.resolve?_rereads honce hnested hresolve (by simp) hhit

theorem Scope.Within.rereadsType (h : small.Within large) (honce : large.Once)
    (hnested : small.Nested) {declared : Schema.FieldType} {type other : FieldType}
    (hlarge : large.DenotesType place declared type)
    (hsmall : small.DenotesType place declared other) :
    other = type.holding other.valueType ∧ List.Forall₂ small.Rereads
      type.valueType.reference?.toList other.valueType.reference?.toList := by
  cases hlarge with
  | single hdenotes =>
    cases hsmall with
    | single hagain => exact ⟨rfl, h.rereads honce hnested hdenotes hagain⟩
  | map hkey hdenotes =>
    cases hsmall with
    | map hsame hagain =>
      rw [hkey] at hsame
      cases hsame
      exact ⟨rfl, h.rereads honce hnested hdenotes hagain⟩

theorem Field.Mirrors.twin (h : small.Within large) (honce : large.Once)
    (hnested : small.Nested) {extendee extended : Option DottedName} {declared : Schema.Field}
    {field other : Field} (hfield : field.Mirrors large place extendee declared)
    (hother : other.Mirrors small place extended declared)
    (hextended : List.Forall₂ small.Rereads extendee.toList extended.toList) :
    field.Twin small other := by
  obtain ⟨hholding, hrereads⟩ := h.rereadsType honce hnested hfield.type hother.type
  refine ⟨?_, ?_⟩
  · obtain ⟨⟩ := field
    obtain ⟨⟩ := other
    obtain ⟨hname, hfullName, hnumber, hlabel, _, honeof, _, hoptions, hposition⟩ := hfield
    obtain ⟨hname', hfullName', hnumber', hlabel', _, honeof', _, hoptions', hposition'⟩ := hother
    exact (Field.mk.injEq ..).mpr ⟨hname'.trans hname.symm, hfullName'.trans hfullName.symm,
      hnumber'.trans hnumber.symm, hlabel'.trans hlabel.symm, hholding,
      honeof'.trans honeof.symm, rfl, hoptions'.trans hoptions.symm,
      hposition'.trans hposition.symm⟩
  · rw [Field.references, Field.references, hfield.extendee, hother.extendee]
    exact List.rel_append hrereads hextended

theorem Method.Mirrors.twin (h : small.Within large) (honce : large.Once)
    (hnested : small.Nested) {declared : Schema.Method} {method other : Method}
    (hmethod : method.Mirrors large place declared) (hother : other.Mirrors small place declared) :
    method.Twin small other := by
  refine ⟨?_, ?_⟩
  · obtain ⟨⟩ := method
    obtain ⟨⟩ := other
    obtain ⟨hname, _, _, hclient, hserver, hoptions⟩ := hmethod
    obtain ⟨hname', _, _, hclient', hserver', hoptions'⟩ := hother
    simp_all
  · exact .cons (h.rereadsMessage honce hnested hmethod.input hother.input)
      (.cons (h.rereadsMessage honce hnested hmethod.output hother.output) .nil)

/-- A field whose type is still known is kept as it was. -/
theorem Field.Mirrors.stays (h : small.Within large) (honce : large.Once)
    (hnested : small.Nested) {extendee : Option DottedName} {declared : Schema.Field}
    {field : Field} (hfield : field.Mirrors large place extendee declared)
    (hknows : small.Knows field.references) :
    keepsField small.resolves place declared = true ∧
      ∀ other, other.Mirrors small place extendee declared → other = field := by
  obtain ⟨hkeeps, hunique⟩ := h.denotesType honce hnested hfield.type
    fun name hname => hknows name (List.mem_append_left _ hname)
  refine ⟨hkeeps, fun other hother => ?_⟩
  have hextendee : List.Forall₂ small.Rereads extendee.toList extendee.toList :=
    List.forall₂_same.mpr fun _ _ => .inl rfl
  have hsame := (hfield.twin h honce hnested hother hextendee).same
  rw [hunique _ hother.type, hother.extendee, ← hfield.extendee,
    FieldType.holding_valueType] at hsame
  exact hsame

theorem Method.Mirrors.stays (h : small.Within large) (honce : large.Once)
    (hnested : small.Nested) {declared : Schema.Method} {method : Method}
    (hmethod : method.Mirrors large place declared) (hknows : small.Knows method.references) :
    keepsMethod small.resolves place declared = true ∧
      ∀ other, other.Mirrors small place declared → other = method := by
  obtain ⟨hknown, hrest⟩ := List.forall_mem_cons.mp hknows
  have hinput := h.denotesMessage honce hnested hmethod.input (by simpa [Scope.Knows] using hknown)
  have houtput := h.denotesMessage honce hnested hmethod.output hrest
  refine ⟨?_, fun other hother => ?_⟩
  · obtain ⟨_, hresolve⟩ := hinput
    obtain ⟨_, hresolve'⟩ := houtput
    rw [keepsMethod, Scope.resolves, Scope.resolves, hresolve, hresolve']
    rfl
  · have hsame := (hmethod.twin h honce hnested hother).same
    rw [hinput.unique hother.input, houtput.unique hother.output] at hsame
    exact hsame

end References

section Pairs

variable {small large : Scope}

def Message.Paired (small large : Scope) (message other : Message) : Prop :=
  ∃ place declared, message.Mirrors large (fun _ _ => true) place declared ∧
    other.Mirrors small small.resolves place declared

mutual

theorem Message.Mirrors.paired {place : DottedName} {declared : Schema.Message}
    {message other : Message} (hmessage : message.Mirrors large (fun _ _ => true) place declared)
    (hother : other.Mirrors small small.resolves place declared) :
    List.Forall₂ (Message.Paired small large) message.preorder other.preorder := by
  rw [Message.preorder_eq, Message.preorder_eq]
  refine .cons ⟨place, declared, hmessage, hother⟩ ?_
  match hmessage with
  | .intro _ hfullName _ _ hmessages _ _ _ _ =>
    cases hother with
    | intro _ hsame _ _ hothers _ _ _ _ =>
      rw [hsame, ← hfullName] at hothers
      exact hmessages.paired hothers

theorem Message.MirrorAll.paired {place : DottedName} {declared : List Schema.Message}
    {messages others : List Message}
    (hmessages : Message.MirrorAll large (fun _ _ => true) place declared messages)
    (hothers : Message.MirrorAll small small.resolves place declared others) :
    List.Forall₂ (Message.Paired small large) (Message.preorderList messages)
      (Message.preorderList others) := by
  match hmessages with
  | .nil =>
    cases hothers
    exact .nil
  | .cons hfirst hmore =>
    cases hothers with
    | cons hsecond hrest => exact List.rel_append (hfirst.paired hsecond) (hmore.paired hrest)

end

end Pairs

section Thinned

variable {small large : Scope}

/-- What the whole list has and the part of it keeps. -/
abbrev ThinsFields (small : Scope) (fields others : List Field) : Prop :=
  Thins (fun field => small.Knows field.references) (Field.Twin small) fields others

abbrev ThinsMethods (small : Scope) (methods others : List Method) : Prop :=
  Thins (fun method => small.Knows method.references) (Method.Twin small) methods others

theorem filter_all {α : Type} {keep : α → Bool} (h : ∀ a, keep a = true) (items : List α) :
    items.filter keep = items :=
  List.filter_eq_self.mpr fun a _ => h a

theorem keepsField_all (place : DottedName) (declared : Schema.Field) :
    keepsField (fun _ _ => true) place declared = true := by
  unfold keepsField keepsType
  split <;> simp

variable (h : small.Within large) (honce : large.Once) (hnested : small.Nested)
  {place : DottedName}

include h honce hnested

theorem thinsFields {declared : List Schema.Field} {fields others : List Field}
    (hfields : List.Forall₂ (Field.Mirrors large place none)
      (declared.filter (keepsField (fun _ _ => true) place)) fields)
    (hothers : List.Forall₂ (Field.Mirrors small place none)
      (declared.filter (keepsField small.resolves place)) others) :
    ThinsFields small fields others := by
  rw [filter_all (keepsField_all place)] at hfields
  refine .of_forall₂ hfields hothers
    (fun _ _ _ hfield hother => hfield.twin h honce hnested hother .nil) ?_
  exact fun _ _ hfield hknows => hfield.stays h honce hnested hknows

theorem thinsExtensions {declared : List (TypeName × Schema.Field)} {fields others : List Field}
    (hfields : List.Forall₂ (Field.Extends large place)
      (declared.filter (keepsExtension (fun _ _ => true) place)) fields)
    (hothers : List.Forall₂ (Field.Extends small place)
      (declared.filter (keepsExtension small.resolves place)) others) :
    ThinsFields small fields others := by
  have hall (a : TypeName × Schema.Field) : keepsExtension (fun _ _ => true) place a = true := by
    rw [keepsExtension, keepsField_all, Bool.and_self]
  rw [filter_all hall] at hfields
  refine .of_forall₂ hfields hothers ?_ ?_
  · rintro _ _ _ ⟨_, hextendee, hfield⟩ ⟨_, hextended, hother⟩
    exact hfield.twin h honce hnested hother
      (.cons (h.rereadsMessage honce hnested hextendee hextended) .nil)
  · rintro a field ⟨message, hdenotes, hfield⟩ hknows
    have hextendee : small.DenotesMessage place a.1 message := by
      refine h.denotesMessage honce hnested hdenotes fun name hname => hknows name ?_
      refine List.mem_append_right _ ?_
      rw [hfield.extendee]
      exact hname
    obtain ⟨hkeeps, hunique⟩ := hfield.stays h honce hnested hknows
    refine ⟨?_, ?_⟩
    · obtain ⟨file, hresolve⟩ := hextendee
      rw [keepsExtension, hkeeps, Scope.resolves, hresolve]
      rfl
    · rintro other ⟨again, hagain, hother⟩
      rw [hextendee.unique hagain] at hother
      exact hunique other hother

theorem thinsMethods {declared : List Schema.Method} {methods others : List Method}
    (hmethods : List.Forall₂ (Method.Mirrors large place)
      (declared.filter (keepsMethod (fun _ _ => true) place)) methods)
    (hothers : List.Forall₂ (Method.Mirrors small place)
      (declared.filter (keepsMethod small.resolves place)) others) :
    ThinsMethods small methods others := by
  have hall (a : Schema.Method) : keepsMethod (fun _ _ => true) place a = true := rfl
  rw [filter_all hall] at hmethods
  exact .of_forall₂ hmethods hothers
    (fun _ _ _ hmethod hother => hmethod.twin h honce hnested hother)
    fun _ _ hmethod hknows => hmethod.stays h honce hnested hknows

theorem thinsMessages {messages others : List Message}
    (hmessages : List.Forall₂ (Message.Paired small large) messages others) :
    ThinsFields small (messages.flatMap (·.fields)) (others.flatMap (·.fields)) ∧
      ThinsFields small (messages.flatMap (·.extensions)) (others.flatMap (·.extensions)) := by
  have hpaired (message other : Message) (hpair : message.Paired small large other) :
      ThinsFields small message.fields other.fields ∧
        ThinsFields small message.extensions other.extensions := by
    obtain ⟨place, declared, hmessage, hother⟩ := hpair
    cases hmessage with
    | intro _ hfullName hfields _ _ _ hextensions _ _ =>
      cases hother with
      | intro _ hsame hfields' _ _ _ hextensions' _ _ =>
        rw [hsame, ← hfullName] at hfields' hextensions'
        exact ⟨thinsFields h honce hnested hfields hfields',
          thinsExtensions h honce hnested hextensions hextensions'⟩
  exact ⟨.flatMap hmessages fun a b hpair => (hpaired a b hpair).1,
    .flatMap hmessages fun a b hpair => (hpaired a b hpair).2⟩

/-- What became of a service of the whole file. -/
theorem thinsServices {place : DottedName} {declared : List Schema.Service}
    {services others : List Service}
    (hservices : List.Forall₂ (Service.Mirrors large (fun _ _ => true) place) declared services)
    (hothers : List.Forall₂ (Service.Mirrors small small.resolves place) declared others) :
    List.Forall₂ (fun service other => other.fullName = service.fullName ∧
      ThinsMethods small service.methods other.methods) services others := by
  induction hservices generalizing others with
  | nil =>
    cases hothers
    exact .nil
  | cons hfirst _ ih =>
    cases hothers with
    | cons hsecond hrest =>
      have hsame := hsecond.fullName.trans hfirst.fullName.symm
      have hmethods := hsecond.methods
      rw [hsame] at hmethods
      exact .cons ⟨hsame, thinsMethods h honce hnested hfirst.methods hmethods⟩ (ih hrest)

end Thinned

/-- With some of the imports of a file missing, its fields, extensions and methods are left
with the references that they had, as long as what these mean is still known. Whatever else
is left is the same but for references that are lost; what is written for one of these means
something further out. -/
theorem known_references_stay (hwhole : link warnUnused path tree imports = .ok whole)
    (hpart : link warnUnused path tree fewer = .ok part)
    (hintact : ∀ edge ∈ imports, edge.IsIntact)
    (hbuilt : ∀ edge ∈ imports, ∀ target, edge.target = some target → target.Built)
    (hdrops : List.Forall₂ ImportEdge.Drops imports fewer) (honce : DeclaredOnce imports) :
    let scope := (Scope.ofFile path tree fewer).1
    ThinsFields scope whole.file.allFields part.file.allFields ∧
      List.Forall₂ (fun service other => other.fullName = service.fullName ∧
        ThinsMethods scope service.methods other.methods)
        whole.file.services part.file.services := by
  have hstrict : (Scope.ofFile path tree imports).1.lenient = false := by
    simpa [Scope.ofFile] using hintact
  have hwithin := within_ofFile hdrops hwhole hpart
  have hsupplied := once_ofFile (clashes_eq_nil_of_link hwhole) honce.exposedOnce
  have hnested := nested_ofFile hpart (built_of_drops hdrops hbuilt)
  have hlarge := linkedFile_mirrors (Scope.settles_all hstrict) (bindFile_clean hwhole)
  have hsmall := linkedFile_mirrors Scope.settles_resolves (bindFile_clean hpart)
  rw [(link_eq_ok hwhole).1, (link_eq_ok hpart).1]
  obtain ⟨hfields, hinner⟩ := thinsMessages hwithin hsupplied hnested
    (hlarge.messages.paired hsmall.messages)
  have hextensions := thinsExtensions hwithin hsupplied hnested hlarge.extensions
    hsmall.extensions
  exact ⟨hfields.append (hextensions.append hinner),
    thinsServices hwithin hsupplied hnested hlarge.services hsmall.services⟩

theorem File.mem_symbols_of_symbol? {name : DottedName} {kind : SymbolKind}
    (h : file.symbol? name = some kind) : (name, kind) ∈ file.symbols := by
  obtain ⟨entry, hentry, rfl⟩ := Option.map_eq_some_iff.mp h
  have hname : entry.1 = name := by simpa using List.find?_some hentry
  rw [← hname]
  exact List.mem_of_find?_eq_some hentry

/-- Of two fields the one with a type from a missing file is left out, the other kept. -/
theorem known_references_stay_beside_lost : ∃ (path : VirtualPath) (tree : Schema.File)
    (gone kept : Import) (whole part : Outcome),
    link false path tree [gone, kept] = .ok whole ∧
    link false path tree [{ gone with target := none }, kept] = .ok part ∧
    whole.file.allFields.map (·.name) = ["x", "y"] ∧
    part.file.allFields.map (·.name) = ["y"] ∧
    ThinsFields (Scope.ofFile path tree [{ gone with target := none }, kept]).1
      whole.file.allFields part.file.allFields := by
  let path : VirtualPath := ⟨⟨false, ["a.proto"], by decide⟩, by decide⟩
  let b : VirtualPath := ⟨⟨false, ["b.proto"], by decide⟩, by decide⟩
  let c : VirtualPath := ⟨⟨false, ["c.proto"], by decide⟩, by decide⟩
  let first : File := .ofText b "message X {}" []
  let second : File := .ofText c "message Y {}" []
  let tree : Schema.File :=
    (Schema.File.read "message M { optional X x = 1; optional Y y = 2; }").toOption.getD .empty
  let gone : Import := ⟨b, .plain, ⟨1, 1⟩, some first⟩
  let kept : Import := ⟨c, .plain, ⟨2, 1⟩, some second⟩
  let missing : Import := { gone with target := none }
  have hwhole : link false path tree [gone, kept] =
      .ok ⟨linkedFile path tree [gone, kept], linkProblems false path tree [gone, kept]⟩ :=
    (link_eq _ _ _ _).trans (if_neg (by decide +kernel))
  have hpart : link false path tree [missing, kept] =
      .ok ⟨linkedFile path tree [missing, kept], linkProblems false path tree [missing, kept]⟩ :=
    (link_eq _ _ _ _).trans (if_neg (by decide +kernel))
  have hfirst : first.Built := File.built_ofText (by decide +kernel) (by decide +kernel) (by simp)
  have hsecond : second.Built :=
    File.built_ofText (by decide +kernel) (by decide +kernel) (by simp)
  have hintact : ∀ edge ∈ [gone, kept], edge.IsIntact := by
    decide +kernel
  have hbuilt : ∀ edge ∈ [gone, kept], ∀ target, edge.target = some target → target.Built := by
    simpa [gone, kept] using ⟨hfirst, hsecond⟩
  have hdrops : List.Forall₂ ImportEdge.Drops [gone, kept] [missing, kept] :=
    .cons (.inr rfl) (.cons (.inl rfl) .nil)
  have hvisible : ∀ f, Visible [gone, kept] f → f = first ∨ f = second := by
    intro f hf
    induction hf with
    | direct hedge htarget =>
      rcases List.mem_pair.mp hedge with rfl | rfl
      · cases htarget
        exact .inl rfl
      · cases htarget
        exact .inr rfl
    | passed _ hother ih =>
      rcases ih with rfl | rfl
      · cases hother
      · cases hother
  have honce : DeclaredOnce [gone, kept] := by
    intro f g hf hg name kind other hkind hother
    have hleft := File.mem_symbols_of_symbol? hkind
    have hright := File.mem_symbols_of_symbol? hother
    have hx : first.symbols = [(["X"], .message)] := by decide +kernel
    have hy : second.symbols = [(["Y"], .message)] := by decide +kernel
    rcases hvisible f hf with rfl | rfl
    · rcases hvisible g hg with rfl | rfl
      · exact .inl rfl
      · simp_all
    · rcases hvisible g hg with rfl | rfl
      · simp_all
      · exact .inl rfl
  exact ⟨path, tree, gone, kept, _, _, hwhole, hpart, by decide +kernel, by decide +kernel,
    (known_references_stay hwhole hpart hintact hbuilt hdrops honce).1⟩

/-- With the file of `a.b.T` missing, a reference to it is bound to `a.T` of another file. -/
theorem lost_reference_bound_elsewhere : ∃ (path x y : VirtualPath) (tree : Schema.File)
    (gone kept : Import) (whole part : Outcome),
    gone.IsIntact ∧ kept.IsIntact ∧
    link false path tree [gone, kept] = .ok whole ∧
    link false path tree [{ gone with target := none }, kept] = .ok part ∧
    whole.file.allFields.map (fun field => (field.fullName, field.type)) =
      [(["a", "b", "M", "t"], .single (.message ["a", "b", "T"] x))] ∧
    part.file.allFields.map (fun field => (field.fullName, field.type)) =
      [(["a", "b", "M", "t"], .single (.message ["a", "T"] y))] := by
  let path : VirtualPath := ⟨⟨false, ["m.proto"], by decide⟩, by decide⟩
  let x : VirtualPath := ⟨⟨false, ["x.proto"], by decide⟩, by decide⟩
  let y : VirtualPath := ⟨⟨false, ["y.proto"], by decide⟩, by decide⟩
  let tree : Schema.File :=
    (Schema.File.read "package a.b; message M { optional T t = 1; }").toOption.getD .empty
  let gone : Import := ⟨x, .plain, ⟨1, 1⟩, some (.ofText x "package a.b; message T {}" [])⟩
  let kept : Import := ⟨y, .plain, ⟨1, 1⟩, some (.ofText y "package a; message T {}" [])⟩
  let missing : Import := { gone with target := none }
  have hwhole : link false path tree [gone, kept] =
      .ok ⟨linkedFile path tree [gone, kept], linkProblems false path tree [gone, kept]⟩ :=
    (link_eq _ _ _ _).trans (if_neg (by decide +kernel))
  have hpart : link false path tree [missing, kept] =
      .ok ⟨linkedFile path tree [missing, kept], linkProblems false path tree [missing, kept]⟩ :=
    (link_eq _ _ _ _).trans (if_neg (by decide +kernel))
  exact ⟨path, x, y, tree, gone, kept, _, _, by decide +kernel, by decide +kernel, hwhole, hpart,
    by decide +kernel, by decide +kernel⟩

end Linked

end ProtoSchema
