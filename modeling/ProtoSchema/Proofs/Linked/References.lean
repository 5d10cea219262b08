import ProtoSchema.Proofs.Catalog.Index
import ProtoSchema.Proofs.Linked.Regions
import ProtoSchema.Proofs.Linked.Symbols
import ProtoSchema.Proofs.Linked.Visibility
import ProtoSchema.Proofs.Schema.Files

/-!
Where references lead. A reference of a linked file is what some name means where it is
written, and such a name is looked up in the symbol tables of the files that are seen. The
table of a linked file has just its declarations, so that the reference names one of them, in
the file that it records. Full names start with a word and not with a dot, and a catalog that
has the file finds them.
-/

namespace ProtoSchema

open Linked (SymbolKind)

def DottedName.StartsWithWord (name : DottedName) : Prop :=
  ∃ first rest, name = first :: rest ∧ Scanned.IsWord first

theorem DottedName.StartsWithWord.member {scope : DottedName} (h : scope.StartsWithWord)
    (name : String) : (scope.member name).StartsWithWord := by
  obtain ⟨first, rest, rfl, hword⟩ := h
  exact ⟨first, rest ++ [name], rfl, hword⟩

namespace Schema.File

variable {file : File} {region : Region}

/-- Only the outermost scope can be empty, and the names that stand there are words. -/
theorem HasRegion.startsWithWord (hnamed : file.Named Scanned.IsWord)
    (h : file.HasRegion region) :
    region.scope.StartsWithWord ∨ region.scope = [] ∧
      (∀ message ∈ region.messages, Scanned.IsWord message.name) ∧
        ∀ enum ∈ region.enums, Scanned.IsWord enum.name := by
  induction h with
  | outer =>
    cases hpackage : file.package with
    | some name =>
      obtain ⟨first, rest, rfl, hword⟩ := hnamed.package name hpackage
      refine .inl ⟨first, rest, ?_, hword⟩
      rw [File.region, scope, hpackage]
      rfl
    | none =>
      refine .inr ⟨?_, ?_, hnamed.enums⟩
      · rw [File.region, scope, hpackage]
        rfl
      · intro message hmessage
        rcases Linked.Declaration.mem_declaredMessages.mp hmessage with hmessage | hgroup
        · exact hnamed.messages message hmessage
        · obtain ⟨block, hblock, hmessage⟩ := hgroup
          exact hnamed.groups block hblock message hmessage
  | inner _ hmessage ih =>
    rcases ih with hscope | ⟨hscope, hmessages, _⟩
    · exact .inl (hscope.member _)
    · exact .inl ⟨_, [], by rw [Message.region, hscope]; rfl, hmessages _ hmessage⟩

theorem Declares.startsWithWord {name : DottedName} {kind : SymbolKind}
    (hnamed : file.Named Scanned.IsWord) (h : file.Declares name kind)
    (hkind : kind.isType = true) : name.StartsWithWord := by
  cases h with
  | @message region message hregion hmessage =>
    rcases hregion.startsWithWord hnamed with hscope | ⟨hscope, hmessages, _⟩
    · exact hscope.member _
    · exact ⟨message.name, [], by rw [hscope]; rfl, hmessages message hmessage⟩
  | @enum region enum hregion henum =>
    rcases hregion.startsWithWord hnamed with hscope | ⟨hscope, _, henums⟩
    · exact hscope.member _
    · exact ⟨enum.name, [], by rw [hscope]; rfl, henums enum henum⟩
  | _ => cases hkind

end Schema.File

namespace Linked

def FieldType.valueType : FieldType → ValueType
  | .single type => type
  | .map _ type => type

namespace File

def allFields (file : File) : List Field :=
  file.allMessages.flatMap (·.fields) ++ file.allExtensions

/-- The file refers to the full name as something of the kind. Types of fields are recorded
with the path of the file that declares them. -/
inductive Refers (file : File) : SymbolKind → DottedName → Option VirtualPath → Prop
  | message {field : Field} {name : DottedName} {path : VirtualPath}
      (hfield : field ∈ file.allFields) (htype : field.type.valueType = .message name path) :
      Refers file .message name (some path)
  | enum {field : Field} {name : DottedName} {path : VirtualPath}
      (hfield : field ∈ file.allFields) (htype : field.type.valueType = .enum name path) :
      Refers file .enum name (some path)
  | extendee {field : Field} {name : DottedName} (hfield : field ∈ file.allFields)
      (hextendee : field.extendee = some name) : Refers file .message name none
  | input {service : Service} {method : Method} (hservice : service ∈ file.services)
      (hmethod : method ∈ service.methods) : Refers file .message method.input none
  | output {service : Service} {method : Method} (hservice : service ∈ file.services)
      (hmethod : method ∈ service.methods) : Refers file .message method.output none

/-- The file has a message or an enum of the full name, at any depth. -/
def Has (file : File) : SymbolKind → DottedName → Prop
  | .message, name => ∃ message ∈ file.allMessages, message.fullName = name
  | .enum, name => ∃ enum ∈ file.allEnums, enum.fullName = name
  | _, _ => False

/-- The file was linked from a text that was read, and so was every file that its imports
reached. An import statement that gave no edge makes it incomplete. -/
inductive Built : File → Prop
  | link {warnUnused : Bool} {path : VirtualPath} {text : String} {tree : Schema.File}
      {imports : List Import} {outcome : Outcome} (hread : Schema.File.read text = .ok tree)
      (hlink : Linked.link warnUnused path tree imports = .ok outcome)
      (himports : ∀ edge ∈ imports, ∀ target, edge.target = some target → Built target) :
      Built outcome.file
  | incomplete {file : File} (h : Built file) : Built { file with complete := false }

end File

end Linked

namespace Catalog

open Linked

def Finds (catalog : Catalog) : SymbolKind → DottedName → Prop
  | .message, name => (catalog.message? name.text).isSome
  | .enum, name => (catalog.enum? name.text).isSome
  | _, _ => False

/-- A name that starts with a word has no leading dot. -/
theorem plainName_text {name : DottedName} (h : name.StartsWithWord) :
    plainName name.text = name.text := by
  obtain ⟨_, rest, rfl, c, cs, rfl, hstart, _⟩ := h
  have hdot : c ≠ '.' := by
    rintro rfl
    exact absurd hstart (by decide)
  have htext : DottedName.text (String.ofList (c :: cs) :: rest) =
      String.singleton c ++ DottedName.text (String.ofList cs :: rest) := by
    rw [String.ofList_cons, DottedName.text, String.intercalate_cons_append]
    rfl
  have hnone :
      Text.dropLeading? "." (DottedName.text (String.ofList (c :: cs) :: rest)) = none := by
    rw [htext, Text.dropLeading?, String.toList_append, String.toList_singleton, if_neg]
    simpa using hdot.symm
  rw [plainName, hnone, Option.getD_none]

theorem finds_of_has {roots : List File} {file : File} {kind : SymbolKind} {name : DottedName}
    (hfile : file ∈ (ofFiles roots).files) (hhas : file.Has kind name)
    (hname : name.StartsWithWord) : (ofFiles roots).Finds kind name := by
  have hplain := plainName_text hname
  cases kind with
  | message =>
    obtain ⟨message, hmessage, rfl⟩ := hhas
    rw [Finds, message?, declared?_eq (indexed_ofFiles roots).messages]
    refine List.findSome?_isSome_iff.mpr ⟨file, hfile, ?_⟩
    exact List.find?_isSome.mpr ⟨message, hmessage, by simp [hplain]⟩
  | enum =>
    obtain ⟨enum, henum, rfl⟩ := hhas
    rw [Finds, enum?, declared?_eq (indexed_ofFiles roots).enums]
    refine List.findSome?_isSome_iff.mpr ⟨file, hfile, ?_⟩
    exact List.find?_isSome.mpr ⟨enum, henum, by simp [hplain]⟩
  | _ => cases hhas

end Catalog

namespace Linked

variable {scope : Scope} {known : DottedName → TypeName → Bool} {path : VirtualPath}
  {tree : Schema.File} {imports : List Import} {file other : File} {kind : SymbolKind}
  {name : DottedName} {recorded : Option VirtualPath} {found : Found}

namespace Scope

theorem name_of_lookup? (h : scope.lookup? name = some found) : found.name = name := by
  unfold lookup? at h
  split at h
  · cases h
    rfl
  · obtain ⟨exposed, _, hfound⟩ := List.exists_of_findSome?_eq_some h
    obtain ⟨kind, _, rfl⟩ := Option.map_eq_some_iff.mp hfound
    rfl

theorem lookup?_of_searchOutward {typesOnly : Bool} {first : String} {rest : DottedName}
    {places : List DottedName}
    (h : scope.searchOutward typesOnly first rest places = some found) :
    scope.lookup? found.name = some found := by
  induction places with
  | nil => cases h
  | cons place outer ih =>
    unfold searchOutward at h
    split at h
    · exact ih h
    · next hit hlookup =>
      split at h
      · split at h
        · exact ih h
        · cases h
          rwa [name_of_lookup? hlookup]
      · split at h
        · rwa [name_of_lookup? h]
        · exact ih h

/-- What a name means is what its full name is looked up as. -/
theorem lookup?_of_resolve? {written : TypeName} {place : DottedName} {typesOnly : Bool}
    (h : scope.resolve? written place typesOnly = some found) :
    scope.lookup? found.name = some found := by
  unfold resolve? at h
  split at h
  · rwa [name_of_lookup? h]
  · split at h
    · cases h
    · exact lookup?_of_searchOutward h

/-- A name that is known in a file is a symbol of a file that it sees. -/
theorem exists_sees_of_lookup?
    (h : (ofFile path tree imports).1.lookup? name = some found) :
    ∃ f, (linkedFile path tree imports).Sees f ∧ f.path = found.file ∧
      f.symbol? name = some found.kind := by
  unfold lookup? at h
  split at h
  · next entry hown =>
    cases h
    exact ⟨_, .inl rfl, rfl, by rw [File.symbol?]; exact congrArg (Option.map (·.2)) hown⟩
  · obtain ⟨exposed, hexposed, hfound⟩ := List.exists_of_findSome?_eq_some h
    obtain ⟨kind, hsymbol, rfl⟩ := Option.map_eq_some_iff.mp hfound
    exact ⟨exposed.file, .inr (visible_of_mem_exposed hexposed), rfl, hsymbol⟩

theorem DenotesType.valueType {place : DottedName} {declared : Schema.FieldType}
    {type : FieldType} (h : scope.DenotesType place declared type) :
    ∃ written, scope.Denotes place written type.valueType := by
  cases h with
  | single hdenotes => exact ⟨_, hdenotes⟩
  | map _ hdenotes => exact ⟨_, hdenotes⟩

end Scope

/-- Every field mirrors a declared one, and every extension does for a message that its
extend block names. -/
theorem File.Mirrors.field (h : file.Mirrors scope known path tree imports) {field : Field}
    (hfield : field ∈ file.allFields) :
    ∃ place extendee declared, field.Mirrors scope place extendee declared ∧
      ∀ name, extendee = some name → ∃ written, scope.DenotesMessage place written name := by
  rcases List.mem_append.mp hfield with hfield | hfield
  · obtain ⟨message, hmessage, hfield⟩ := List.mem_flatMap.mp hfield
    obtain ⟨region, outer, declared, _, _, _, hmirrors⟩ := h.exists_field hmessage hfield
    exact ⟨_, none, declared, hmirrors, fun name hname => by cases hname⟩
  · obtain ⟨region, declared, _, _, message, hdenotes, hmirrors⟩ := h.exists_extension hfield
    refine ⟨region.scope, some message, declared.2, hmirrors, ?_⟩
    rintro name ⟨⟩
    exact ⟨declared.1, hdenotes⟩

/-- A reference is what a name means somewhere in the file. -/
theorem File.Mirrors.resolves (h : file.Mirrors scope known path tree imports)
    (hrefers : file.Refers kind name recorded) :
    ∃ written place reached, scope.resolve? written place true = some ⟨name, kind, reached⟩ ∧
      ∀ p, recorded = some p → reached = p := by
  have hmessage {place : DottedName} {written : TypeName} {fullName : DottedName}
      (hdenotes : scope.DenotesMessage place written fullName) :
      ∃ written place reached,
        scope.resolve? written place true = some ⟨fullName, .message, reached⟩ ∧
          ∀ p, none = some p → reached = p := by
    obtain ⟨reached, hresolve⟩ := hdenotes
    exact ⟨written, place, reached, hresolve, fun p hp => by cases hp⟩
  cases hrefers with
  | message hfield htype =>
    obtain ⟨place, _, declared, hmirrors, _⟩ := h.field hfield
    obtain ⟨written, hdenotes⟩ := hmirrors.type.valueType
    rw [htype] at hdenotes
    cases hdenotes with
    | message _ hresolve => exact ⟨written, place, _, hresolve, fun p hp => by cases hp; rfl⟩
  | enum hfield htype =>
    obtain ⟨place, _, declared, hmirrors, _⟩ := h.field hfield
    obtain ⟨written, hdenotes⟩ := hmirrors.type.valueType
    rw [htype] at hdenotes
    cases hdenotes with
    | enum _ hresolve => exact ⟨written, place, _, hresolve, fun p hp => by cases hp; rfl⟩
  | extendee hfield hextendee =>
    obtain ⟨place, extendee, declared, hmirrors, hdenotes⟩ := h.field hfield
    obtain ⟨written, hdenotes⟩ := hdenotes _ (hmirrors.extendee.symm.trans hextendee)
    exact hmessage hdenotes
  | input hservice hmethod =>
    obtain ⟨_, _, hmirrors⟩ := exists_of_forall₂ h.services hservice
    obtain ⟨_, _, hmirrors⟩ := exists_of_forall₂ hmirrors.methods hmethod
    exact hmessage hmirrors.input
  | output hservice hmethod =>
    obtain ⟨_, _, hmirrors⟩ := exists_of_forall₂ h.services hservice
    obtain ⟨_, _, hmirrors⟩ := exists_of_forall₂ hmirrors.methods hmethod
    exact hmessage hmirrors.output

namespace File

/-- The imports of a built file reached built files. -/
theorem Built.imported (h : file.Built) {edge : Import} {target : File}
    (hedge : edge ∈ file.imports) (htarget : edge.target = some target) : target.Built := by
  induction h with
  | link _ hlink himports =>
    rw [(link_eq_ok hlink).1] at hedge
    exact himports edge hedge target htarget
  | incomplete _ ih => exact ih hedge

/-- What is visible through imports of built files is built. -/
theorem built_of_visible
    (h : ∀ edge ∈ imports, ∀ target, edge.target = some target → target.Built)
    (hvisible : Visible imports other) : other.Built := by
  induction hvisible with
  | direct hedge htarget => exact h _ hedge _ htarget
  | passed _ hother ih =>
    obtain ⟨edge, hedge, htarget⟩ := mem_dependencies.mp (mem_dependencies_of_mem_reexports hother)
    exact ih.imported hedge htarget

theorem Built.visible (h : file.Built) (hvisible : Visible file.imports other) : other.Built :=
  built_of_visible (fun _ hedge _ htarget => h.imported hedge htarget) hvisible

theorem Built.sees (h : file.Built) (hsees : file.Sees other) : other.Built := by
  rcases hsees with rfl | hvisible
  · exact h
  · exact h.visible hvisible

/-- A type in the symbol table is a declaration, and its full name starts with a word. -/
theorem Built.has (h : file.Built) (hsymbol : file.symbol? name = some kind)
    (hkind : kind.isType = true) : file.Has kind name ∧ name.StartsWithWord := by
  induction h with
  | link hread hlink _ =>
    have hagree := symbolsAgree_of_link hlink
    refine ⟨?_, ?_⟩
    · cases kind with
      | message => exact List.mem_map.mp ((hagree.messages.mem_iff name).mpr hsymbol)
      | enum => exact List.mem_map.mp ((hagree.enums.mem_iff name).mpr hsymbol)
      | _ => cases hkind
    · exact ((hagree.symbol?_iff name kind).mp hsymbol).startsWithWord
        (Schema.File.named_of_read hread) hkind
  | incomplete _ ih =>
    obtain ⟨hhas, hname⟩ := ih hsymbol
    refine ⟨?_, hname⟩
    cases kind with
    | message => exact hhas
    | enum => exact hhas
    | _ => cases hkind

theorem Refers.isType (h : file.Refers kind name recorded) : kind.isType = true := by
  cases h <;> rfl

/-- A reference leads to a symbol of a file that is seen, the one recorded if any is. -/
theorem Built.exists_sees (h : file.Built) (hrefers : file.Refers kind name recorded) :
    ∃ f, file.Sees f ∧ f.symbol? name = some kind ∧ ∀ p, recorded = some p → f.path = p := by
  induction h with
  | link _ hlink _ =>
    have hmirrors := linkedFile_mirrors Scope.settles_resolves (bindFile_clean hlink)
    rw [(link_eq_ok hlink).1] at hrefers ⊢
    obtain ⟨written, place, reached, hresolve, hreached⟩ := hmirrors.resolves hrefers
    obtain ⟨f, hsees, hpath, hsymbol⟩ :=
      Scope.exists_sees_of_lookup? (Scope.lookup?_of_resolve? hresolve)
    exact ⟨f, hsees, hsymbol, fun p hp => hpath.trans (hreached p hp)⟩
  | @incomplete file _ ih =>
    -- The mark changes neither the references of the file nor what it sees, itself apart.
    have hsame : file.Refers kind name recorded := by
      cases hrefers with
      | message hfield htype => exact .message hfield htype
      | enum hfield htype => exact .enum hfield htype
      | extendee hfield hextendee => exact .extendee hfield hextendee
      | input hservice hmethod => exact .input hservice hmethod
      | output hservice hmethod => exact .output hservice hmethod
    obtain ⟨f, hsees, hsymbol, hpath⟩ := ih hsame
    rcases hsees with rfl | hvisible
    · exact ⟨_, .inl rfl, hsymbol, hpath⟩
    · exact ⟨f, .inr hvisible, hsymbol, hpath⟩

/-- No reference dangles. Each names a message or an enum of a file that is seen, which is
the one file there with the recorded path. So a catalog that has the file finds the name,
as long as no other file of the catalog has the path of one that is seen. -/
theorem references_are_declared (h : file.Built)
    (hpaths : ∀ f g, Visible file.imports f → Visible file.imports g → f.path = g.path → f = g)
    (hself : ∀ f, Visible file.imports f → f.path ≠ file.path)
    (hrefers : file.Refers kind name recorded) :
    (∃ f, file.Sees f ∧ f.Has kind name ∧ ∀ p, recorded = some p →
      f.path = p ∧ ∀ g, file.Sees g → g.path = p → g = f) ∧
    ∀ roots, file ∈ roots →
      (∀ root ∈ roots, ∀ f, root.Leads f → ∀ g, file.Sees g → f.path = g.path → f = g) →
      (Catalog.ofFiles roots).Finds kind name := by
  obtain ⟨f, hsees, hsymbol, hpath⟩ := h.exists_sees hrefers
  obtain ⟨hhas, hname⟩ := (h.sees hsees).has hsymbol hrefers.isType
  refine ⟨⟨f, hsees, hhas, fun p hp => ⟨hpath p hp, fun g hg hsame => ?_⟩⟩, ?_⟩
  · rw [← hpath p hp] at hsame
    rcases hsees with rfl | hvisible
    · rcases hg with rfl | hg
      · rfl
      · exact absurd hsame (hself g hg)
    · rcases hg with rfl | hg
      · exact absurd hsame.symm (hself f hvisible)
      · exact hpaths g f hg hvisible hsame
  · intro roots hroot hunique
    exact Catalog.finds_of_has (mem_ofFiles_of_sees hroot hunique hsees) hhas hname

def ofText (path : VirtualPath) (text : String) (imports : List Import) : File :=
  linkedFile path ((Schema.File.read text).toOption.getD .empty) imports

/-- The tree of a text that is read. -/
theorem read_eq_ok {text : String} (hread : (Schema.File.read text).isOk = true) :
    Schema.File.read text = .ok ((Schema.File.read text).toOption.getD .empty) := by
  cases hresult : Schema.File.read text with
  | error errors =>
    rw [hresult] at hread
    cases hread
  | ok tree => rfl

theorem built_ofText {text : String} (hread : (Schema.File.read text).isOk = true)
    (hclean : ¬∃ problem ∈ linkProblems false path
      ((Schema.File.read text).toOption.getD .empty) imports, problem.IsError)
    (himports : ∀ edge ∈ imports, ∀ target, edge.target = some target → target.Built) :
    (ofText path text imports).Built :=
  .link (read_eq_ok hread) ((link_eq _ _ _ _).trans (if_neg hclean)) himports

theorem refers_of_any {place : VirtualPath} (h : (file.allFields.any fun field =>
    decide (field.type.valueType = .message name place)) = true) :
    file.Refers .message name (some place) := by
  obtain ⟨field, hfield, htype⟩ := List.any_eq_true.mp h
  exact .message hfield (of_decide_eq_true htype)

theorem has_message_of_any
    (h : file.allMessages.any (fun message => decide (message.fullName = name)) = true) :
    file.Has .message name := by
  obtain ⟨message, hmessage, hname⟩ := List.any_eq_true.mp h
  exact ⟨message, hmessage, of_decide_eq_true hname⟩

/-- A field has a message of a file that an imported file passes on. -/
theorem references_are_declared_passed : ∃ (file between last : File),
    file.Built ∧ file.dependencies = [between] ∧ between.reexports = [last] ∧
    file.Refers .message ["C"] (some last.path) ∧
    (∃ f, file.Sees f ∧ f.Has .message ["C"] ∧ ∀ p, some last.path = some p →
      f.path = p ∧ ∀ g, file.Sees g → g.path = p → g = f) ∧
    (Catalog.ofFiles [file]).Finds .message ["C"] := by
  let a : VirtualPath := ⟨⟨false, ["a.proto"], by decide⟩, by decide⟩
  let b : VirtualPath := ⟨⟨false, ["b.proto"], by decide⟩, by decide⟩
  let c : VirtualPath := ⟨⟨false, ["c.proto"], by decide⟩, by decide⟩
  let last : File := ofText c "message C {}" []
  let between : File := ofText b "import public \"c.proto\";" [⟨c, .reexport, ⟨1, 1⟩, some last⟩]
  let file : File := ofText a "import \"b.proto\"; message A { optional C c = 1; }"
    [⟨b, .plain, ⟨1, 1⟩, some between⟩]
  have hlast : last.Built := built_ofText (by decide +kernel) (by decide +kernel) (by simp)
  have hbetween : between.Built := by
    refine built_ofText (by decide +kernel) (by decide +kernel) ?_
    simpa using hlast
  have hfile : file.Built := by
    refine built_ofText (by decide +kernel) (by decide +kernel) ?_
    simpa using hbetween
  have hrefers : file.Refers .message ["C"] (some c) := refers_of_any (by decide +kernel)
  have hvisible : ∀ f, Visible file.imports f → f ∈ [between, last] := by
    intro f hf
    induction hf with
    | direct hedge htarget =>
      cases List.mem_singleton.mp hedge
      cases htarget
      exact List.mem_cons_self
    | passed _ hother ih =>
      rcases List.mem_pair.mp ih with rfl | rfl
      · exact List.mem_cons_of_mem _ hother
      · cases hother
  have hleads : ∀ f, file.Leads f → f ∈ [file, between, last] := by
    intro f hf
    induction hf with
    | refl => exact List.mem_cons_self
    | tail _ hnext ih =>
      rcases List.mem_cons.mp ih with rfl | ih
      · exact List.mem_cons_of_mem _ (List.mem_cons.mpr (.inl (List.mem_singleton.mp hnext)))
      rcases List.mem_pair.mp ih with rfl | rfl
      · exact List.mem_cons_of_mem _ (List.mem_cons_of_mem _ hnext)
      · cases hnext
  have hsees : ∀ f, file.Sees f → f ∈ [file, between, last] := by
    rintro f (rfl | hf)
    · exact List.mem_cons_self
    · exact List.mem_cons_of_mem _ (hvisible f hf)
  have hpaths : ([file, between, last].map (·.path)).Nodup := by decide +kernel
  have hunique := List.inj_on_of_nodup_map hpaths
  have hself : ∀ f ∈ [between, last], f.path ≠ file.path := by decide +kernel
  obtain ⟨hdeclared, hfound⟩ := references_are_declared hfile
    (fun f g hf hg => hunique (hsees f (.inr hf)) (hsees g (.inr hg)))
    (fun f hf => hself f (hvisible f hf)) hrefers
  refine ⟨file, between, last, hfile, rfl, rfl, hrefers, hdeclared, ?_⟩
  refine hfound [file] (List.mem_singleton.mpr rfl) ?_
  intro root hroot f hf g hg
  rw [List.mem_singleton.mp hroot] at hf
  exact hunique (hleads f hf) (hsees g hg)

/-- Another root that has the path of a seen file, as one linked from an earlier text, stands for
that file in the catalog. What the file declares is not found then. -/
theorem stale_root_hides_declaration : ∃ (stale fresh file : File),
    stale.Built ∧ file.Built ∧ file.dependencies = [fresh] ∧ stale.path = fresh.path ∧
    (∀ f g, Visible file.imports f → Visible file.imports g → f.path = g.path → f = g) ∧
    (∀ f, Visible file.imports f → f.path ≠ file.path) ∧
    file.Refers .message ["T"] (some fresh.path) ∧ fresh.Has .message ["T"] ∧
    ¬(Catalog.ofFiles [stale, file]).Finds .message ["T"] := by
  let main : VirtualPath := ⟨⟨false, ["main.proto"], by decide⟩, by decide⟩
  let y : VirtualPath := ⟨⟨false, ["y.proto"], by decide⟩, by decide⟩
  let stale : File := ofText y "message Old {}" []
  let fresh : File := ofText y "message T {}" []
  let file : File := ofText main "import \"y.proto\"; message M { optional T t = 1; }"
    [⟨y, .plain, ⟨1, 1⟩, some fresh⟩]
  have hstale : stale.Built := built_ofText (by decide +kernel) (by decide +kernel) (by simp)
  have hfresh : fresh.Built := built_ofText (by decide +kernel) (by decide +kernel) (by simp)
  have hfile : file.Built := by
    refine built_ofText (by decide +kernel) (by decide +kernel) ?_
    simpa using hfresh
  have hvisible : ∀ f, Visible file.imports f → f = fresh := by
    intro f hf
    induction hf with
    | direct hedge htarget =>
      cases List.mem_singleton.mp hedge
      cases htarget
      rfl
    | passed _ hother ih =>
      rw [ih] at hother
      cases hother
  have hrefers : file.Refers .message ["T"] (some y) := refers_of_any (by decide +kernel)
  have hhas : fresh.Has .message ["T"] := has_message_of_any (by decide +kernel)
  have hpath : stale.path = fresh.path := (rfl : stale.path = y).trans (rfl : y = fresh.path)
  refine ⟨stale, fresh, file, hstale, hfile, rfl, hpath, ?_, ?_, hrefers, hhas, ?_⟩
  · intro f g hf hg _
    rw [hvisible f hf, hvisible g hg]
  · intro f hf
    rw [hvisible f hf]
    decide +kernel
  · -- The path of `fresh` is listed when its turn comes.
    have hfiles : (Catalog.ofFiles [stale, file]).files = [stale, file] := by
      have hnone : stale.dependencies = [] := rfl
      have hone : file.dependencies = [fresh] := rfl
      have hlisted : fresh.path ∈ [file.path, stale.path] := by simp [hpath]
      have hother : file.path ∉ [stale.path] := by decide +kernel
      refine (?_ : withDependencies [stale, file] = _)
      rw [withDependencies, closure, if_neg List.not_mem_nil, hnone, List.nil_append, closure,
        if_neg hother, hone, List.append_nil, closure, if_pos hlisted, closure]
    rw [Catalog.Finds, Catalog.message?, Catalog.declared?_eq (Catalog.indexed_ofFiles _).messages,
      hfiles]
    decide +kernel

end File

end Linked

end ProtoSchema
