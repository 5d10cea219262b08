import ProtoSchema.Proofs.Linked.Sites
import ProtoSchema.Proofs.Linked.Visibility
import ProtoSchema.Proofs.Text.OneLine

/-!
What linking has to tell is told on one line. Its problems quote names that the file declares or
refers to, the paths of its imports and, where a name is taken, the path of the visible file that
has it. None of them has a newline when no word of the file has one, no path of its imports, and
none of a file below them.
-/

namespace ProtoSchema

open Text (OneLine)

theorem DottedName.oneLine_text {name : DottedName} (h : ∀ part ∈ name, OneLine part) :
    OneLine name.text := .intercalate (by decide) h

theorem TypeName.oneLine_text {name : TypeName} (h : name.Worded OneLine) :
    OneLine name.text := by
  refine .append ?_ (DottedName.oneLine_text h)
  split
  · decide
  · decide

namespace Schema

variable {W : String → Prop} {file : File} {region : Region}

structure Region.Worded (W : String → Prop) (region : Region) : Prop where
  scope : ∀ part ∈ region.scope, W part
  messages : ∀ message ∈ region.messages, message.Worded W
  enums : ∀ enum ∈ region.enums, enum.Worded W
  extendBlocks : ∀ block ∈ region.extendBlocks, ExtendBlock.Worded W block

theorem forall_mem_member {scope : DottedName} {name : String} (hscope : ∀ part ∈ scope, W part)
    (hname : W name) : ∀ part ∈ scope.member name, W part :=
  List.forall_mem_append.mpr ⟨hscope, List.forall_mem_singleton.mpr hname⟩

/-- The messages of a scope are those written there and the bodies of groups. -/
theorem worded_declaredMessages {messages : List Message} {blocks : List Extend}
    (hmessages : ∀ message ∈ messages, message.Worded W)
    (hblocks : ∀ block ∈ blocks, ExtendBlock.Worded W block) :
    ∀ message ∈ Linked.declaredMessages messages blocks, message.Worded W := by
  intro message hmessage
  rcases Linked.Declaration.mem_declaredMessages.mp hmessage with h | ⟨block, hblock, h⟩
  · exact hmessages message h
  · exact (hblocks block hblock).groups message h

theorem File.HasRegion.worded (hfile : file.Worded W) (h : file.HasRegion region) :
    region.Worded W := by
  induction h with
  | outer =>
    refine ⟨?_, worded_declaredMessages hfile.messages hfile.extendBlocks, hfile.enums,
      hfile.extendBlocks⟩
    intro part hpart
    cases hpackage : file.package with
    | none =>
      rw [File.region, File.scope, hpackage] at hpart
      cases hpart
    | some name =>
      rw [File.region, File.scope, hpackage] at hpart
      exact hfile.package name hpackage part hpart
  | inner _ hmessage ih =>
    have hworded := ih.messages _ hmessage
    have hblocks := hworded.extendBlocks
    cases hworded with
    | intro hname _ _ hmessages henums _ _ _ =>
      exact ⟨forall_mem_member ih.scope hname, worded_declaredMessages hmessages hblocks, henums,
        hblocks⟩

/-- A declared name is made of words of the file. -/
theorem File.Declares.worded {name : DottedName} {kind : Linked.SymbolKind}
    (hfile : file.Worded W) (h : file.Declares name kind) : ∀ part ∈ name, W part := by
  have houter : (File.region file).Worded W := File.HasRegion.outer.worded hfile
  cases h with
  | package _ hscope => exact fun part hpart => houter.scope part (hscope.subset hpart)
  | message hregion hmessage =>
    obtain ⟨hname, _⟩ := (hregion.worded hfile).messages _ hmessage
    exact forall_mem_member (hregion.worded hfile).scope hname
  | field hregion hmessage hfield =>
    obtain ⟨hname, hfields, _⟩ := (hregion.worded hfile).messages _ hmessage
    exact forall_mem_member (forall_mem_member (hregion.worded hfile).scope hname)
      (hfields _ hfield).name
  | oneof hregion hmessage honeof =>
    obtain ⟨hname, _, honeofs, _⟩ := (hregion.worded hfile).messages _ hmessage
    exact forall_mem_member (forall_mem_member (hregion.worded hfile).scope hname)
      (honeofs _ honeof)
  | enum hregion henum =>
    exact forall_mem_member (hregion.worded hfile).scope
      ((hregion.worded hfile).enums _ henum).name
  | enumValue hregion henum hvalue =>
    exact forall_mem_member (hregion.worded hfile).scope
      (((hregion.worded hfile).enums _ henum).values _ hvalue)
  | extension hregion hblock hfield =>
    exact forall_mem_member (hregion.worded hfile).scope
      (((hregion.worded hfile).extendBlocks _ hblock).fields _ hfield).name
  | service hservice => exact forall_mem_member houter.scope (hfile.services _ hservice).name
  | method hservice hmethod =>
    exact forall_mem_member
      (forall_mem_member houter.scope (hfile.services _ hservice).name)
      ((hfile.services _ hservice).methods _ hmethod).name

end Schema

namespace Linked

inductive File.Legible : File → Prop
  | intro {file : File} (path : OneLine file.path.text)
      (imports : ∀ edge ∈ file.imports, ∀ target, edge.target = some target → Legible target) :
      Legible file

structure ImportEdge.Legible (edge : Import) : Prop where
  path : OneLine edge.path.text
  target : ∀ target, edge.target = some target → target.Legible

variable {path : VirtualPath} {tree : Schema.File} {imports : List Import} {file : File}

theorem File.Legible.oneLine_path (h : file.Legible) : OneLine file.path.text := by
  cases h with
  | intro path _ => exact path

theorem File.Legible.target (h : file.Legible) : ∀ edge ∈ file.imports, ∀ target,
    edge.target = some target → target.Legible := by
  cases h with
  | intro _ imports => exact imports

theorem legible_linkedFile (hpath : OneLine path.text)
    (himports : ∀ edge ∈ imports, edge.Legible) :
    (linkedFile path tree imports).Legible :=
  .intro hpath fun edge hedge => (himports edge hedge).target

theorem Visible.legible (himports : ∀ edge ∈ imports, edge.Legible)
    (h : Visible imports file) : file.Legible := by
  induction h with
  | direct hedge htarget => exact (himports _ hedge).target _ htarget
  | passed _ hother ih =>
    rw [File.reexports, List.mem_filterMap] at hother
    obtain ⟨edge, hedge, htarget⟩ := hother
    exact ih.target edge (List.mem_of_mem_filter hedge) _ htarget

theorem Scope.allows_oneLine (scope : Scope) :
    scope.Allows OneLine fun problem => OneLine problem.fault.message where
  notDefined _ _ hname _ := .append (.append (by decide) (TypeName.oneLine_text hname)) (by decide)
  notType _ kind _ hname := by
    have hkind : OneLine kind.noun := by
      cases kind <;> decide
    exact .append (.append (.append (.append (by decide) (TypeName.oneLine_text hname))
      (by decide)) hkind) (by decide)
  notMessage _ _ hname := .append (.append (by decide) (TypeName.oneLine_text hname)) (by decide)
  badMapKey _ _ hname := .append (.append (by decide) (TypeName.oneLine_text hname)) (by decide)

namespace Declaration

variable {visible : List Exposed} {problem : Problem}

/-- A refusal names what is declared, and the visible file that has the name. -/
theorem exists_of_mem_enterAll {declarations : List Declaration} {table : SymbolTable}
    (h : problem ∈ (enterAll visible declarations table).2) : ∃ d ∈ declarations,
      problem.fault = .defined d.name ∨
      ∃ exposed ∈ visible, problem.fault = .definedElsewhere d.name exposed.file.path := by
  induction declarations generalizing table with
  | nil => cases h
  | cons declaration rest ih =>
    rcases List.mem_append.mp h with h | h
    · refine ⟨declaration, List.mem_cons_self, ?_⟩
      have hfirst : problem ∈ (declaration.enter visible table).2 := h
      unfold enter at hfirst
      split at hfirst
      · split at hfirst
        · exact .inl (List.mem_singleton.mp hfirst ▸ rfl)
        · cases hfirst
      · split at hfirst
        · next file hclash =>
          obtain ⟨exposed, hexposed, hfile⟩ := List.exists_of_findSome?_eq_some hclash
          obtain ⟨_, _, rfl⟩ := Option.map_eq_some_iff.mp hfile
          exact .inr ⟨exposed, hexposed, List.mem_singleton.mp hfirst ▸ rfl⟩
        · cases hfirst
    · obtain ⟨d, hd, htold⟩ := ih h
      exact ⟨d, List.mem_cons_of_mem _ hd, htold⟩

theorem oneLine_of_mem_enterAll (htree : tree.Worded OneLine)
    (hvisible : ∀ exposed ∈ visible, exposed.file.Legible)
    (h : problem ∈ (enterAll visible (ofFile tree) []).2) : OneLine problem.fault.message := by
  obtain ⟨d, hd, htold⟩ := exists_of_mem_enterAll h
  have hdeclared : tree.Declares d.name d.kind := exists_mem_ofFile_iff.mp ⟨d, hd, rfl, rfl⟩
  have hname : OneLine (DottedName.text d.name) := DottedName.oneLine_text (hdeclared.worded htree)
  rcases htold with hfault | ⟨exposed, hexposed, hfault⟩
  · rw [hfault]
    exact .append (.append (by decide) hname) (by decide)
  · rw [hfault]
    exact .append (.append (.append (.append (by decide) hname) (by decide))
      (hvisible exposed hexposed).oneLine_path) (by decide)

end Declaration

/-- Every problem that linking comes upon is told on one line. -/
theorem oneLine_of_mem_linkProblems {warnUnused : Bool} {problem : Problem}
    (htree : tree.Worded OneLine) (himports : ∀ edge ∈ imports, edge.Legible)
    (h : problem ∈ linkProblems warnUnused path tree imports) : OneLine problem.fault.message := by
  rcases List.mem_append.mp h with h | h
  · rcases List.mem_append.mp h with h | h
    · exact Declaration.oneLine_of_mem_enterAll htree
        (fun exposed hexposed => (visible_of_mem_exposed hexposed).legible himports) h
    · obtain ⟨finding, hfinding, hproblem⟩ := List.mem_filterMap.mp h
      cases finding with
      | problem found =>
        cases hproblem
        exact (Scope.allows_oneLine _).bindFile htree problem hfinding
      | reference found => cases hproblem
  · split at h
    · obtain ⟨edge, hedge, rfl⟩ := Scope.exists_of_mem_unusedFrom _ h
      exact .append (.append (by decide) (himports edge hedge).path) (by decide)
    · cases h

end Linked

end ProtoSchema
