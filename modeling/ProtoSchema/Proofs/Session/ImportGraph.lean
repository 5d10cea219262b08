import ProtoSchema.Session
import ProtoSchema.Proofs.Ledger.Entries
import Mathlib.Logic.Relation

/-!
The import graph of a workshop, told without a walk. A file has import edges when
it has a place, its text can be read and the text parses. What becomes of a file
is settled by what becomes of the files that it names: the first statement for
each path gives an edge to the file that the path settles to, and the file is
linked against these edges. Nothing is settled on a cycle.
-/

namespace ProtoSchema

open Linked (File Import)
open Relation

inductive Loss where
  | missing (why : Unresolved)
  | unreadable (why : ReadError)
  | unparsed (physical : PhysicalPath) (errors : List SyntaxError)

namespace Loss

def reason : Loss → Failure
  | .missing _ => .notFound
  | .unreadable why => if why.isNotFound then .notFound else .unreadable
  | .unparsed _ _ => .syntaxErrors

def diagnostics (path : VirtualPath) (site : Option ImportSite) : Loss → List Diagnostic
  | .missing why => [ImportFault.diagnostic path site (.notFound why)]
  | .unreadable why => [ImportFault.diagnostic path site (.unreadable why)]
  | .unparsed _ errors => Walk.syntaxDiagnostics path errors

def loaded (path : VirtualPath) : Loss → List (VirtualPath × PhysicalPath)
  | .unparsed physical _ => [(path, physical)]
  | _ => []

end Loss

namespace Schema

def Import.target? (statement : Import) : Option VirtualPath :=
  (VirtualPath.read statement.path).toOption

def File.Names (tree : File) (target : VirtualPath) : Prop :=
  ∃ statement ∈ tree.imports, statement.target? = some target

def firstImports (seen : List VirtualPath) : List Import → List (VirtualPath × Import)
  | [] => []
  | statement :: rest =>
    match statement.target? with
    | none => firstImports seen rest
    | some target =>
      if target ∈ seen then firstImports seen rest
      else (target, statement) :: firstImports (seen ++ [target]) rest

theorem exists_of_mem_firstImports {seen : List VirtualPath} {statements : List Import}
    {named : VirtualPath × Import} (h : named ∈ firstImports seen statements) :
    ∃ statement ∈ statements, statement.target? = some named.1 := by
  induction statements generalizing seen with
  | nil => cases h
  | cons statement rest ih =>
    have hlater (others : List VirtualPath) (hmem : named ∈ firstImports others rest) :
        ∃ found ∈ statement :: rest, found.target? = some named.1 := by
      obtain ⟨found, hfound, htarget⟩ := ih hmem
      exact ⟨found, List.mem_cons_of_mem _ hfound, htarget⟩
    rw [firstImports] at h
    split at h
    · exact hlater _ h
    · next target htarget =>
      split at h
      · exact hlater _ h
      · rcases List.mem_cons.mp h with rfl | hmem
        · exact ⟨statement, List.mem_cons_self, htarget⟩
        · exact hlater _ hmem

/-- A path that a statement names is named by a first one, unless it is in `seen`. -/
theorem exists_mem_firstImports {seen : List VirtualPath} {statements : List Import}
    {statement : Import} {target : VirtualPath} (hmem : statement ∈ statements)
    (htarget : statement.target? = some target) (hnew : target ∉ seen) :
    ∃ named ∈ firstImports seen statements, named.1 = target := by
  induction statements generalizing seen with
  | nil => cases hmem
  | cons first rest ih =>
    rw [firstImports]
    split
    · next hnone =>
      rcases List.mem_cons.mp hmem with rfl | hmem
      · rw [htarget] at hnone
        cases hnone
      · exact ih hmem hnew
    · next other hother =>
      by_cases heq : other = target
      · subst heq
        rw [if_neg hnew]
        exact ⟨_, List.mem_cons_self, rfl⟩
      · have hrest : statement ∈ rest := by
          rcases List.mem_cons.mp hmem with rfl | hmem
          · rw [htarget] at hother
            cases hother
            exact absurd rfl heq
          · exact hmem
        split
        · exact ih hrest hnew
        · have hnew' : target ∉ seen ++ [other] := by
            rw [List.mem_append, List.mem_singleton]
            rintro (hseen | hsame)
            · exact hnew hseen
            · exact heq hsame.symm
          obtain ⟨named, hnamed, hpath⟩ := ih hrest hnew'
          exact ⟨named, List.mem_cons_of_mem _ hnamed, hpath⟩

end Schema

def edgeTo (entries : VirtualPath → Ledger.Entry) (named : VirtualPath × Schema.Import) :
    Import :=
  ⟨named.1, named.2.kind, named.2.position, (entries named.1).file?⟩

def edgeList (entries : VirtualPath → Ledger.Entry) (tree : Schema.File) : EdgeList :=
  ⟨(Schema.firstImports [] tree.imports).map (edgeTo entries),
    tree.imports.any (·.target?.isNone)⟩

theorem edgeList_congr {entries others : VirtualPath → Ledger.Entry} {tree : Schema.File}
    (h : ∀ target, tree.Names target → entries target = others target) :
    edgeList entries tree = edgeList others tree := by
  have hedges : (Schema.firstImports [] tree.imports).map (edgeTo entries) =
      (Schema.firstImports [] tree.imports).map (edgeTo others) := by
    apply List.map_congr_left
    intro named hnamed
    rw [edgeTo, edgeTo, h named.1 (Schema.exists_of_mem_firstImports hnamed)]
  rw [edgeList, edgeList, hedges]

namespace Walk

def sealed (imports : EdgeList) (file : File) : File :=
  if imports.broken then { file with complete := false } else file

end Walk

namespace Workshop

variable (shop : Workshop)

def read (path : VirtualPath) : Except Loss (PhysicalPath × Schema.File) :=
  match shop.overlay.resolve shop.store path with
  | .error why => .error (.missing why)
  | .ok physical =>
    match shop.store.load physical with
    | .error why => .error (.unreadable why)
    | .ok text =>
      match shop.parse path text with
      | .error errors => .error (.unparsed physical errors)
      | .ok tree => .ok (physical, tree)

def verdict (path : VirtualPath) (tree : Schema.File) (imports : EdgeList) :
    List Diagnostic × Ledger.Entry :=
  match shop.link path tree imports.edges with
  | .error problems => (Walk.linkDiagnostics path problems, .failed .linkErrors)
  | .ok outcome =>
    (Walk.warningDiagnostics path outcome.warnings,
      .compiled (Walk.sealed imports outcome.file))

def Reads (path : VirtualPath) (tree : Schema.File) : Prop :=
  ∃ physical text, shop.overlay.resolve shop.store path = .ok physical ∧
    shop.store.load physical = .ok text ∧ shop.parse path text = .ok tree

def Imports (path target : VirtualPath) : Prop := ∃ tree, shop.Reads path tree ∧ tree.Names target

def Reaches (root path : VirtualPath) : Prop := ReflTransGen shop.Imports root path

/-- Some files below the root import each other in a circle. -/
def HasCycle (root : VirtualPath) : Prop :=
  ∃ path, shop.Reaches root path ∧ TransGen shop.Imports path path

inductive Settles : VirtualPath → Ledger.Entry → Prop
  | lost {path : VirtualPath} (loss : Loss) (hread : shop.read path = .error loss) :
      Settles path (.failed loss.reason)
  | linked {path : VirtualPath} (physical : PhysicalPath) (tree : Schema.File)
      (entries : VirtualPath → Ledger.Entry) (hread : shop.read path = .ok (physical, tree))
      (himports : ∀ target, tree.Names target → Settles target (entries target)) :
      Settles path (shop.verdict path tree (edgeList entries tree)).2

variable {shop} {path target root : VirtualPath} {tree : Schema.File}

theorem reads_iff : shop.Reads path tree ↔ ∃ physical, shop.read path = .ok (physical, tree) := by
  unfold Reads read
  constructor
  · rintro ⟨physical, text, hresolve, hload, hparse⟩
    exact ⟨physical, by simp [hresolve, hload, hparse]⟩
  · rintro ⟨physical, h⟩
    split at h
    · cases h
    · next place hresolve =>
      split at h
      · cases h
      · next text hload =>
        split at h
        · cases h
        · next parsed hparse =>
          cases h
          exact ⟨physical, text, hresolve, hload, hparse⟩

theorem read_eq_ok_of_toOption {found : PhysicalPath × Schema.File}
    (h : (shop.read path).toOption = some found) : shop.read path = .ok found := by
  cases hcase : shop.read path with
  | error loss =>
    rw [hcase] at h
    cases h
  | ok other =>
    rw [hcase] at h
    cases h
    rfl

theorem Reads.unique {other : Schema.File} (h : shop.Reads path tree)
    (h' : shop.Reads path other) : tree = other := by
  obtain ⟨physical, hread⟩ := reads_iff.mp h
  obtain ⟨physical', hread'⟩ := reads_iff.mp h'
  rw [hread] at hread'
  cases hread'
  rfl

theorem Imports.names (h : shop.Imports path target) (hreads : shop.Reads path tree) :
    tree.Names target := by
  obtain ⟨other, hother, hnames⟩ := h
  rwa [hother.unique hreads] at hnames

theorem verdict_isFinal (shop : Workshop) (path : VirtualPath) (tree : Schema.File)
    (imports : EdgeList) :
    (shop.verdict path tree imports).2.IsFinal := by
  unfold verdict
  split
  · trivial
  · trivial

/-- A path settles to one entry only. -/
theorem Settles.unique {entry other : Ledger.Entry} (h : shop.Settles path entry)
    (h' : shop.Settles path other) : entry = other := by
  induction h generalizing other with
  | lost loss hread =>
    cases h' with
    | lost loss' hread' =>
      rw [hread] at hread'
      cases hread'
      rfl
    | linked physical tree entries hread' =>
      rw [hread] at hread'
      cases hread'
  | linked physical tree entries hread himports ih =>
    cases h' with
    | lost loss hread' =>
      rw [hread] at hread'
      cases hread'
    | linked physical' tree' entries' hread' himports' =>
      rw [hread] at hread'
      cases hread'
      rw [edgeList_congr fun target hnames => ih target hnames (himports' target hnames)]

/-- A settled path lies on no cycle and leads to none. -/
theorem Settles.acc {entry : Ledger.Entry} (h : shop.Settles path entry) :
    Acc (Function.swap shop.Imports) path := by
  induction h with
  | @lost path loss hread =>
    refine ⟨_, ?_⟩
    rintro target ⟨tree, hreads, _⟩
    obtain ⟨physical, hok⟩ := reads_iff.mp hreads
    rw [hread] at hok
    cases hok
  | @linked path physical tree entries hread _ ih =>
    refine ⟨_, ?_⟩
    intro target himports
    exact ih target (Imports.names himports (reads_iff.mpr ⟨physical, hread⟩))

theorem not_hasCycle_of_acc (h : Acc (Function.swap shop.Imports) root) : ¬shop.HasCycle root := by
  have hbelow : ∀ path, shop.Reaches root path → Acc (Function.swap shop.Imports) path := by
    intro path hreach
    induction hreach with
    | refl => exact h
    | tail _ hedge ih => exact ih.inv hedge
  have hnone : ∀ path, Acc (Function.swap shop.Imports) path →
      ¬TransGen shop.Imports path path := by
    intro path hacc
    induction hacc with
    | intro path _ ih =>
      intro hcircle
      obtain ⟨next, hedge, hback⟩ := TransGen.head'_iff.mp hcircle
      exact ih next hedge (.tail' hback hedge)
  rintro ⟨path, hreach, hcircle⟩
  exact hnone path (hbelow path hreach) hcircle

theorem Settles.not_hasCycle {entry : Ledger.Entry} (h : shop.Settles root entry) :
    ¬shop.HasCycle root := not_hasCycle_of_acc h.acc

end Workshop

end ProtoSchema
