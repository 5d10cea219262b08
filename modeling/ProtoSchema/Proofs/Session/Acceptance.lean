import ProtoSchema.Proofs.Session.Cycles

/-!
Which roots are accepted. A complete entry has nothing but complete entries
below it, since a linked file is complete when all its edges are; so the entry
of the root alone tells of every file in its import closure. Where all of them
link cleanly the walk finds nothing to report but warnings.
-/

namespace ProtoSchema

open Linked (File Import)
open Relation

def Ledger.Entry.IsComplete (entry : Ledger.Entry) : Prop :=
  ∃ file, entry.file? = some file ∧ file.complete = true

namespace Workshop

def problems (shop : Workshop) (path : VirtualPath) (tree : Schema.File)
    (imports : List Import) : List Linked.Problem :=
  match shop.link path tree imports with
  | .error problems => problems
  | .ok outcome => outcome.warnings

/-- The file is found, read and parsed, each of its import statements has a valid
path, and it links without an error against what its imports come to. -/
def LinksCleanly (shop : Workshop) (path : VirtualPath) : Prop :=
  ∃ tree, shop.Reads path tree ∧
    (∀ statement ∈ tree.imports, ∃ target, VirtualPath.read statement.path = .ok target) ∧
    ∀ entries : VirtualPath → Ledger.Entry,
      (∀ target, tree.Names target → shop.Settles target (entries target)) →
      ∀ problem ∈ shop.problems path tree (edgeList entries tree).edges, ¬problem.IsError

/-- The linker gives up on errors only, and calls a file complete when its edges
are intact. -/
structure JudgesByEdges (shop : Workshop) : Prop where
  exists_error : ∀ path tree imports problems, shop.link path tree imports = .error problems →
    ∃ problem ∈ problems, problem.IsError
  not_isError : ∀ path tree imports outcome, shop.link path tree imports = .ok outcome →
    ∀ problem ∈ outcome.warnings, ¬problem.IsError
  complete_iff : ∀ path tree imports outcome, shop.link path tree imports = .ok outcome →
    (outcome.file.complete = true ↔ ∀ edge ∈ imports, edge.IsIntact)

variable {shop : Workshop} {path : VirtualPath} {tree : Schema.File}

theorem edgeList_intact_iff {entries : VirtualPath → Ledger.Entry} :
    (∀ edge ∈ (edgeList entries tree).edges, edge.IsIntact) ↔
      ∀ target, tree.Names target → (entries target).IsComplete := by
  constructor
  · rintro h target ⟨statement, hmem, htarget⟩
    obtain ⟨named, hnamed, rfl⟩ :=
      Schema.exists_mem_firstImports hmem htarget (List.not_mem_nil (a := target))
    exact h _ (List.mem_map_of_mem hnamed)
  · intro h edge hedge
    obtain ⟨named, hnamed, rfl⟩ := List.mem_map.mp hedge
    exact h named.1 (Schema.exists_of_mem_firstImports hnamed)

theorem edgeList_broken_iff {entries : VirtualPath → Ledger.Entry} :
    (edgeList entries tree).broken = false ↔
      ∀ statement ∈ tree.imports, ∃ target, VirtualPath.read statement.path = .ok target := by
  rw [edgeList, List.any_eq_false]
  constructor
  · intro h statement hmem
    have hsome := h statement hmem
    cases hread : VirtualPath.read statement.path with
    | error why =>
      rw [Schema.Import.target?_of_read_error hread] at hsome
      exact absurd rfl hsome
    | ok target => exact ⟨target, rfl⟩
  · intro h statement hmem
    obtain ⟨target, hread⟩ := h statement hmem
    rw [Schema.Import.target?_of_read_ok hread]
    exact Bool.false_ne_true

/-- A file comes out complete when no statement and no edge fails it and no problem
is an error. -/
theorem verdict_isComplete_iff (hjudges : shop.JudgesByEdges) {imports : EdgeList} :
    (shop.verdict path tree imports).2.IsComplete ↔
      imports.broken = false ∧ (∀ edge ∈ imports.edges, edge.IsIntact) ∧
        ∀ problem ∈ shop.problems path tree imports.edges, ¬problem.IsError := by
  unfold verdict problems
  cases hlink : shop.link path tree imports.edges with
  | error problems =>
    constructor
    · rintro ⟨file, hfile, _⟩
      cases hfile
    · rintro ⟨_, _, hnone⟩
      obtain ⟨problem, hmem, herror⟩ := hjudges.exists_error _ _ _ _ hlink
      exact absurd herror (hnone problem hmem)
  | ok outcome =>
    have hintact := hjudges.complete_iff _ _ _ _ hlink
    have hnone := hjudges.not_isError _ _ _ _ hlink
    constructor
    · rintro ⟨file, hfile, hcomplete⟩
      cases hfile
      unfold Walk.sealed at hcomplete
      by_cases hbroken : imports.broken = true
      · rw [if_pos hbroken] at hcomplete
        cases hcomplete
      · rw [if_neg hbroken] at hcomplete
        exact ⟨Bool.eq_false_iff.mpr hbroken, hintact.mp hcomplete, hnone⟩
    · rintro ⟨hbroken, hedges, _⟩
      refine ⟨_, rfl, ?_⟩
      rw [Walk.sealed, hbroken]
      exact hintact.mpr hedges

/-- What a path settles to is complete when all files in its import closure link
cleanly. -/
theorem Settles.isComplete_iff {entry : Ledger.Entry} (hjudges : shop.JudgesByEdges)
    (h : shop.Settles path entry) :
    entry.IsComplete ↔ ∀ q, shop.Reaches path q → shop.LinksCleanly q := by
  induction h with
  | @lost path loss hread =>
    constructor
    · rintro ⟨file, hfile, _⟩
      cases hfile
    · intro hclean
      obtain ⟨tree, hreads, _⟩ := hclean path .refl
      obtain ⟨physical, hok⟩ := reads_iff.mp hreads
      rw [hread] at hok
      cases hok
  | @linked path physical tree entries hread himports ih =>
    have hreads : shop.Reads path tree := reads_iff.mpr ⟨physical, hread⟩
    rw [verdict_isComplete_iff hjudges, edgeList_broken_iff, edgeList_intact_iff]
    constructor
    · rintro ⟨hvalid, hcomplete, hnone⟩ q hreach
      rcases hreach.cases_head with rfl | ⟨target, hedge, hbelow⟩
      · refine ⟨tree, hreads, hvalid, ?_⟩
        intro others hothers
        rwa [edgeList_congr fun target hnames =>
          (hothers target hnames).unique (himports target hnames)]
      · have hnames := hedge.names hreads
        exact (ih target hnames).mp (hcomplete target hnames) q hbelow
    · intro hclean
      obtain ⟨tree', hreads', hvalid, hnone⟩ := hclean path .refl
      cases hreads.unique hreads'
      refine ⟨hvalid, ?_, hnone entries himports⟩
      intro target hnames
      refine (ih target hnames).mpr ?_
      intro q hbelow
      exact hclean q (.head ⟨tree, hreads, hnames⟩ hbelow)

end Workshop

abbrev Call.Clean (call : Call) : Prop := call.OnlyReports (¬·.IsError)

namespace Walk

variable {shop : Workshop}

theorem not_isError_of_isComplete {path : VirtualPath} {tree : Schema.File} {imports : EdgeList}
    (h : (shop.verdict path tree imports).2.IsComplete) :
    ∀ d ∈ (shop.verdict path tree imports).1, ¬d.IsError := by
  unfold Workshop.verdict at h ⊢
  cases hlink : shop.link path tree imports.edges with
  | error problems =>
    rw [hlink] at h
    obtain ⟨file, hfile, _⟩ := h
    cases hfile
  | ok outcome =>
    intro d hd
    obtain ⟨problem, _, rfl⟩ := List.mem_map.mp hd
    exact nofun

mutual

/-- A walk over files that link cleanly reports no error, unless it is a cycle. -/
theorem Obtains.clean {path site call file after} (h : Obtains shop path site call file after)
    (hjudges : shop.JudgesByEdges) (hsettled : call.Settled shop)
    (hfree : after.CycleFree) (hbelow : ∀ q, shop.Reaches path q → shop.LinksCleanly q)
    (hclean : call.Clean) :
    after.Clean := by
  match h with
  | .compiled file hentry => exact hclean.obtaining (some file)
  | .failed reason hentry =>
    have hcomplete := ((hsettled path _ hentry trivial).isComplete_iff hjudges).mpr hbelow
    obtain ⟨file, hfile, _⟩ := hcomplete
    cases hfile
  | .cycle owner hentry => exact absurd hfree Call.not_cycleFree_cycle
  | .lost loss habsent hread =>
    obtain ⟨tree, hreads, _⟩ := hbelow path .refl
    obtain ⟨physical, hok⟩ := Workshop.reads_iff.mp hreads
    rw [hread] at hok
    cases hok
  | .linked physical tree imports between habsent hread hfollow =>
    have hreads : shop.Reads path tree := Workshop.reads_iff.mpr ⟨physical, hread⟩
    have hbetween : between.CycleFree := hfree.of_prefix (Call.prefix_linked between)
    have hverdict := (hfollow.gathers (hsettled.claiming path) hbetween).settles_verdict hread
    have hfollowed : between.Clean :=
      hfollow.clean hjudges (hsettled.claiming path) hbetween hreads (fun _ hmem => hmem)
        hbelow hclean
    have hnoted := hfollowed.noting
      (not_isError_of_isComplete ((hverdict.isComplete_iff hjudges).mpr hbelow))
    exact (hnoted.closing path _).obtaining _

theorem Follows.clean {path statements soFar call imports after} {tree : Schema.File}
    (h : Follows shop path statements soFar call imports after)
    (hjudges : shop.JudgesByEdges) (hsettled : call.Settled shop)
    (hfree : after.CycleFree) (hreads : shop.Reads path tree)
    (hsub : ∀ statement ∈ statements, statement ∈ tree.imports)
    (hbelow : ∀ q, shop.Reaches path q → shop.LinksCleanly q) (hclean : call.Clean) :
    after.Clean := by
  match h with
  | .done => exact hclean
  | .invalid why hread hrest =>
    obtain ⟨tree', hreads', hvalid, _⟩ := hbelow path .refl
    cases hreads.unique hreads'
    obtain ⟨target, hok⟩ := hvalid _ (hsub _ List.mem_cons_self)
    rw [hread] at hok
    cases hok
  | .repeated target hread hseen hrest =>
    refine hrest.clean hjudges hsettled hfree hreads
      (fun _ hmem => hsub _ (List.mem_cons_of_mem _ hmem)) hbelow (hclean.noting ?_)
    intro d hd
    rw [List.mem_singleton.mp hd]
    exact nofun
  | .followed target file between hread hnew hobtain hrest =>
    have htarget := Schema.Import.target?_of_read_ok hread
    have hedge : shop.Imports path target :=
      ⟨tree, hreads, _, hsub _ List.mem_cons_self, htarget⟩
    have hbetween : between.CycleFree := hfree.of_prefix hrest.diagnostics_prefix
    have hobtained := hobtain.clean hjudges hsettled hbetween
      (fun q hreach => hbelow q (.head hedge hreach)) hclean
    exact hrest.clean hjudges (hobtain.settles hsettled hbetween).1 hfree hreads
      (fun _ hmem => hsub _ (List.mem_cons_of_mem _ hmem)) hbelow hobtained

end

end Walk

namespace Session

/-- The linker of this library judges by edges, however files are found and parsed. -/
theorem judgesByEdges_of_link {shop : Workshop} {warnUnused : Bool}
    (h : shop.link = Linked.link warnUnused) : shop.JudgesByEdges := by
  constructor
  · intro path tree imports problems hlink
    rw [h] at hlink
    obtain ⟨rfl, herror⟩ := Linked.link_eq_error hlink
    exact herror
  · intro path tree imports outcome hlink
    rw [h] at hlink
    obtain ⟨rfl, hnone⟩ := Linked.link_eq_ok hlink
    exact hnone
  · intro path tree imports outcome hlink
    rw [h] at hlink
    obtain ⟨rfl, _⟩ := Linked.link_eq_ok hlink
    exact Linked.linkedFile_complete

theorem workshop_judgesByEdges (settings : Settings) (overlay : Overlay) (store : Store) :
    (workshop settings overlay store).JudgesByEdges :=
  judgesByEdges_of_link (workshop_link settings overlay store)

/-- A first call accepts a root just when every file in its import closure links
cleanly and no two of them import each other in a circle. -/
theorem accepts_iff_closure_links_cleanly (settings : Settings) (overlay : Overlay)
    (store : Store) (outlet : Outlet) (root : VirtualPath) (hfinite : store.IsFinite) :
    (∃ file, ((start outlet).compile (workshop settings overlay store) root).1 = .ok file) ↔
      (∀ path, (workshop settings overlay store).Reaches root path →
        (workshop settings overlay store).LinksCleanly path) ∧
      ¬(workshop settings overlay store).HasCycle root := by
  have hjudges := workshop_judgesByEdges settings overlay store
  have hplain := workshop_linksPlainly settings overlay store
  generalize hshop : workshop settings overlay store = shop at hjudges hplain ⊢
  replace hfinite : shop.store.IsFinite := by
    rw [← hshop]
    exact hfinite
  have htold := (start_idle outlet).course_told hfinite hplain root
  rw [compile_eq]
  simp only [conclude_eq_ok]
  constructor
  · rintro ⟨file, hclean, hfile, hcomplete⟩
    have hfree : ((start outlet).course shop root).2.CycleFree := by
      intro d hd hkind
      obtain ⟨_, _, _, _, _, _, hseverity, _⟩ := htold d hd hkind
      exact hclean d hd hseverity
    obtain ⟨entry, hsettles, hentry⟩ := start_settles hfinite outlet hfree
    have hcompleted : entry.IsComplete := ⟨file, hentry.trans hfile, hcomplete⟩
    exact ⟨(hsettles.isComplete_iff hjudges).mp hcompleted, hsettles.not_hasCycle⟩
  · rintro ⟨hbelow, hacyclic⟩
    have hfree : ((start outlet).course shop root).2.CycleFree := by
      intro d hd hkind
      exact hacyclic (htold d hd hkind).hasCycle
    obtain ⟨entry, hsettles, hentry⟩ := start_settles hfinite outlet hfree
    obtain ⟨file, hfile, hcomplete⟩ := (hsettles.isComplete_iff hjudges).mpr hbelow
    have hclean := ((start_idle outlet).course_obtains hfinite root).clean hjudges
      (start_settled shop outlet) hfree hbelow (by
        intro d hd
        cases hd)
    exact ⟨file, hclean, hentry.symm.trans hfile, hcomplete⟩

/-- Two files in memory, one of which imports the other and uses it. -/
theorem accepts_iff_closure_links_cleanly_two : ∃ (overlay : Overlay) (files : MemoryFiles)
    (root : VirtualPath),
    (∃ file, ((start .silent).compile (workshop .standard overlay files.store) root).1 =
      .ok file) ∧
    (∀ path, (workshop .standard overlay files.store).Reaches root path →
      (workshop .standard overlay files.store).LinksCleanly path) := by
  let bytes (text : String) : List UInt8 := text.toList.map fun c => UInt8.ofNat c.toNat
  let root : VirtualPath := ⟨⟨false, ["a.proto"], by decide⟩, by decide⟩
  let overlay : Overlay := ⟨[⟨⟨false, [], by decide⟩, ⟨"/r"⟩⟩]⟩
  let files : MemoryFiles := ⟨[
    (⟨"/r/a.proto"⟩, bytes "import \"b.proto\"; message A { optional B b = 1; }"),
    (⟨"/r/b.proto"⟩, bytes "message B {}")]⟩
  have hfound : ((start .silent).compile (workshop .standard overlay files.store) root).1.toBool =
      true := by decide +kernel
  have haccepted : ∃ file,
      ((start .silent).compile (workshop .standard overlay files.store) root).1 = .ok file := by
    generalize ((start .silent).compile (workshop .standard overlay files.store) root).1 = answer
      at hfound
    cases answer with
    | error failure => cases hfound
    | ok file => exact ⟨file, rfl⟩
  exact ⟨overlay, files, root, haccepted, ((accepts_iff_closure_links_cleanly .standard overlay
    files.store .silent root files.isFinite_store).mp haccepted).1⟩

end Session

end ProtoSchema
