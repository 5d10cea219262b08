import ProtoSchema.Proofs.Linked.Supply
import ProtoSchema.Proofs.Linked.Usage
import ProtoSchema.Proofs.Session.Consistency

/-!
What a file passes on of its imports. Of the statements for one path only the first gives an
edge, and the edge is of the kind of that statement. So a file that is imported publicly is
passed on if the first statement for it is the public one, in whatever spelling the others
come behind it; its messages and enums are then known wherever the importing file is imported.
Behind a statement of another kind a public one comes to nothing.
-/

namespace ProtoSchema

open Linked (File Import Scope SymbolKind)
open Relation

namespace Schema

variable {seen : List VirtualPath} {statements before : List Import} {statement : Import}
  {target : VirtualPath}

theorem fst_notMem_of_mem_firstImports {named : VirtualPath × Import}
    (h : named ∈ firstImports seen statements) : named.1 ∉ seen := by
  induction statements generalizing seen with
  | nil => cases h
  | cons first rest ih =>
    cases htarget : first.target? with
    | none =>
      rw [firstImports_of_none htarget] at h
      exact ih h
    | some other =>
      by_cases hseen : other ∈ seen
      · rw [firstImports_of_mem htarget hseen] at h
        exact ih h
      · rw [firstImports_of_notMem htarget hseen] at h
        rcases List.mem_cons.mp h with rfl | h
        · exact hseen
        · exact fun hmem => ih h (List.mem_append_left _ hmem)

/-- Of the statements for a path the first is kept and no other. -/
theorem filter_firstImports (behind : List Import) (hnames : statement.target? = some target)
    (hfirst : ∀ earlier ∈ before, earlier.target? ≠ some target) (hnew : target ∉ seen) :
    (firstImports seen (before ++ statement :: behind)).filter (·.1 = target) =
      [(target, statement)] := by
  induction before generalizing seen with
  | nil =>
    rw [List.nil_append, firstImports_of_notMem hnames hnew,
      List.filter_cons_of_pos (by simp), List.filter_eq_nil_iff.mpr]
    rintro named hnamed
    have hnever := fst_notMem_of_mem_firstImports hnamed
    simpa using fun hsame : named.1 = target => hnever (by simp [hsame])
  | cons first rest ih =>
    obtain ⟨hother, hrest⟩ := List.forall_mem_cons.mp hfirst
    rw [List.cons_append]
    cases hpath : first.target? with
    | none =>
      rw [firstImports_of_none hpath]
      exact ih hrest hnew
    | some other =>
      have hne : other ≠ target := fun hsame => hother (hsame ▸ hpath)
      by_cases hseen : other ∈ seen
      · rw [firstImports_of_mem hpath hseen]
        exact ih hrest hnew
      · rw [firstImports_of_notMem hpath hseen, List.filter_cons_of_neg (by simpa using hne)]
        refine ih hrest ?_
        simpa [hnew] using hne.symm

end Schema

namespace Workshop

variable {shop : Workshop} {path : VirtualPath} {tree : Schema.File} {file : File}

/-- The tree was read at the path, and the file was linked from it with an edge for the first
statement for each path. -/
structure Makes (shop : Workshop) (path : VirtualPath) (tree : Schema.File) (file : File) :
    Prop where
  reads : shop.Reads path tree
  linked : ∃ imports entries, (shop.verdict path tree imports).2 = .compiled file ∧
    imports.edges = (Schema.firstImports [] tree.imports).map (edgeTo entries)

end Workshop

namespace Walk

variable {shop : Workshop} {path other : VirtualPath} {call after : Call} {found : File}

theorem edgeTo_congr {entries others : VirtualPath → Ledger.Entry}
    {named : List (VirtualPath × Schema.Import)}
    (h : ∀ n ∈ named, entries n.1 = others n.1) :
    named.map (edgeTo entries) = named.map (edgeTo others) :=
  List.map_congr_left fun n hn => by rw [edgeTo, edgeTo, h n hn]

/-- Following statements adds an edge for the first one for each path. -/
theorem Follows.exists_edges {statements soFar imports}
    (h : Follows shop path statements soFar call imports after) :
    ∃ entries, imports.edges = soFar.edges ++
      (Schema.firstImports (soFar.edges.map (·.path)) statements).map (edgeTo entries) := by
  induction statements generalizing soFar call with
  | nil =>
    cases h
    exact ⟨fun _ => .failed .abandoned, by simp [Schema.firstImports]⟩
  | cons statement rest ih =>
    cases h with
    | invalid why hread hrest =>
      rw [Schema.firstImports_of_none (Schema.Import.target?_of_read_error hread)]
      -- `ih` must find its list of edges in `hrest`: it differs from `soFar` in `broken`
      have hbelow := ih hrest
      exact hbelow
    | repeated target hread hseen hrest =>
      rw [Schema.firstImports_of_mem (Schema.Import.target?_of_read_ok hread) hseen]
      exact ih hrest
    | followed target file between hread hnew hobtain hrest =>
      obtain ⟨entries, hedges⟩ := ih hrest
      rw [List.map_append, List.map_singleton] at hedges
      let entry : Ledger.Entry := file.elim (.failed .abandoned) .compiled
      have hentry : entry.file? = file := by cases file <;> rfl
      refine ⟨fun p => if p = target then entry else entries p, ?_⟩
      rw [hedges, Schema.firstImports_of_notMem (Schema.Import.target?_of_read_ok hread) hnew,
        List.append_assoc, List.singleton_append, List.map_cons]
      congr 2
      · simp [edgeTo, hentry]
      · refine edgeTo_congr fun named hnamed => ?_
        have hnever := Schema.fst_notMem_of_mem_firstImports hnamed
        rw [if_neg fun hsame => hnever (by simp [hsame])]

mutual

/-- A file that a walk publishes was there before, or is made in it at a path without an
entry. -/
theorem Obtains.makes {path site call file after} (h : Obtains shop path site call file after)
    (hs : call.Standing) (hfound : after.ledger.entry? other = some (.compiled found)) :
    call.ledger.entry? other = some (.compiled found) ∨
      call.ledger.entry? other = none ∧ ∃ tree, shop.Makes other tree found := by
  match h with
  | .compiled _ _ => exact .inl hfound
  | .failed _ _ => exact .inl hfound
  | .cycle _ _ => exact .inl hfound
  | .lost loss _ _ =>
    rw [Call.closing_ledger, Ledger.entry?_put] at hfound
    by_cases hother : other = path
    · rw [if_pos hother] at hfound
      cases hfound
    · rw [if_neg hother, Call.noting_ledger, Call.loading_ledger, Call.claiming_ledger,
        Ledger.entry?_put, if_neg hother] at hfound
      exact .inl hfound
  | .linked physical tree imports between habsent hread hfollow =>
    rw [Call.obtaining_ledger, Call.closing_ledger, Ledger.entry?_put] at hfound
    by_cases hother : other = path
    · rw [if_pos hother, Option.some.injEq] at hfound
      obtain ⟨entries, hedges⟩ := hfollow.exists_edges
      subst hother
      exact .inr ⟨habsent, tree, Workshop.reads_iff.mpr ⟨physical, hread⟩, imports, entries,
        hfound, hedges⟩
    · rw [if_neg hother] at hfound
      have hbelow := hfollow.makes ((hs.claiming habsent).loading [(path, physical)]) hfound
      rw [Call.loading_ledger, Call.claiming_ledger, Ledger.entry?_put, if_neg hother] at hbelow
      exact hbelow

theorem Follows.makes {path statements soFar call imports after}
    (h : Follows shop path statements soFar call imports after) (hs : call.Standing)
    (hfound : after.ledger.entry? other = some (.compiled found)) :
    call.ledger.entry? other = some (.compiled found) ∨
      call.ledger.entry? other = none ∧ ∃ tree, shop.Makes other tree found := by
  match h with
  | .done => exact .inl hfound
  | .invalid _ _ hrest => exact hrest.makes (hs.noting _) hfound
  | .repeated _ _ _ hrest => exact hrest.makes (hs.noting _) hfound
  | .followed _ _ between _ _ hobtain hrest =>
    rcases hrest.makes (hobtain.standing hs).1 hfound with hbetween | ⟨habsent, hmade⟩
    · exact hobtain.makes hs hbetween
    · exact .inr ⟨hobtain.absent_before hs habsent, hmade⟩

end

end Walk

namespace Linked

variable {file target other : File} {imports : List Import} {kind : SymbolKind}
  {name : DottedName}

/-- The messages and enums of a file are in its symbol table. -/
theorem File.SymbolsAgree.symbol?_of_has {declared : Schema.File} (h : file.SymbolsAgree declared)
    (hhas : file.Has kind name) : file.symbol? name = some kind := by
  cases kind with
  | message => exact (h.messages.mem_iff name).mp (List.mem_map.mpr hhas)
  | enum => exact (h.enums.mem_iff name).mp (List.mem_map.mpr hhas)
  | _ => cases hhas

/-- A scope has the symbols of what a file passes on that is imported. -/
theorem supplies_of_passedOn (path : VirtualPath) (declared : Schema.File) {edge : Import}
    (hedge : edge ∈ imports) (htarget : edge.target = some target)
    (hpassed : file ∈ passedOn target) (hsymbol : file.symbol? name = some kind) :
    (Scope.ofFile path declared imports).1.Supplies name kind file.path := by
  obtain ⟨i, hi⟩ := List.mem_iff_getElem?.mp hedge
  exact .inr ⟨⟨i, file⟩, mem_exposedFrom_iff.mpr ⟨i, edge, target, hi, htarget, hpassed, by simp⟩,
    hsymbol, rfl⟩

/-- From wherever the file is imported, each message and enum of the target can be referred to by
its full name: the name is known, and is found to be that of the target unless it comes from
somewhere else as well. -/
def File.MakesKnown (file target : File) : Prop :=
  ∀ path declared imports, (∃ edge ∈ imports, edge.target = some file) →
    ∀ kind name, target.Has kind name →
      let scope := (Scope.ofFile path declared imports).1
      scope.Supplies name kind target.path ∧
        ((∀ other source, scope.Supplies name other source →
            other = kind ∧ source = target.path) →
          ∀ place, scope.resolve? ⟨true, name⟩ place true = some ⟨name, kind, target.path⟩)

/-- A full name that comes from one file only is found to be the symbol of that file. -/
theorem Scope.Supplies.resolve?_eq {scope : Scope} {path : VirtualPath}
    (h : scope.Supplies name kind path)
    (honce : ∀ other source, scope.Supplies name other source → other = kind ∧ source = path)
    (place : DottedName) (typesOnly : Bool) :
    scope.resolve? ⟨true, name⟩ place typesOnly = some ⟨name, kind, path⟩ := by
  obtain ⟨found, hfound⟩ := exists_lookup?_of_supplies h
  obtain ⟨hkind, hfile⟩ := honce _ _ (supplies_of_lookup? hfound)
  have hname := name_of_lookup? hfound
  obtain ⟨foundName, foundKind, foundFile⟩ := found
  simp only at hkind hfile hname
  rw [hkind, hfile, hname] at hfound
  exact hfound

end Linked

namespace Workshop

variable {settings : Settings} {overlay : Overlay} {store : Store} {path : VirtualPath}
  {tree : Schema.File} {file : File}

/-- A file that is made has the edges of the first statements of its tree. -/
theorem Makes.exists_imports (h : (Session.workshop settings overlay store).Makes path tree file) :
    ∃ entries, file.imports = (Schema.firstImports [] tree.imports).map (edgeTo entries) := by
  obtain ⟨_, imports, entries, hverdict, hedges⟩ := h
  obtain ⟨_, himports, _⟩ := verdict_eq_compiled (Session.workshop_keepsEdges _ _ _)
    (Session.workshop_judgesByEdges _ _ _) hverdict
  exact ⟨entries, himports.trans hedges⟩

/-- A file that is made has a table of what its tree declares. -/
theorem Makes.symbolsAgree (h : (Session.workshop settings overlay store).Makes path tree file) :
    file.SymbolsAgree tree := by
  obtain ⟨_, imports, _, hverdict, _⟩ := h
  unfold verdict at hverdict
  split at hverdict
  · cases hverdict
  · next outcome hlink =>
    cases hverdict
    rw [Session.workshop_link] at hlink
    have hagree := Linked.symbolsAgree_of_link hlink
    unfold Walk.sealed
    split
    · exact ⟨hagree.nodup, hagree.symbol?_iff, ⟨hagree.messages.nodup, hagree.messages.mem_iff⟩,
        ⟨hagree.enums.nodup, hagree.enums.mem_iff⟩,
        ⟨hagree.services.nodup, hagree.services.mem_iff⟩⟩
    · exact hagree

end Workshop

/-- A tree that was read, of which something is true. -/
theorem Workshop.exists_reads_of_any (shop : Workshop) (path : VirtualPath)
    (holds : Schema.File → Bool)
    (h : (shop.read path).toOption.any (fun found => holds found.2) = true) :
    ∃ tree, shop.Reads path tree ∧ holds tree = true := by
  obtain ⟨⟨physical, tree⟩, hread, hholds⟩ := (Option.any_eq_true _ _).mp h
  exact ⟨tree, reads_iff.mpr ⟨physical, read_eq_ok_of_toOption hread⟩, hholds⟩

/-- A published file of which something is true. -/
theorem Ledger.exists_compiled_of_any (ledger : Ledger) (path : VirtualPath) (holds : File → Bool)
    (h : ((ledger.entry? path).bind Entry.file?).any holds = true) :
    ∃ file, ledger.entry? path = some (.compiled file) ∧ holds file = true := by
  obtain ⟨file, hfile, hholds⟩ := (Option.any_eq_true _ _).mp h
  obtain ⟨entry, hentry, hcompiled⟩ := Option.bind_eq_some_iff.mp hfile
  cases entry with
  | pending owner => cases hcompiled
  | failed reason => cases hcompiled
  | compiled found =>
    cases hcompiled
    exact ⟨file, hentry, hholds⟩

/-- Of published files, those that are passed on are listed, since each path has one file. -/
theorem Ledger.Coherent.mem_passedOn {ledger : Ledger}
    {origin : VirtualPath → Schema.File → Prop} {path : VirtualPath} {file target : File}
    (h : ledger.Coherent origin) (hfile : ledger.entry? path = some (.compiled file))
    (htarget : target ∈ file.reexports) : target ∈ Linked.passedOn file := by
  have hpublished {f : File} (hreached : ReflTransGen (fun a b => b ∈ a.reexports) file f) :
      ledger.entry? f.path = some (.compiled f) := by
    induction hreached with
    | refl => rwa [(h path file hfile).path_eq]
    | tail _ hnext ih =>
      obtain ⟨edge, hedge, hreached⟩ :=
        Linked.File.mem_dependencies.mp (Linked.File.mem_dependencies_of_mem_reexports hnext)
      have hentry := (h _ _ ih).backs edge hedge _ hreached
      rwa [(h _ _ hentry).path_eq]
  refine (Linked.mem_passedOn_iff ?_).mpr (.single htarget)
  intro f g hf hg hpath
  have hsame := hpublished hf
  rw [hpath, hpublished hg] at hsame
  cases hsame
  rfl

namespace Session

variable {outlet : Outlet} {turns : List Turn} {session : Session} {path : VirtualPath}
  {file : File}

/-- A file that a turn publishes was there before, or is made in the turn. -/
theorem Idle.serve_makes (h : session.Idle) {turn : Turn} (hfinite : turn.store.IsFinite)
    (hfile : (session.serve turn).ledger.entry? path = some (.compiled file)) :
    session.ledger.entry? path = some (.compiled file) ∨
      session.ledger.entry? path = none ∧ ∃ tree, turn.shop.Makes path tree file := by
  refine (serve_induction (P := fun later => later.Idle ∧
    (∀ p, later.ledger.entry? p = none → session.ledger.entry? p = none) ∧
    ∀ p found, later.ledger.entry? p = some (.compiled found) →
      session.ledger.entry? p = some (.compiled found) ∨
        session.ledger.entry? p = none ∧ ∃ tree, turn.shop.Makes p tree found) ?_
    ⟨h, fun _ => id, fun _ _ => .inl⟩).2.2 path file hfile
  rintro later root _ ⟨hidle, habsent, hmakes⟩
  refine ⟨hidle.compile hfinite root, fun p hp => habsent p (absent_before hidle hfinite hp),
    fun p found hfound => ?_⟩
  rcases (hidle.course_obtains hfinite root).makes hidle.opening_standing hfound with
    hbefore | ⟨hnone, hmade⟩
  · exact hmakes p found hbefore
  · exact .inr ⟨habsent p hnone, hmade⟩

/-- A published file is made from the tree that its path was read as. -/
theorem after_makes (hfinite : ∀ turn ∈ turns, turn.store.IsFinite)
    (hfile : (after outlet turns).ledger.entry? path = some (.compiled file)) :
    ∃ turn ∈ turns, ∃ tree, Origin outlet turns path tree ∧ turn.shop.Makes path tree file := by
  induction turns using List.reverseRecOn with
  | nil => cases hfile
  | append_singleton turns turn ih =>
    have hbefore := fun t hmem => hfinite t (List.mem_append_left _ hmem)
    have hlast := hfinite turn (List.mem_append_right _ (List.mem_singleton.mpr rfl))
    have hserved := hfile
    rw [after_concat] at hserved
    rcases (after_published outlet turns hbefore).idle.serve_makes hlast hserved with
      hold | ⟨habsent, tree, hmade⟩
    · obtain ⟨earlier, hmem, tree, horigin, hmade⟩ := ih hbefore hold
      exact ⟨earlier, List.mem_append_left _ hmem, tree, horigin.append turn, hmade⟩
    · exact ⟨turn, List.mem_append_right _ (List.mem_singleton.mpr rfl), tree,
        ⟨turns, turn, [], rfl, habsent, by simp [hfile], hmade.reads⟩, hmade⟩

/-- Among the edges of a published file, that for a path is the one of the first statement for
the path. -/
theorem after_filter_imports (hfinite : ∀ turn ∈ turns, turn.store.IsFinite)
    (hfile : (after outlet turns).ledger.entry? path = some (.compiled file))
    {tree : Schema.File} (horigin : Origin outlet turns path tree) {x : VirtualPath}
    {before behind : List Schema.Import} {statement : Schema.Import}
    (himports : tree.imports = before ++ statement :: behind)
    (hnames : statement.target? = some x)
    (hfirst : ∀ earlier ∈ before, earlier.target? ≠ some x) :
    ∃ reached, file.imports.filter (·.path = x) =
      [⟨x, statement.kind, statement.position, reached⟩] := by
  obtain ⟨turn, _, read, hread, hmade⟩ := after_makes hfinite hfile
  rw [hread.unique hfinite horigin] at hmade
  obtain ⟨entries, hedges⟩ := hmade.exists_imports
  refine ⟨(entries x).file?, ?_⟩
  rw [hedges, himports, List.filter_map]
  exact congrArg (List.map (edgeTo entries))
    (Schema.filter_firstImports behind hnames hfirst List.not_mem_nil)

theorem links_of_any {x : VirtualPath} (hfile : session.ledger.entry? path = some (.compiled file))
    (h : file.imports.any (fun edge => decide (edge.path = x) && edge.target.isSome) = true) :
    session.Links path x := by
  obtain ⟨edge, hedge, hreached⟩ := List.any_eq_true.mp h
  rw [Bool.and_eq_true, decide_eq_true_eq] at hreached
  exact ⟨file, hfile, edge, hedge, hreached.1, hreached.2⟩

variable {x : VirtualPath} {target : File} {tree : Schema.File}
  {before behind : List Schema.Import} {statement : Schema.Import}

/-- Of a file that links to a path the one edge for it leads to the file that the path is
published as. -/
theorem reached_eq_of_links (hfinite : ∀ turn ∈ turns, turn.store.IsFinite)
    (hfile : (after outlet turns).ledger.entry? path = some (.compiled file))
    (htarget : (after outlet turns).ledger.entry? x = some (.compiled target))
    (hlinks : (after outlet turns).Links path x) {edge : Import}
    (hedges : file.imports.filter (·.path = x) = [edge]) : edge.target = some target := by
  obtain ⟨linked, hlinked, other, hother, hpath, hresolved⟩ := hlinks
  rw [hfile] at hlinked
  cases hlinked
  have hmem : other ∈ file.imports.filter (·.path = x) :=
    List.mem_filter.mpr ⟨hother, by simpa using hpath⟩
  rw [hedges, List.mem_singleton] at hmem
  subst hmem
  obtain ⟨reached, hreached⟩ := Option.isSome_iff_exists.mp hresolved
  have hentry := ((after_published outlet turns hfinite).coherent path file hfile).backs _ hother
    reached hreached
  rw [hpath, htarget] at hentry
  cases hentry
  exact hreached

/-- A published file passes on another just when its one edge for the other's path is a public
import. -/
theorem mem_reexports_iff_of_filter_imports (hfinite : ∀ turn ∈ turns, turn.store.IsFinite)
    (hfile : (after outlet turns).ledger.entry? path = some (.compiled file))
    (htarget : (after outlet turns).ledger.entry? x = some (.compiled target)) {edge : Import}
    (hedges : file.imports.filter (·.path = x) = [edge]) (hreached : edge.target = some target) :
    target ∈ file.reexports ↔ edge.kind = .reexport := by
  have hcoherent := (after_published outlet turns hfinite).coherent
  rw [File.reexports, List.mem_filterMap]
  constructor
  · rintro ⟨other, hother, hfound⟩
    obtain ⟨hother, hkind⟩ := List.mem_filter.mp hother
    have hentry := (hcoherent path file hfile).backs other hother target hfound
    have hpath : other.path = x :=
      (hcoherent _ _ hentry).path_eq.symm.trans (hcoherent _ _ htarget).path_eq
    have hsame : other ∈ file.imports.filter (·.path = x) :=
      List.mem_filter.mpr ⟨hother, by simpa using hpath⟩
    rw [hedges, List.mem_singleton] at hsame
    subst hsame
    simpa using hkind
  · intro hkind
    have hmem : edge ∈ file.imports :=
      List.mem_of_mem_filter (hedges ▸ List.mem_singleton.mpr rfl)
    exact ⟨edge, List.mem_filter.mpr ⟨hmem, by simpa using hkind⟩, hreached⟩

/-- What a published file passes on is known wherever that file is imported. -/
theorem makesKnown_of_mem_reexports (hfinite : ∀ turn ∈ turns, turn.store.IsFinite)
    (hfile : (after outlet turns).ledger.entry? path = some (.compiled file))
    (htarget : (after outlet turns).ledger.entry? x = some (.compiled target))
    (hmem : target ∈ file.reexports) : file.MakesKnown target := by
  rintro importer declared imports ⟨edge, hedge, hedgeTarget⟩ kind name hhas
  obtain ⟨turn, _, read, _, hmade⟩ := after_makes hfinite htarget
  have hpassed := (after_published outlet turns hfinite).coherent.mem_passedOn hfile hmem
  have hsupplies := Linked.supplies_of_passedOn importer declared hedge hedgeTarget hpassed
    (hmade.symbolsAgree.symbol?_of_has hhas)
  exact ⟨hsupplies, fun honce place => hsupplies.resolve?_eq honce place true⟩

/-- Whatever other statements for the path a published file has, the first one decides. Its edge
is the only one for the path. The imported file is passed on just when that statement is a public
one, and then its messages and enums are known wherever the file is imported. -/
theorem first_import_decides_reexport (hfinite : ∀ turn ∈ turns, turn.store.IsFinite)
    (hfile : (after outlet turns).ledger.entry? path = some (.compiled file))
    (htarget : (after outlet turns).ledger.entry? x = some (.compiled target))
    (hlinks : (after outlet turns).Links path x) (horigin : Origin outlet turns path tree)
    (himports : tree.imports = before ++ statement :: behind)
    (hnames : statement.target? = some x)
    (hfirst : ∀ earlier ∈ before, earlier.target? ≠ some x) :
    file.imports.filter (·.path = x) =
        [⟨x, statement.kind, statement.position, some target⟩] ∧
    (target ∈ file.reexports ↔ statement.kind = .reexport) ∧
    (statement.kind = .reexport → file.MakesKnown target) := by
  obtain ⟨reached, hedges⟩ := after_filter_imports hfinite hfile horigin himports hnames hfirst
  have hreached := reached_eq_of_links hfinite hfile htarget hlinks hedges
  have hreexports := mem_reexports_iff_of_filter_imports hfinite hfile htarget hedges hreached
  refine ⟨?_, hreexports, fun hkind =>
    makesKnown_of_mem_reexports hfinite hfile htarget (hreexports.mpr hkind)⟩
  rw [hedges]
  simpa using hreached

/-- A public import with a plain one of the same file, in another spelling, behind it. -/
theorem first_import_decides_reexport_respelled : ∃ (overlay : Overlay) (files : MemoryFiles)
    (f x : VirtualPath) (file target : File),
    let later := after .silent [⟨.standard, overlay, files.store, .compile f⟩]
    later.ledger.entry? f = some (.compiled file) ∧
      later.ledger.entry? x = some (.compiled target) ∧
      file.imports.map (fun edge => (edge.path, edge.kind)) = [(x, .reexport)] ∧
      target ∈ file.reexports ∧ target.Has .message ["X"] ∧ file.MakesKnown target := by
  let bytes (text : String) : List UInt8 := text.toList.map fun c => UInt8.ofNat c.toNat
  let f : VirtualPath := ⟨⟨false, ["f.proto"], by decide⟩, by decide⟩
  let x : VirtualPath := ⟨⟨false, ["x.proto"], by decide⟩, by decide⟩
  let overlay : Overlay := ⟨[⟨⟨false, [], by decide⟩, ⟨"/r"⟩⟩]⟩
  let files : MemoryFiles := ⟨[
    (⟨"/r/f.proto"⟩, bytes "import public \"x.proto\"; import \"./x.proto\";"),
    (⟨"/r/x.proto"⟩, bytes "message X {}")]⟩
  let turns : List Turn := [⟨.standard, overlay, files.store, .compile f⟩]
  let shop := workshop .standard overlay files.store
  have hfinite : ∀ turn ∈ turns, turn.store.IsFinite :=
    List.forall_mem_singleton.mpr files.isFinite_store
  obtain ⟨tree, hreads, hstatements⟩ := shop.exists_reads_of_any f
    (fun tree => decide (tree.imports.map (fun statement => (statement.target?, statement.kind)) =
      [(some x, .reexport), (some x, .plain)])) (by decide +kernel)
  obtain ⟨statement, behind, himports, hstatement, _⟩ :=
    List.map_eq_cons_iff.mp (of_decide_eq_true hstatements)
  obtain ⟨hnames, hkind⟩ := Prod.mk.inj hstatement
  obtain ⟨file, hfile, hholds⟩ := (after .silent turns).ledger.exists_compiled_of_any f
    (fun file => decide (file.imports.map (fun edge => (edge.path, edge.kind)) =
      [(x, .reexport)]) && file.imports.any fun edge =>
        decide (edge.path = x) && edge.target.isSome) (by decide +kernel)
  rw [Bool.and_eq_true, decide_eq_true_eq] at hholds
  obtain ⟨target, htarget, hhas⟩ := (after .silent turns).ledger.exists_compiled_of_any x
    (fun file => file.allMessages.any fun message => decide (message.fullName = ["X"]))
    (by decide +kernel)
  have horigin : Origin .silent turns f tree :=
    ⟨[], _, [], rfl, rfl, by rw [List.nil_append, hfile]; simp, hreads⟩
  obtain ⟨_, hpassed, hknown⟩ := first_import_decides_reexport hfinite hfile htarget
    (links_of_any hfile hholds.2) horigin (himports.trans (List.nil_append _).symm) hnames
    (List.forall_mem_nil _)
  exact ⟨overlay, files, f, x, file, target, hfile, htarget, hholds.1, hpassed.mpr hkind,
    Linked.File.has_message_of_any hhas, hknown hkind⟩

/-- A public import behind a plain one of the same file comes to nothing: what the file has
cannot be referred to where the importing file is imported, and a reference to it is an error. -/
theorem reexport_lost_behind_plain_import : ∃ (overlay : Overlay) (files : MemoryFiles)
    (g f x : VirtualPath) (tree : Schema.File) (file target : File),
    let turns : List Turn := [⟨.standard, overlay, files.store, .compile g⟩]
    Origin .silent turns f tree ∧
      tree.imports.map (fun statement => (statement.target?, statement.kind)) =
        [(some x, .plain), (some x, .reexport)] ∧
      (after .silent turns).ledger.entry? f = some (.compiled file) ∧
      (after .silent turns).ledger.entry? x = some (.compiled target) ∧
      (after .silent turns).Links f x ∧ target.Has .message ["X"] ∧ ¬file.MakesKnown target ∧
      ((start .silent).reported (workshop .standard overlay files.store) g).map (·.kind) =
        [.bindFailure, .unresolvedReference] := by
  let bytes (text : String) : List UInt8 := text.toList.map fun c => UInt8.ofNat c.toNat
  let g : VirtualPath := ⟨⟨false, ["g.proto"], by decide⟩, by decide⟩
  let f : VirtualPath := ⟨⟨false, ["f.proto"], by decide⟩, by decide⟩
  let x : VirtualPath := ⟨⟨false, ["x.proto"], by decide⟩, by decide⟩
  let overlay : Overlay := ⟨[⟨⟨false, [], by decide⟩, ⟨"/r"⟩⟩]⟩
  let files : MemoryFiles := ⟨[
    (⟨"/r/x.proto"⟩, bytes "message X {}"),
    (⟨"/r/f.proto"⟩, bytes "import \"x.proto\"; import public \"x.proto\";"),
    (⟨"/r/g.proto"⟩, bytes "import \"f.proto\"; message G { optional .X x = 1; }")]⟩
  let turns : List Turn := [⟨.standard, overlay, files.store, .compile g⟩]
  let shop := workshop .standard overlay files.store
  obtain ⟨tree, hreads, hstatements⟩ := shop.exists_reads_of_any f
    (fun tree => decide (tree.imports.map (fun statement => (statement.target?, statement.kind)) =
      [(some x, .plain), (some x, .reexport)])) (by decide +kernel)
  obtain ⟨file, hfile, hholds⟩ := (after .silent turns).ledger.exists_compiled_of_any f
    (fun file => (file.imports.any fun edge => decide (edge.path = x) && edge.target.isSome) &&
      ((Scope.ofFile g .empty [⟨f, .plain, .none, some file⟩]).1.resolve? ⟨true, ["X"]⟩ []
        true).isNone) (by decide +kernel)
  rw [Bool.and_eq_true, Option.isNone_iff_eq_none] at hholds
  obtain ⟨target, htarget, hhas⟩ := (after .silent turns).ledger.exists_compiled_of_any x
    (fun file => file.allMessages.any fun message => decide (message.fullName = ["X"]))
    (by decide +kernel)
  have hmessage := Linked.File.has_message_of_any hhas
  refine ⟨overlay, files, g, f, x, tree, file, target,
    ⟨[], _, [], rfl, rfl, by rw [List.nil_append, hfile]; simp, hreads⟩,
    of_decide_eq_true hstatements, hfile, htarget, links_of_any hfile hholds.1, hmessage,
    fun hknown => ?_, by decide +kernel⟩
  obtain ⟨hsupplies, _⟩ := hknown g .empty [⟨f, .plain, .none, some file⟩]
    ⟨_, List.mem_singleton.mpr rfl, rfl⟩ .message ["X"] hmessage
  obtain ⟨found, hfound⟩ := Scope.exists_lookup?_of_supplies hsupplies
  have hnone := hholds.2
  rw [Scope.resolve?, if_pos rfl, hfound] at hnone
  cases hnone

end Session

end ProtoSchema
