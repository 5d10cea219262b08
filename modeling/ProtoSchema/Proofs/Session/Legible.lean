import ProtoSchema.Proofs.Diagnostic.Short
import ProtoSchema.Proofs.Linked.Legible
import ProtoSchema.Proofs.Overlay.OneLine
import ProtoSchema.Proofs.Schema.Telling
import ProtoSchema.Proofs.Session.History
import ProtoSchema.Proofs.Session.Trail

/-!
The diagnostics of a session, line by line. A walk tells of the paths that it comes by and of what
reading and linking have found. The paths come from the roots and from import statements, so that
none has a newline unless one of these has; and linking shows only words and paths. What is left
are three ways for a newline into a diagnostic, each by a literal or an escape of a text. In the
short style a session without them is reported with one line for each diagnostic.
-/

namespace ProtoSchema

open Linked (File Import)
open Text (OneLine)

namespace ImportFault

def OneLine : ImportFault → Prop
  | .notFound why => Text.OneLine (whereLooked why)
  | .unreadable why => Text.OneLine why.message
  | .failedBefore _ => True
  | .cycle chain => ∀ path ∈ chain, Text.OneLine path.text

variable {fault : ImportFault} {path : VirtualPath} {site : Option ImportSite}

theorem OneLine.message (h : fault.OneLine) (hpath : Text.OneLine path.text) (imported : Bool) :
    Text.OneLine (fault.message path imported) := by
  have hsubject : Text.OneLine ((if imported then "import \"" else "\"") ++ path.text ++ "\"") := by
    refine .append (.append ?_ hpath) (by decide)
    split
    · decide
    · decide
  have hreason (reason : Failure) : Text.OneLine reason.text := by
    cases reason <;> decide
  cases fault with
  | notFound why =>
    exact .append (.append (.append (.append (by decide) hsubject) (by decide)) h) (by decide)
  | unreadable why => exact .append (.append (.append (by decide) hsubject) (by decide)) h
  | failedBefore reason =>
    cases reason with
    | notFound => exact .append (by decide) hsubject
    | _ => exact .append (.append (.append hsubject (by decide)) (hreason _)) (by decide)
  | cycle chain =>
    cases chain with
    | nil => exact .append (.append (by decide) hpath) (by decide)
    | cons first rest =>
      refine .append (.append (.append (by decide) hpath) (by decide))
        (.intercalate (by decide) ?_)
      exact List.forall_mem_map.mpr h

/-- The fault is told at the statement that met it, or at the file itself. -/
theorem OneLine.diagnostic (h : fault.OneLine) (hpath : Text.OneLine path.text)
    (hsite : ∀ s ∈ site, Text.OneLine s.file.text) : (fault.diagnostic path site).OneLine := by
  cases site with
  | none => exact ⟨hpath, h.message hpath false⟩
  | some s => exact ⟨hsite s rfl, h.message hpath true⟩

end ImportFault

namespace Walk

variable {path : VirtualPath}

theorem oneLine_of_mem_syntaxDiagnostics {errors : List SyntaxError} (hpath : OneLine path.text)
    (h : ∀ e ∈ errors, OneLine e.message) : ∀ d ∈ syntaxDiagnostics path errors, d.OneLine := by
  have hrejected : OneLine (SyntaxFault.message .rejected) := by decide
  refine List.forall_mem_map.mpr fun e he => ⟨hpath, ?_⟩
  split at he
  · rw [List.mem_singleton.mp he]
    exact hrejected
  · exact h e he

theorem oneLine_of_mem_linkDiagnostics {problems : List Linked.Problem}
    (hpath : OneLine path.text) (h : ∀ p ∈ problems, OneLine p.fault.message) :
    ∀ d ∈ linkDiagnostics path problems, d.OneLine := by
  have hrejected : OneLine (Linked.BindFault.message .rejected) := by decide
  refine List.forall_mem_map.mpr fun p hp => ⟨hpath, ?_⟩
  split at hp
  · exact h p hp
  · rcases List.mem_append.mp hp with hp | hp
    · exact h p hp
    · rw [List.mem_singleton.mp hp]
      exact hrejected

theorem oneLine_of_mem_warningDiagnostics {warnings : List Linked.Problem}
    (hpath : OneLine path.text) (h : ∀ p ∈ warnings, OneLine p.fault.message) :
    ∀ d ∈ warningDiagnostics path warnings, d.OneLine :=
  List.forall_mem_map.mpr fun p hp => ⟨hpath, h p hp⟩

theorem mem_of_mem_cycleChain {stack : List VirtualPath} {p : VirtualPath}
    (h : p ∈ cycleChain stack path) : p ∈ stack ∨ p = path := by
  unfold cycleChain at h
  split at h
  · cases h
  · rcases List.mem_append.mp h with h | h
    · exact .inl ((List.dropWhile_suffix _).subset h)
    · exact .inr (List.mem_singleton.mp h)

end Walk

structure Workshop.OneLine (shop : Workshop) : Prop where
  losses : ∀ path loss, shop.read path = .error loss → Text.OneLine path.text →
    ∀ site : Option ImportSite, (∀ s ∈ site, Text.OneLine s.file.text) →
      ∀ d ∈ loss.diagnostics path site, d.OneLine
  imports : ∀ path physical tree, shop.read path = .ok (physical, tree) →
    ∀ statement ∈ tree.imports, Text.OneLine statement.path
  verdicts : ∀ path physical tree, shop.read path = .ok (physical, tree) →
    Text.OneLine path.text → ∀ imports : EdgeList, (∀ edge ∈ imports.edges, edge.Legible) →
      (∀ d ∈ (shop.verdict path tree imports).1, d.OneLine) ∧
      ∀ file, (shop.verdict path tree imports).2 = .compiled file → file.Legible

structure Call.Legible (call : Call) : Prop where
  files : ∀ path file, call.ledger.entry? path = some (.compiled file) → file.Legible
  stack : ∀ path ∈ call.stack, OneLine path.text
  diagnostics : call.OnlyReports Diagnostic.OneLine

theorem Ledger.Entry.eq_compiled_of_file? {entry : Ledger.Entry} {file : File}
    (h : entry.file? = some file) : entry = .compiled file := by
  cases entry with
  | compiled other =>
    cases h
    rfl
  | pending owner => cases h
  | failed reason => cases h

namespace Call.Legible

variable {call : Call} {path : VirtualPath} {entry : Ledger.Entry}

theorem noting (h : call.Legible) {ds : List Diagnostic} (hds : ∀ d ∈ ds, d.OneLine) :
    (call.noting ds).Legible := ⟨h.files, h.stack, h.diagnostics.noting hds⟩

theorem loading (h : call.Legible) (loaded : List (VirtualPath × PhysicalPath)) :
    (call.loading loaded).Legible := ⟨h.files, h.stack, h.diagnostics⟩

theorem files_put (h : call.Legible) (hentry : ∀ file, entry = .compiled file → file.Legible) :
    ∀ other file, Ledger.entry? (call.ledger.put path entry) other = some (.compiled file) →
      file.Legible := by
  intro other file hfile
  rw [Ledger.entry?_put] at hfile
  split at hfile
  · exact hentry file (Option.some.inj hfile)
  · exact h.files other file hfile

theorem claiming (h : call.Legible) (hpath : OneLine path.text) : (call.claiming path).Legible :=
  ⟨h.files_put nofun, List.forall_mem_append.mpr ⟨h.stack, List.forall_mem_singleton.mpr hpath⟩,
    h.diagnostics⟩

theorem closing (h : call.Legible) (hentry : ∀ file, entry = .compiled file → file.Legible) :
    (call.closing path entry).Legible :=
  ⟨h.files_put hentry, fun p hp => h.stack p (List.dropLast_subset _ hp), h.diagnostics⟩

theorem obtaining (h : call.Legible) (file : Option File) : (call.obtaining file).Legible := by
  refine ⟨?_, ?_, h.diagnostics.obtaining file⟩
  · rw [Call.obtaining_ledger]
    exact h.files
  · rw [Call.obtaining_stack]
    exact h.stack

end Call.Legible

namespace Walk

variable {shop : Workshop}

-- The cases are the ways in which a file can be obtained and a statement be followed.
mutual

theorem Relays.legible (hshop : shop.OneLine) {depth path site relay file after}
    (h : Relays shop depth path site relay file after) (hcall : relay.call.Legible)
    (hpath : OneLine path.text) (hsite : ∀ s ∈ site, OneLine s.file.text) :
    after.call.Legible ∧ ∀ found, file = some found → found.Legible := by
  have htold (fault : ImportFault) (hfault : fault.OneLine) :
      ∀ d ∈ [fault.diagnostic path site], d.OneLine :=
    List.forall_mem_singleton.mpr (hfault.diagnostic hpath hsite)
  match h with
  | .compiled file hentry =>
    refine ⟨hcall.obtaining (some file), ?_⟩
    rintro _ ⟨⟩
    exact hcall.files path file hentry
  | .failed reason _ => exact ⟨hcall.noting (htold (.failedBefore reason) trivial), nofun⟩
  | .cycle owner _ =>
    refine ⟨hcall.noting (htold (.cycle _) fun p hp => ?_), nofun⟩
    rcases mem_of_mem_cycleChain hp with hp | rfl
    · exact hcall.stack p hp
    · exact hpath
  | .abandoned _ =>
    have hclaimed : Call.Legible
        { relay.call with ledger := relay.call.ledger.put path (.pending relay.call.worker) } :=
      ⟨hcall.files_put nofun, hcall.stack, hcall.diagnostics⟩
    have hnoted := hclaimed.noting (htold (.failedBefore .abandoned) trivial)
    exact ⟨⟨hnoted.files_put nofun, hnoted.stack, hnoted.diagnostics⟩, nofun⟩
  | .lost loss _ hread =>
    exact ⟨(((hcall.claiming hpath).loading (loss.loaded path)).noting
      (hshop.losses path loss hread hpath site hsite)).closing nofun, nofun⟩
  | .linked physical tree imports between _ hread hfollow =>
    obtain ⟨hbetween, hedges⟩ := hfollow.legible hshop
      ((hcall.claiming hpath).loading [(path, physical)]) hpath
      (hshop.imports path physical tree hread) (List.forall_mem_nil _)
    obtain ⟨hds, hfile⟩ := hshop.verdicts path physical tree hread hpath imports hedges
    refine ⟨((hbetween.noting hds).closing hfile).obtaining _, fun found hfound => hfile found ?_⟩
    exact Ledger.Entry.eq_compiled_of_file? hfound

theorem RelaysBelow.legible (hshop : shop.OneLine) {depth path statements soFar relay imports after}
    (h : RelaysBelow shop depth path statements soFar relay imports after)
    (hcall : relay.call.Legible) (hpath : OneLine path.text)
    (hstatements : ∀ statement ∈ statements, OneLine statement.path)
    (hedges : ∀ edge ∈ soFar.edges, edge.Legible) :
    after.call.Legible ∧ ∀ edge ∈ imports.edges, edge.Legible := by
  match h with
  | .done => exact ⟨hcall, hedges⟩
  | .invalid why hread hrest =>
    obtain ⟨hfirst, hothers⟩ := List.forall_mem_cons.mp hstatements
    have hwhy := VirtualPath.oneLine_of_read_error hfirst hread
    refine hrest.legible hshop (hcall.noting (List.forall_mem_singleton.mpr ⟨hpath, ?_⟩)) hpath
      hothers hedges
    exact .append (.append (.append (by decide) hfirst) (by decide)) hwhy
  | .repeated target hread _ hrest =>
    obtain ⟨hfirst, hothers⟩ := List.forall_mem_cons.mp hstatements
    have htarget := VirtualPath.oneLine_of_read hfirst hread
    refine hrest.legible hshop (hcall.noting (List.forall_mem_singleton.mpr ⟨hpath, ?_⟩)) hpath
      hothers hedges
    exact .append (.append (by decide) htarget) (by decide)
  | .followed target file between hread _ hrelay hrest =>
    obtain ⟨hfirst, hothers⟩ := List.forall_mem_cons.mp hstatements
    have htarget := VirtualPath.oneLine_of_read hfirst hread
    obtain ⟨hbetween, hfile⟩ := hrelay.legible hshop hcall htarget
      (by rintro _ ⟨⟩; exact hpath)
    exact hrest.legible hshop hbetween hpath hothers
      (List.forall_mem_append.mpr ⟨hedges, List.forall_mem_singleton.mpr ⟨htarget, hfile⟩⟩)

end

end Walk

def Store.OneLine (store : Store) : Prop :=
  ∀ place why, store.load place = .error why → Text.OneLine place.spelling →
    Text.OneLine why.message

theorem MemoryFiles.exists_entry_of_load {files : MemoryFiles} {place : PhysicalPath}
    {text : String} (h : files.store.load place = .ok text) :
    ∃ entry ∈ files.entries, Text.decodeUtf8? entry.2 = some text := by
  have hload : files.load place = .ok text := h
  unfold load at hload
  split at hload
  · next bytes hbytes =>
    obtain ⟨entry, hfound, rfl⟩ := Option.map_eq_some_iff.mp hbytes
    refine ⟨entry, List.mem_of_find?_eq_some hfound, ?_⟩
    unfold decodeFile at hload
    split at hload
    · next decoded hdecoded =>
      cases hload
      exact hdecoded
    · cases hload
  · cases hload

theorem MemoryFiles.oneLine_store (files : MemoryFiles) : files.store.OneLine := by
  intro place why h hplace
  have hload : files.load place = .error why := h
  unfold load decodeFile at hload
  split at hload
  · split at hload
    · cases hload
    · cases hload
      exact .append (by decide) hplace
  · cases hload
    exact .append (by decide) hplace

/-- Neither what is asked for nor where files are brings a newline in, and the texts are such that
nothing told of them shows one. -/
structure Turn.Unbroken (turn : Turn) : Prop where
  roots : ∀ root ∈ turn.request.roots, OneLine root.text
  overlay : turn.overlay.OneLine
  store : turn.store.OneLine
  texts : ∀ place text, turn.store.load place = .ok text → Schema.File.Unbroken text

/-- Files in memory without a backslash are such texts. -/
theorem Turn.unbroken_of_memory {settings : Settings} {overlay : Overlay} {files : MemoryFiles}
    {request : Request} (hroots : ∀ root ∈ request.roots, OneLine root.text)
    (hoverlay : overlay.OneLine) (hfiles : ∀ entry ∈ files.entries,
      ∀ text ∈ Text.decodeUtf8? entry.2, '\\' ∉ text.toList) :
    Turn.Unbroken ⟨settings, overlay, files.store, request⟩ := by
  refine ⟨hroots, hoverlay, files.oneLine_store, fun place text hload => ?_⟩
  obtain ⟨entry, hentry, hdecoded⟩ := MemoryFiles.exists_entry_of_load hload
  exact Schema.File.unbroken_of_backslash_notMem (hfiles entry hentry text hdecoded)

namespace Session

variable {turn : Turn} {shop : Workshop} {root : VirtualPath} {session : Session}

theorem oneLine_whereLooked {overlay : Overlay} {store : Store} {path : VirtualPath}
    {why : Unresolved} (hoverlay : overlay.OneLine) (hpath : OneLine path.text)
    (h : overlay.resolve store path = .error why) : OneLine (ImportFault.whereLooked why) := by
  unfold Overlay.resolve at h
  split at h
  · cases h
    exact (by decide : OneLine "no mapping covers it")
  · next physical hlocate =>
    split at h
    · cases h
    · cases h
      exact .append (by decide) (hoverlay.locate hpath hlocate)

/-- Linking shows only words of the file and paths. -/
theorem oneLine_verdict {warnUnused : Bool} {path : VirtualPath} {tree : Schema.File}
    {imports : EdgeList} (hshop : shop.link = Linked.link warnUnused) (hpath : OneLine path.text)
    (htree : tree.Worded OneLine) (hedges : ∀ edge ∈ imports.edges, edge.Legible) :
    (∀ d ∈ (shop.verdict path tree imports).1, d.OneLine) ∧
      ∀ file, (shop.verdict path tree imports).2 = .compiled file → file.Legible := by
  have hproblems (problem : Linked.Problem)
      (hproblem : problem ∈ Linked.linkProblems warnUnused path tree imports.edges) :
      OneLine problem.fault.message :=
    Linked.oneLine_of_mem_linkProblems htree hedges hproblem
  unfold Workshop.verdict
  rw [hshop]
  split
  · next problems hlink =>
    refine ⟨Walk.oneLine_of_mem_linkDiagnostics hpath ?_, nofun⟩
    rw [(Linked.link_eq_error hlink).1]
    exact hproblems
  · next outcome hlink =>
    obtain ⟨rfl, _⟩ := Linked.link_eq_ok hlink
    refine ⟨Walk.oneLine_of_mem_warningDiagnostics hpath hproblems, ?_⟩
    have hlinked : (Linked.linkedFile path tree imports.edges).Legible :=
      Linked.legible_linkedFile hpath hedges
    rintro _ ⟨⟩
    unfold Walk.sealed
    split
    · exact .intro hlinked.oneLine_path hlinked.target
    · exact hlinked

theorem oneLine_of_unbroken (h : turn.Unbroken) : turn.shop.OneLine where
  losses path loss hread hpath site hsite := by
    unfold Workshop.read at hread
    split at hread
    · next why hresolve =>
      cases hread
      have hwhy : (ImportFault.notFound why).OneLine :=
        oneLine_whereLooked h.overlay hpath hresolve
      exact List.forall_mem_singleton.mpr (hwhy.diagnostic hpath hsite)
    · next physical hresolve =>
      have hplace := h.overlay.locate hpath (Overlay.resolve_eq_ok hresolve).1
      split at hread
      · next why hload =>
        cases hread
        have hwhy : (ImportFault.unreadable why).OneLine := h.store physical why hload hplace
        exact List.forall_mem_singleton.mpr (hwhy.diagnostic hpath hsite)
      · next text hload =>
        split at hread
        · next errors hparse =>
          cases hread
          have htold := (Schema.File.unbroken_iff.mp (h.texts physical text hload)).1 errors hparse
          exact Walk.oneLine_of_mem_syntaxDiagnostics hpath htold
        · cases hread
  imports path physical tree hread := by
    obtain ⟨place, text, _, hload, hparse⟩ := Workshop.reads_iff.mpr ⟨physical, hread⟩
    exact (h.texts place text hload).imports tree hparse
  verdicts path physical tree hread hpath imports hedges := by
    obtain ⟨place, text, _, hload, hparse⟩ := Workshop.reads_iff.mpr ⟨physical, hread⟩
    have hlinks : turn.shop.link = Linked.link turn.settings.warnUnused :=
      workshop_link turn.settings turn.overlay turn.store
    have hparse : Schema.File.read text = .ok tree := hparse
    exact oneLine_verdict hlinks hpath (Schema.File.worded_of_read hparse) hedges

structure Legible (session : Session) : Prop where
  files : ∀ path file, session.ledger.entry? path = some (.compiled file) → file.Legible
  diagnostics : ∃ items, session.outlet = .buffer items ∧ ∀ d ∈ items, d.OneLine

theorem Legible.compile (h : session.Legible) (hshop : shop.OneLine) (hroot : OneLine root.text) :
    (session.compile shop root).2.Legible := by
  obtain ⟨items, houtlet, hitems⟩ := h.diagnostics
  obtain ⟨outlet, hrelays⟩ := Walk.resolve_relays shop (depthBound shop) root none
    ⟨session.opening, session.outlet⟩
  obtain ⟨hcourse, _⟩ := hrelays.legible hshop
    ⟨h.files, List.forall_mem_nil _, List.forall_mem_nil _⟩ hroot nofun
  have hcourse : (session.course shop root).2.Legible := hcourse
  refine ⟨hcourse.files, items ++ session.reported shop root, ?_, ?_⟩
  · rw [compile_outlet, houtlet, Outlet.takeAll_buffer]
  · refine List.forall_mem_append.mpr ⟨hitems, ?_⟩
    rcases reported_eq_or shop root session with hreported | hreported
    · rw [hreported]
      exact hcourse.diagnostics
    · rw [hreported]
      refine List.forall_mem_append.mpr ⟨hcourse.diagnostics, List.forall_mem_singleton.mpr ?_⟩
      exact ⟨hroot, .append (.append (by decide) hroot) (by decide)⟩

theorem after_legible {turns : List Turn} (hturns : ∀ turn ∈ turns, turn.Unbroken) :
    (after (.buffer []) turns).Legible := by
  induction turns using List.reverseRecOn with
  | nil => exact ⟨nofun, [], rfl, List.forall_mem_nil _⟩
  | append_singleton turns turn ih =>
    obtain ⟨hearlier, hlast⟩ := List.forall_mem_append.mp hturns
    have hturn : turn.Unbroken := List.forall_mem_singleton.mp hlast
    rw [after_concat]
    exact serve_induction (fun session root hroot h =>
      h.compile (oneLine_of_unbroken hturn) (hturn.roots root hroot)) (ih hearlier)

/-- The short style gives each diagnostic of a session a line of its own, errors first and then
warnings, with nothing behind the last newline. A newline within a diagnostic comes from a root,
a mapping or the store, or from a text with one of three things: an escape by a newline, a dialect
or an import whose name has a newline. -/
theorem short_report_gives_each_a_line (turns : List Turn)
    (hturns : ∀ turn ∈ turns, turn.Unbroken) (sources : VirtualPath → Option String)
    (ds : List Diagnostic) (hds : ∀ d ∈ ds, d ∈ (after (.buffer []) turns).outlet.items) :
    Report.format .brief sources ds = String.join
        ((ds.filter (·.severity = .error) ++ ds.filter (·.severity ≠ .error)).map
          fun d => d.location ++ ": " ++ d.severity.text ++ ": " ++ d.message ++ "\n") ∧
      (Report.format .brief sources ds).toList.count '\n' = ds.length ∧
      Text.splitAt '\n' (Report.format .brief sources ds).toList =
        (ds.filter (·.severity = .error) ++ ds.filter (·.severity ≠ .error)).map
          (·.described.toList) ++ [[]] := by
  obtain ⟨items, houtlet, hitems⟩ := (after_legible hturns).diagnostics
  have hheld : (after (.buffer []) turns).outlet.items = items := by
    rw [houtlet]
    rfl
  have hlines : ∀ d ∈ ds, d.OneLine := fun d hd => hitems d (hheld ▸ hds d hd)
  have hordered : ds.filter (·.severity = .error) ++ ds.filter (·.severity ≠ .error) =
      Report.ordered ds :=
    congrArg₂ (· ++ ·) rfl (List.filter_congr fun d _ => decide_not)
  rw [hordered]
  exact ⟨rfl, Report.count_eq_length_iff.mpr hlines, Report.splitAt_formatBare_brief hlines⟩

/-- Two files in two calls: the error comes first, although the warning was met before it. -/
theorem short_report_gives_each_a_line_mixed : ∃ (turns : List Turn) (ds : List Diagnostic),
    ds = (after (.buffer []) turns).outlet.items ∧
    Report.format .brief (fun _ => none) ds =
      "b.proto:1:23: error: expected identifier, found \"\x7b\"\n" ++
        "a.proto:1:19: warning: \"c.proto\" is imported more than once\n" ∧
    (Report.format .brief (fun _ => none) ds).toList.count '\n' = ds.length := by
  let bytes (text : String) : List UInt8 := text.toList.map fun c => UInt8.ofNat c.toNat
  let a : VirtualPath := ⟨⟨false, ["a.proto"], by decide⟩, by decide⟩
  let b : VirtualPath := ⟨⟨false, ["b.proto"], by decide⟩, by decide⟩
  let overlay : Overlay := ⟨[⟨⟨false, [], by decide⟩, ⟨"/r"⟩⟩]⟩
  let files : MemoryFiles := ⟨[
    (⟨"/r/a.proto"⟩, bytes "import \"c.proto\"; import \"c.proto\"; message A \x7b\x7d"),
    (⟨"/r/b.proto"⟩, bytes "message B \x7b \x7d message \x7b \x7d"),
    (⟨"/r/c.proto"⟩, bytes "message C \x7b\x7d")]⟩
  let turns : List Turn := [⟨.standard, overlay, files.store, .compile a⟩,
    ⟨.standard, overlay, files.store, .compile b⟩]
  have hoverlay : overlay.OneLine :=
    List.forall_mem_singleton.mpr (by decide : OneLine "/r")
  have hfiles : ∀ entry ∈ files.entries, ∀ text ∈ Text.decodeUtf8? entry.2,
      '\\' ∉ text.toList := by decide +kernel
  have hturns : ∀ turn ∈ turns, turn.Unbroken := List.forall_mem_cons.mpr
    ⟨Turn.unbroken_of_memory (by decide) hoverlay hfiles,
      List.forall_mem_singleton.mpr (Turn.unbroken_of_memory (by decide) hoverlay hfiles)⟩
  exact ⟨turns, _, rfl, by decide +kernel,
    (short_report_gives_each_a_line turns hturns _ _ fun _ hd => hd).2.1⟩

/-- A newline behind a backslash is no escape, and the message shows the two as they stand. So the
one diagnostic of the call is reported on two lines. -/
theorem short_report_broken_by_escape : ∃ (turn : Turn) (d : Diagnostic),
    (after (.buffer []) [turn]).outlet.items = [d] ∧
    Report.format .brief (fun _ => none) [d] =
      "a.proto:1:26: error: invalid escape sequence \\\n\n" ∧
    (Report.format .brief (fun _ => none) [d]).toList.count '\n' = 2 := by
  let bytes (text : String) : List UInt8 := text.toList.map fun c => UInt8.ofNat c.toNat
  let a : VirtualPath := ⟨⟨false, ["a.proto"], by decide⟩, by decide⟩
  let overlay : Overlay := ⟨[⟨⟨false, [], by decide⟩, ⟨"/src"⟩⟩]⟩
  let files : MemoryFiles :=
    ⟨[(⟨"/src/a.proto"⟩, bytes "message M \x7b string s = \"\\\n\"; \x7d")]⟩
  exact ⟨⟨.standard, overlay, files.store, .compile a⟩,
    ⟨a, ⟨1, 26⟩, .error, .syntaxError, "invalid escape sequence \\\n"⟩,
    by decide +kernel, by decide +kernel, by decide +kernel⟩

end Session

end ProtoSchema
