import ProtoSchema.Proofs.Linked.Problems
import ProtoSchema.Proofs.Session.Calls
import ProtoSchema.Proofs.Session.Settling
import Mathlib.Data.List.Chain

/-!
Import cycles are reported exactly. The files in progress are a chain of imports
from the root to the file at hand, so a pending path that is met again closes a
circle, which the diagnostic spells out. Where nothing of the kind is reported
the root settles, and nothing below it lies on a cycle.
-/

namespace ProtoSchema

open Linked (File)
open Relation

namespace Workshop

variable (shop : Workshop)

def NamesAt (site : ImportSite) (target : VirtualPath) : Prop :=
  ∃ tree, shop.Reads site.file tree ∧ ∃ statement ∈ tree.imports,
    statement.target? = some target ∧ statement.position = site.position

/-- The diagnostic spells out a circle of imports below the root, and stands at the
statement that closes it. -/
def TellsCircle (root : VirtualPath) (d : Diagnostic) : Prop :=
  ∃ first rest, shop.Reaches root first ∧
    List.IsChain shop.Imports (first :: rest ++ [first]) ∧
    (first :: rest).getLast? = some d.path ∧
    shop.NamesAt ⟨d.path, d.position⟩ first ∧
    d.severity = .error ∧
    d.message = "import cycle involving \"" ++ first.text ++ "\": " ++
      " -> ".intercalate ((first :: rest ++ [first]).map VirtualPath.text)

def LinksPlainly : Prop :=
  ∀ path tree imports, ∀ d ∈ (shop.verdict path tree imports).1, d.kind ≠ .importCycle

variable {shop} {root target : VirtualPath} {site : ImportSite} {d : Diagnostic}

theorem NamesAt.imports (h : shop.NamesAt site target) : shop.Imports site.file target := by
  obtain ⟨tree, hreads, statement, hmem, htarget, _⟩ := h
  exact ⟨tree, hreads, statement, hmem, htarget⟩

theorem TellsCircle.hasCycle (h : shop.TellsCircle root d) : shop.HasCycle root := by
  obtain ⟨first, rest, hreach, hchain, hlast, hnames, _⟩ := h
  have hcircle : ReflTransGen shop.Imports first d.path := by
    refine List.relationReflTransGen_of_exists_isChain_cons rest hchain.left_of_append ?_
    rw [List.getLast?_eq_some_getLast (List.cons_ne_nil first rest)] at hlast
    exact Option.some.inj hlast
  exact ⟨first, hreach, .tail' hcircle hnames.imports⟩

end Workshop

namespace Call

structure Inside (shop : Workshop) (root : VirtualPath) (call : Call) (path : VirtualPath) :
    Prop where
  reached : ∀ p ∈ call.stack, shop.Reaches root p
  chain : call.stack.IsChain shop.Imports
  last : call.stack.getLast? = some path

def Meets (shop : Workshop) (root : VirtualPath) (call : Call) (path : VirtualPath) :
    Option ImportSite → Prop
  | none => call.stack = [] ∧ path = root
  | some site => call.Inside shop root site.file ∧ shop.NamesAt site path

abbrev Told (shop : Workshop) (root : VirtualPath) (call : Call) : Prop :=
  call.OnlyReports fun d => d.kind = .importCycle → shop.TellsCircle root d

variable {shop : Workshop} {root path : VirtualPath} {call after : Call}
  {site : Option ImportSite}

theorem Inside.of_stack_eq (h : call.Inside shop root path) (heq : after.stack = call.stack) :
    after.Inside shop root path where
  reached := heq ▸ h.reached
  chain := heq ▸ h.chain
  last := heq ▸ h.last

theorem Inside.reaches (h : call.Inside shop root path) : shop.Reaches root path :=
  h.reached path (List.mem_of_getLast? h.last)

theorem Meets.reaches (h : call.Meets shop root path site) : shop.Reaches root path := by
  cases site with
  | none => exact h.2 ▸ .refl
  | some site => exact .tail h.1.reaches h.2.imports

/-- Claiming what is met makes the chain of files in progress longer by one. -/
theorem Meets.claiming (h : call.Meets shop root path site) :
    (call.claiming path).Inside shop root path where
  reached p hp := by
    rcases List.mem_append.mp hp with hp | hp
    · cases site with
      | none =>
        rw [h.1] at hp
        cases hp
      | some site => exact h.1.reached p hp
    · rw [List.mem_singleton.mp hp]
      exact h.reaches
  chain := by
    rw [claiming_stack]
    cases site with
    | none =>
      rw [h.1]
      exact List.isChain_singleton path
    | some site =>
      refine List.isChain_append.mpr ⟨h.1.chain, List.isChain_singleton path, ?_⟩
      intro last hlast first hfirst
      rw [h.1.last] at hlast
      cases hlast
      cases hfirst
      exact h.2.imports
  last := by rw [claiming_stack, List.getLast?_concat]

end Call

namespace Walk

variable {shop : Workshop} {root path : VirtualPath} {call : Call} {site : Option ImportSite}

/-- The chain of a file in progress leads from it to itself. -/
theorem cycleChain_of_mem {stack : List VirtualPath} (h : path ∈ stack) :
    ∃ before rest, stack = before ++ path :: rest ∧
      cycleChain stack path = path :: rest ++ [path] := by
  induction stack with
  | nil => cases h
  | cons p stack ih =>
    by_cases hp : p = path
    · subst hp
      exact ⟨[], stack, rfl, by simp [cycleChain]⟩
    · rcases List.mem_cons.mp h with rfl | h
      · exact absurd rfl hp
      · obtain ⟨before, rest, rfl, hchain⟩ := ih h
        refine ⟨p :: before, rest, rfl, ?_⟩
        rw [← hchain, cycleChain, cycleChain, List.dropWhile_cons_of_pos (by simpa using hp)]

/-- A path in progress that is met again closes a circle. -/
theorem tellsCircle_of_meets (hmeets : call.Meets shop root path site)
    (hmem : path ∈ call.stack) :
    shop.TellsCircle root
      (ImportFault.diagnostic path site (.cycle (cycleChain call.stack path))) := by
  cases site with
  | none =>
    rw [hmeets.1] at hmem
    cases hmem
  | some site =>
    obtain ⟨hinside, hnames⟩ := hmeets
    obtain ⟨before, rest, hstack, hcycle⟩ := cycleChain_of_mem hmem
    have hlast : (path :: rest).getLast? = some site.file := by
      have h := hinside.last
      rwa [hstack, List.getLast?_append_of_ne_nil _ (List.cons_ne_nil path rest)] at h
    have hchain : (path :: rest).IsChain shop.Imports := by
      have h := hinside.chain
      rw [hstack] at h
      exact h.right_of_append
    rw [hcycle]
    refine ⟨path, rest, hinside.reached path hmem, ?_, hlast, hnames, rfl, rfl⟩
    refine List.isChain_append.mpr ⟨hchain, List.isChain_singleton path, ?_⟩
    intro last hlast' first hfirst
    rw [hlast] at hlast'
    cases hlast'
    cases hfirst
    exact hnames.imports

theorem kind_ne_of_mem_loss {loss : Loss} {d : Diagnostic} (h : d ∈ loss.diagnostics path site) :
    d.kind ≠ .importCycle := by
  cases loss with
  | missing why =>
    cases List.mem_singleton.mp h
    cases site <;> exact nofun
  | unreadable why =>
    cases List.mem_singleton.mp h
    by_cases hfound : why.isNotFound = true <;>
      cases site <;> simp [ImportFault.diagnostic, ImportFault.kind, hfound]
  | unparsed physical errors =>
    obtain ⟨error, _, rfl⟩ := List.mem_map.mp h
    exact nofun

theorem kind_failedBefore_ne (reason : Failure) :
    (ImportFault.diagnostic path site (.failedBefore reason)).kind ≠ .importCycle := by
  cases site <;> cases reason <;> exact nofun

mutual

/-- A walk reports no cycle but those that its files in progress close. -/
theorem Obtains.told {path site call file after} (h : Obtains shop path site call file after)
    (hplain : shop.LinksPlainly) (hs : call.Standing) (hmeets : call.Meets shop root path site)
    (htold : call.Told shop root) : after.Told shop root := by
  match h with
  | .compiled file hentry => exact htold.obtaining (some file)
  | .failed reason hentry =>
    refine htold.noting ?_
    intro d hd hkind
    rw [List.mem_singleton.mp hd] at hkind
    exact absurd hkind (kind_failedBefore_ne reason)
  | .cycle owner hentry =>
    refine htold.noting ?_
    intro d hd _
    rw [List.mem_singleton.mp hd]
    exact tellsCircle_of_meets hmeets ((hs.pending_iff path owner).mp hentry).2
  | .lost loss habsent hread =>
    have hclaimed := (htold.claiming path).loading (loss.loaded path)
    refine Call.OnlyReports.closing (hclaimed.noting ?_) path _
    intro d hd hkind
    exact absurd hkind (kind_ne_of_mem_loss hd)
  | .linked physical tree imports between habsent hread hfollow =>
    have hclaimed := (hs.claiming habsent).loading [(path, physical)]
    have hbetween := hfollow.told hplain hclaimed (hmeets.claiming.of_stack_eq rfl)
      (Workshop.reads_iff.mpr ⟨physical, hread⟩) (fun _ hmem => hmem)
      ((htold.claiming path).loading _)
    refine Call.OnlyReports.obtaining (Call.OnlyReports.closing (hbetween.noting ?_) path _) _
    intro d hd hkind
    exact absurd hkind (hplain path tree imports d hd)

theorem Follows.told {path statements soFar call imports after} {tree : Schema.File}
    (h : Follows shop path statements soFar call imports after)
    (hplain : shop.LinksPlainly) (hs : call.Standing) (hinside : call.Inside shop root path)
    (hreads : shop.Reads path tree) (hsub : ∀ statement ∈ statements, statement ∈ tree.imports)
    (htold : call.Told shop root) : after.Told shop root := by
  match h with
  | .done => exact htold
  | .invalid why hread hrest =>
    refine hrest.told hplain (hs.noting _) (hinside.of_stack_eq rfl) hreads
      (fun _ hmem => hsub _ (List.mem_cons_of_mem _ hmem)) (htold.noting ?_)
    intro d hd hkind
    rw [List.mem_singleton.mp hd] at hkind
    cases hkind
  | .repeated target hread hseen hrest =>
    refine hrest.told hplain (hs.noting _) (hinside.of_stack_eq rfl) hreads
      (fun _ hmem => hsub _ (List.mem_cons_of_mem _ hmem)) (htold.noting ?_)
    intro d hd hkind
    rw [List.mem_singleton.mp hd] at hkind
    cases hkind
  | .followed target file between hread hnew hobtain hrest =>
    have htarget := Schema.Import.target?_of_read_ok hread
    obtain ⟨hbetween, hstack, _⟩ := hobtain.standing hs
    have htold' := hobtain.told hplain hs
      ⟨hinside, tree, hreads, _, hsub _ List.mem_cons_self, htarget, rfl⟩ htold
    exact hrest.told hplain hbetween (hinside.of_stack_eq hstack) hreads
      (fun _ hmem => hsub _ (List.mem_cons_of_mem _ hmem)) htold'

end

end Walk

namespace Session

variable {shop : Workshop} {root : VirtualPath} {session : Session} {d : Diagnostic}

theorem mem_reported_of_mem_course (h : d ∈ (session.course shop root).2.diagnostics) :
    d ∈ session.reported shop root := by
  rw [reported_eq]
  rcases conclude_diagnostics root (session.course shop root).1 (session.course shop root).2
    with heq | heq
  · rwa [heq]
  · rw [heq]
    exact List.mem_append_left _ h

/-- Each cycle that a call between others comes upon is there. -/
theorem Idle.course_told (h : session.Idle) (hfinite : shop.store.IsFinite)
    (hplain : shop.LinksPlainly) (root : VirtualPath) :
    (session.course shop root).2.Told shop root := by
  refine (h.course_obtains hfinite root).told hplain h.opening_standing ⟨rfl, rfl⟩ ?_
  intro d hd
  cases hd

theorem Idle.reported_tellsCircle (h : session.Idle) (hfinite : shop.store.IsFinite)
    (hplain : shop.LinksPlainly) (hd : d ∈ session.reported shop root)
    (hkind : d.kind = .importCycle) : shop.TellsCircle root d := by
  have htold := h.course_told hfinite hplain root
  rw [reported_eq] at hd
  rcases conclude_diagnostics root (session.course shop root).1 (session.course shop root).2
    with heq | heq
  · rw [heq] at hd
    exact htold d hd hkind
  · rw [heq] at hd
    rcases List.mem_append.mp hd with hd | hd
    · exact htold d hd hkind
    · rw [List.mem_singleton.mp hd] at hkind
      cases hkind

theorem start_settled (shop : Workshop) (outlet : Outlet) :
    (start outlet).opening.Settled shop := by
  intro path entry h
  cases h

/-- The root of a first call settles unless a cycle is reported. -/
theorem start_settles (hfinite : shop.store.IsFinite) (outlet : Outlet)
    (hfree : ((start outlet).course shop root).2.CycleFree) :
    ∃ entry, shop.Settles root entry ∧ entry.file? = ((start outlet).course shop root).1 := by
  have hobtain := (start_idle outlet).course_obtains hfinite root
  obtain ⟨hsettled, entry, hentry, hfinal, hfile⟩ :=
    hobtain.settles (start_settled shop outlet) hfree
  exact ⟨entry, hsettled root entry hentry hfinal, hfile⟩

theorem workshop_link (settings : Settings) (overlay : Overlay) (store : Store) :
    (workshop settings overlay store).link = Linked.link settings.warnUnused := by
  rw [workshop]

/-- What the linker tells of a file are its problems, warnings among them. -/
theorem exists_problem_of_mem_verdict {settings : Settings} {overlay : Overlay} {store : Store}
    {path : VirtualPath} {tree : Schema.File} {imports : EdgeList} {d : Diagnostic}
    (hd : d ∈ ((workshop settings overlay store).verdict path tree imports).1) :
    ∃ problem ∈ Linked.linkProblems settings.warnUnused path tree imports.edges,
      d.kind = problem.fault.kind := by
  rw [Workshop.verdict, workshop_link] at hd
  split at hd
  · next problems hlink =>
    obtain ⟨rfl, herror⟩ := Linked.link_eq_error hlink
    rw [Walk.linkDiagnostics, if_pos herror] at hd
    obtain ⟨problem, hmem, rfl⟩ := List.mem_map.mp hd
    exact ⟨problem, hmem, rfl⟩
  · next outcome hlink =>
    obtain ⟨rfl, _⟩ := Linked.link_eq_ok hlink
    obtain ⟨problem, hmem, rfl⟩ := List.mem_map.mp hd
    exact ⟨problem, hmem, rfl⟩

theorem workshop_linksPlainly (settings : Settings) (overlay : Overlay) (store : Store) :
    (workshop settings overlay store).LinksPlainly := by
  intro path tree imports d hd hcycle
  obtain ⟨problem, hmem, hkind⟩ := exists_problem_of_mem_verdict hd
  rw [hkind] at hcycle
  rcases Linked.linkProblems_concernsNames problem hmem with hother | hother
  · cases hcycle.symm.trans hother
  · cases hcycle.symm.trans hother

/-- A first call reports a cycle just when there is one below its root. Whatever was
compiled before, a reported cycle is a circle of imports, given file by file and
put at the statement that closes it. -/
theorem import_cycles_reported_exactly (settings : Settings) (overlay : Overlay) (store : Store)
    (root : VirtualPath) (hfinite : store.IsFinite) :
    (∀ outlet, (∃ d ∈ (start outlet).reported (workshop settings overlay store) root,
        d.kind = .importCycle) ↔ (workshop settings overlay store).HasCycle root) ∧
      ∀ session : Session, session.Sequential →
        ∀ d ∈ session.reported (workshop settings overlay store) root, d.kind = .importCycle →
          (workshop settings overlay store).TellsCircle root d := by
  have hplain := workshop_linksPlainly settings overlay store
  refine ⟨fun outlet => ⟨?_, ?_⟩, ?_⟩
  · rintro ⟨d, hd, hkind⟩
    exact ((start_idle outlet).reported_tellsCircle hfinite hplain hd hkind).hasCycle
  · intro hcycle
    by_contra hnone
    have hfree : ((start outlet).course (workshop settings overlay store) root).2.CycleFree := by
      intro d hd hkind
      exact hnone ⟨d, mem_reported_of_mem_course hd, hkind⟩
    obtain ⟨entry, hsettles, _⟩ := start_settles hfinite outlet hfree
    exact hsettles.not_hasCycle hcycle
  · intro session hsession d hd hkind
    exact hsession.idle.reported_tellsCircle hfinite hplain hd hkind

/-- Two files in memory that import each other: the cycle is there and is told. -/
theorem import_cycles_reported_exactly_two : ∃ (overlay : Overlay) (files : MemoryFiles)
    (root : VirtualPath), (workshop .standard overlay files.store).HasCycle root ∧
      ∃ d ∈ (start .silent).reported (workshop .standard overlay files.store) root,
        d.kind = .importCycle ∧ (workshop .standard overlay files.store).TellsCircle root d := by
  let bytes (text : String) : List UInt8 := text.toList.map fun c => UInt8.ofNat c.toNat
  let root : VirtualPath := ⟨⟨false, ["a.proto"], by decide⟩, by decide⟩
  let overlay : Overlay := ⟨[⟨⟨false, [], by decide⟩, ⟨"/r"⟩⟩]⟩
  let files : MemoryFiles := ⟨[(⟨"/r/a.proto"⟩, bytes "import \"b.proto\";"),
    (⟨"/r/b.proto"⟩, bytes "import \"a.proto\";")]⟩
  have hexact := import_cycles_reported_exactly .standard overlay files.store root
    files.isFinite_store
  have hreported : ∃ d ∈ (start .silent).reported (workshop .standard overlay files.store) root,
      d.kind = .importCycle := by decide +kernel
  exact ⟨overlay, files, root, (hexact.1 .silent).mp hreported,
    hreported.imp fun d h => ⟨h.1, h.2, hexact.2 _ (.start .silent) d h.1 h.2⟩⟩

end Session

end ProtoSchema
