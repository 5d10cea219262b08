import ProtoSchema.Proofs.Session.History
import ProtoSchema.Proofs.Session.Publication

/-!
What a session has published is one graph, after any requests and with any changes to
the files between them. An edge of a published file leads to the file that the ledger
has for its path, whatever became of that file in the store meanwhile; a path comes
from the tree that it was read as in the one turn that gave it its entry.
-/

namespace ProtoSchema

open Linked (File Import)
open Relation

namespace Session

variable {shop : Workshop} {session : Session} {root path : VirtualPath} {turns : List Turn}
  {outlet : Outlet} {origin : VirtualPath → Schema.File → Prop} {tree : Schema.File}

/-- The tree is what the path was read as in the turn that gave it its entry. -/
def Origin (outlet : Outlet) (turns : List Turn) (path : VirtualPath) (tree : Schema.File) :
    Prop :=
  ∃ before turn later, turns = before ++ turn :: later ∧
    (after outlet before).ledger.entry? path = none ∧
    (after outlet (before ++ [turn])).ledger.entry? path ≠ none ∧
    turn.shop.Reads path tree

def Links (session : Session) (path target : VirtualPath) : Prop :=
  ∃ file, session.ledger.entry? path = some (.compiled file) ∧
    ∃ edge ∈ file.imports, edge.path = target ∧ edge.target.isSome = true

/-- The published files are one graph without cycles, in which each path has one file
and each file is complete when nothing below it is missing. -/
structure Consistent (origin : VirtualPath → Schema.File → Prop) (session : Session) : Prop where
  not_pending : ∀ path owner, session.ledger.entry? path ≠ some (.pending owner)
  path_eq : ∀ path file, session.ledger.entry? path = some (.compiled file) → file.path = path
  shared : ∀ path file, session.ledger.entry? path = some (.compiled file) →
    ∀ edge ∈ file.imports, ∀ target, edge.target = some target →
      session.ledger.entry? edge.path = some (.compiled target)
  acyclic : ∀ path, ¬TransGen session.Links path path
  loaded_nodup : (session.loaded.map (·.1)).Nodup
  mem_loaded_iff : ∀ path, path ∈ session.loaded.map (·.1) ↔
    (∃ file, session.ledger.entry? path = some (.compiled file)) ∨
      session.ledger.entry? path = some (.failed .syntaxErrors) ∨
      session.ledger.entry? path = some (.failed .linkErrors)
  exists_origin : ∀ path file, session.ledger.entry? path = some (.compiled file) →
    ∃! tree, origin path tree
  complete_iff : ∀ path file, session.ledger.entry? path = some (.compiled file) →
    (file.complete = true ↔ ∀ other, file.Leads other →
      (∀ edge ∈ other.imports, edge.target.isSome = true) ∧
      ∀ tree, origin other.path tree → tree.NamesValidPaths)

structure Published (origin : VirtualPath → Schema.File → Prop) (session : Session) : Prop where
  idle : session.Idle
  coherent : session.ledger.Coherent origin
  loads : session.opening.Loads

theorem Published.start (origin : VirtualPath → Schema.File → Prop) (outlet : Outlet) :
    (Session.start outlet).Published origin where
  idle := start_idle outlet
  coherent path file h := by cases h
  loads := ⟨List.nodup_nil, fun path => by simp [opening, Session.start]⟩

theorem absent_before (hidle : session.Idle) (hfinite : shop.store.IsFinite)
    (habsent : (session.compile shop root).2.ledger.entry? path = none) :
    session.ledger.entry? path = none :=
  (hidle.course_obtains hfinite root).absent_before hidle.opening_standing habsent

theorem Published.compile (h : session.Published origin) (hfinite : shop.store.IsFinite)
    (hkeeps : shop.KeepsEdges) (hjudges : shop.JudgesByEdges)
    (horigin : ∀ p tree, session.ledger.entry? p = none → shop.Reads p tree → origin p tree) :
    (session.compile shop root).2.Published origin := by
  have hobtains := h.idle.course_obtains hfinite root
  have hstanding := h.idle.opening_standing
  exact ⟨h.idle.compile hfinite root,
    (hobtains.coherent hkeeps hjudges hstanding horigin h.coherent).1,
    (hobtains.loads hstanding h.loads).of_eq rfl rfl⟩

/-- Every linked file has the path and the edges that it was linked with. -/
theorem keepsEdges_of_link {warnUnused : Bool} (h : shop.link = Linked.link warnUnused) :
    shop.KeepsEdges := by
  constructor
  · intro path tree imports outcome hlink
    rw [h] at hlink
    obtain ⟨rfl, _⟩ := Linked.link_eq_ok hlink
    rfl
  · intro path tree imports outcome hlink
    rw [h] at hlink
    obtain ⟨rfl, _⟩ := Linked.link_eq_ok hlink
    rfl

theorem workshop_keepsEdges (settings : Settings) (overlay : Overlay) (store : Store) :
    (workshop settings overlay store).KeepsEdges :=
  keepsEdges_of_link (workshop_link settings overlay store)

/-- A turn adds as origins what it reads paths as that had no entry before. -/
theorem Published.serve {turn : Turn} (h : session.Published origin)
    (hfinite : turn.store.IsFinite)
    (horigin : ∀ p tree, session.ledger.entry? p = none → turn.shop.Reads p tree →
      origin p tree) :
    (session.serve turn).Published origin ∧
      ∀ p, (session.serve turn).ledger.entry? p = none → session.ledger.entry? p = none := by
  refine serve_induction (P := fun later => later.Published origin ∧
    ∀ p, later.ledger.entry? p = none → session.ledger.entry? p = none) ?_ ⟨h, fun _ => id⟩
  rintro later root _ ⟨hlater, habsent⟩
  refine ⟨hlater.compile hfinite (workshop_keepsEdges _ _ _) (workshop_judgesByEdges _ _ _) ?_, ?_⟩
  · intro p tree hp
    exact horigin p tree (habsent p hp)
  · intro p hp
    exact habsent p (absent_before hlater.idle hfinite hp)

theorem Published.mono {others : VirtualPath → Schema.File → Prop} (h : session.Published origin)
    (hsub : ∀ p found tree, session.ledger.entry? p = some (.compiled found) → origin p tree →
      others p tree) : session.Published others :=
  ⟨h.idle, h.coherent.mono hsub, h.loads⟩

theorem Origin.append (h : Origin outlet turns path tree) (turn : Turn) :
    Origin outlet (turns ++ [turn]) path tree := by
  obtain ⟨before, first, later, rfl, habsent, hknown, hreads⟩ := h
  exact ⟨before, first, later ++ [turn], by simp, habsent, hknown, hreads⟩

theorem after_published (outlet : Outlet) (turns : List Turn)
    (hfinite : ∀ turn ∈ turns, turn.store.IsFinite) :
    (after outlet turns).Published (Origin outlet turns) := by
  induction turns using List.reverseRecOn with
  | nil => exact .start _ outlet
  | append_singleton turns turn ih =>
    have hbefore := ih fun t hmem => hfinite t (List.mem_append_left _ hmem)
    have hlast := hfinite turn (List.mem_append_right _ (List.mem_singleton.mpr rfl))
    let origins (p : VirtualPath) (tree : Schema.File) : Prop :=
      Origin outlet turns p tree ∨
        (after outlet turns).ledger.entry? p = none ∧ turn.shop.Reads p tree
    have hwider : (after outlet turns).Published origins := hbefore.mono fun _ _ _ _ h => .inl h
    have hserved := (hwider.serve hlast fun _ _ habsent hreads => .inr ⟨habsent, hreads⟩).1
    rw [← after_concat] at hserved
    refine hserved.mono ?_
    rintro p found tree hfound (hold | ⟨habsent, hreads⟩)
    · exact hold.append turn
    · exact ⟨turns, turn, [], rfl, habsent, by simp [hfound], hreads⟩

theorem after_absent_before {before later : List Turn}
    (hfinite : ∀ turn ∈ before ++ later, turn.store.IsFinite)
    (habsent : (after outlet (before ++ later)).ledger.entry? path = none) :
    (after outlet before).ledger.entry? path = none := by
  induction later using List.reverseRecOn with
  | nil => simpa using habsent
  | append_singleton later turn ih =>
    rw [← List.append_assoc] at habsent hfinite
    have hfirst := fun t hmem => hfinite t (List.mem_append_left _ hmem)
    have hlast := hfinite turn (List.mem_append_right _ (List.mem_singleton.mpr rfl))
    have hany : (after outlet (before ++ later)).Published fun _ _ => True :=
      (after_published outlet _ hfirst).mono fun _ _ _ _ _ => trivial
    have hserved := hany.serve hlast fun _ _ _ _ => trivial
    rw [after_concat] at habsent
    exact ih hfirst (hserved.2 path habsent)

/-- A path gets its entry in one turn. -/
private theorem length_le_of_known {before others : List Turn} {turn : Turn}
    (hfinite : ∀ turn ∈ turns, turn.store.IsFinite) (hbefore : before ++ [turn] <+: turns)
    (hknown : (after outlet (before ++ [turn])).ledger.entry? path ≠ none)
    (hothers : others <+: turns) (habsent : (after outlet others).ledger.entry? path = none) :
    others.length ≤ before.length := by
  by_contra hlonger
  have hprefix : before ++ [turn] <+: others := by
    refine List.prefix_of_prefix_length_le hbefore hothers ?_
    rw [List.length_append, List.length_singleton]
    omega
  obtain ⟨later, rfl⟩ := hprefix
  exact hknown (after_absent_before (fun t hmem => hfinite t (hothers.subset hmem)) habsent)

theorem Origin.unique {other : Schema.File} (hfinite : ∀ turn ∈ turns, turn.store.IsFinite)
    (h : Origin outlet turns path tree) (h' : Origin outlet turns path other) : tree = other := by
  obtain ⟨before, turn, later, hturns, habsent, hknown, hreads⟩ := h
  obtain ⟨before', turn', later', hturns', habsent', hknown', hreads'⟩ := h'
  have hsplit : before ++ turn :: later = before' ++ turn' :: later' := hturns.symm.trans hturns'
  have hprefix : before ++ [turn] <+: turns := ⟨later, by simp [hturns]⟩
  have hprefix' : before' ++ [turn'] <+: turns := ⟨later', by simp [hturns']⟩
  have hle := length_le_of_known hfinite hprefix hknown
    ((List.prefix_append _ _).trans hprefix') habsent'
  have hge := length_le_of_known hfinite hprefix' hknown'
    ((List.prefix_append _ _).trans hprefix) habsent
  obtain ⟨rfl, htail⟩ := List.append_inj hsplit (by omega)
  cases htail
  exact hreads.unique hreads'

/-- A path that is linked to has a smaller file. -/
private theorem sizeOf_lt_of_links (hcoherent : session.ledger.Coherent origin)
    {target : VirtualPath} (h : TransGen session.Links path target) :
    ∃ file other, session.ledger.entry? path = some (.compiled file) ∧
      session.ledger.entry? target = some (.compiled other) ∧ sizeOf other < sizeOf file := by
  have hone : ∀ p q, session.Links p q → ∃ file other,
      session.ledger.entry? p = some (.compiled file) ∧
      session.ledger.entry? q = some (.compiled other) ∧ sizeOf other < sizeOf file := by
    rintro p q ⟨file, hfile, edge, hedge, rfl, hresolved⟩
    obtain ⟨other, hother⟩ := Option.isSome_iff_exists.mp hresolved
    exact ⟨file, other, hfile, (hcoherent p file hfile).backs edge hedge other hother,
      Linked.File.sizeOf_lt_of_mem_dependencies
        (Linked.File.mem_dependencies.mpr ⟨edge, hedge, hother⟩)⟩
  induction h with
  | single hlink => exact hone _ _ hlink
  | tail _ hlink ih =>
    obtain ⟨file, between, hfile, hbetween, hless⟩ := ih
    obtain ⟨between', other, hbetween', hother, hless'⟩ := hone _ _ hlink
    rw [hbetween] at hbetween'
    cases hbetween'
    exact ⟨file, other, hfile, hother, hless'.trans hless⟩

/-- After any requests, with any changes to the files between them, what is published is
consistent. -/
theorem published_graph_consistent (outlet : Outlet) (turns : List Turn)
    (hfinite : ∀ turn ∈ turns, turn.store.IsFinite) :
    (after outlet turns).Consistent (Origin outlet turns) := by
  have hpublished := after_published outlet turns hfinite
  have hcoherent := hpublished.coherent
  refine ⟨hpublished.idle, ?_, ?_, ?_, hpublished.loads.nodup, ?_, ?_, ?_⟩
  · intro path file hfile
    exact (hcoherent path file hfile).path_eq
  · intro path file hfile
    exact (hcoherent path file hfile).backs
  · intro path hcircle
    obtain ⟨file, other, hfile, hother, hless⟩ := sizeOf_lt_of_links hcoherent hcircle
    rw [hfile] at hother
    cases hother
    exact Nat.lt_irrefl _ hless
  · intro path
    refine (hpublished.loads.mem_iff path).trans ⟨?_, ?_⟩
    · rintro ⟨entry, hentry, hwas⟩
      cases entry with
      | pending owner => exact absurd hentry (hpublished.idle path owner)
      | compiled file => exact .inl ⟨file, hentry⟩
      | failed reason =>
        rcases hwas with rfl | rfl
        · exact .inr (.inl hentry)
        · exact .inr (.inr hentry)
    · rintro (⟨file, hfile⟩ | hfailed | hfailed)
      · exact ⟨_, hfile, trivial⟩
      · exact ⟨_, hfailed, .inl rfl⟩
      · exact ⟨_, hfailed, .inr rfl⟩
  · intro path file hfile
    obtain ⟨tree, horigin, _⟩ := (hcoherent path file hfile).sealed
    exact ⟨tree, horigin, fun other hother => hother.unique hfinite horigin⟩
  · intro path file hfile
    refine ⟨?_, hcoherent.complete_of_nothing_missing hfile⟩
    intro hcomplete other hleads
    obtain ⟨p, hother, hdone⟩ := hcoherent.complete_of_leads hfile hcomplete hleads
    have hbelow := hcoherent p other hother
    obtain ⟨tree, horigin, hiff⟩ := hbelow.sealed
    obtain ⟨hintact, hvalid⟩ := hiff.mp hdone
    refine ⟨?_, ?_⟩
    · intro edge hedge
      obtain ⟨target, htarget, _⟩ := hintact edge hedge
      exact Option.isSome_iff_exists.mpr ⟨target, htarget⟩
    · intro found hfound
      rw [hbelow.path_eq] at hfound
      rwa [hfound.unique hfinite horigin]

/-- A file that is removed after it was compiled stays the import of a file that is
compiled later. -/
theorem published_graph_consistent_removed : ∃ (overlay : Overlay) (files fewer : MemoryFiles)
    (a b : VirtualPath), ∃ turns : List Turn,
    turns = [⟨.standard, overlay, files.store, .compile b⟩,
      ⟨.standard, overlay, fewer.store, .compileAll [a, b]⟩] ∧
    overlay.resolve fewer.store b = .error (.missing b ⟨"/r/b.proto"⟩) ∧
    (after .silent turns).Links a b ∧
    (after .silent turns).Consistent (Origin .silent turns) := by
  let bytes (text : String) : List UInt8 := text.toList.map fun c => UInt8.ofNat c.toNat
  let a : VirtualPath := ⟨⟨false, ["a.proto"], by decide⟩, by decide⟩
  let b : VirtualPath := ⟨⟨false, ["b.proto"], by decide⟩, by decide⟩
  let overlay : Overlay := ⟨[⟨⟨false, [], by decide⟩, ⟨"/r"⟩⟩]⟩
  let source := (PhysicalPath.mk "/r/a.proto", bytes "import \"b.proto\";")
  let files : MemoryFiles := ⟨[source, (⟨"/r/b.proto"⟩, bytes "message B {}")]⟩
  let fewer : MemoryFiles := ⟨[source]⟩
  let turns : List Turn := [⟨.standard, overlay, files.store, .compile b⟩,
    ⟨.standard, overlay, fewer.store, .compileAll [a, b]⟩]
  have hfinite : ∀ turn ∈ turns, turn.store.IsFinite := by
    intro turn hmem
    rcases List.mem_pair.mp hmem with rfl | rfl
    · exact files.isFinite_store
    · exact fewer.isFinite_store
  have hfound : ((((after .silent turns).ledger.entry? a).bind Ledger.Entry.file?).any fun file =>
      file.imports.any fun edge => decide (edge.path = b) && edge.target.isSome) = true := by
    decide +kernel
  have hlinks : (after .silent turns).Links a b := by
    obtain ⟨file, hfile, hedges⟩ := (Option.any_eq_true _ _).mp hfound
    obtain ⟨entry, hentry, hcompiled⟩ := Option.bind_eq_some_iff.mp hfile
    obtain ⟨edge, hedge, hreached⟩ := List.any_eq_true.mp hedges
    rw [Bool.and_eq_true, decide_eq_true_eq] at hreached
    cases entry with
    | pending owner => cases hcompiled
    | failed reason => cases hcompiled
    | compiled found =>
      cases hcompiled
      exact ⟨file, hentry, edge, hedge, hreached⟩
  exact ⟨overlay, files, fewer, a, b, turns, rfl, by decide +kernel, hlinks,
    published_graph_consistent .silent turns hfinite⟩

end Session

end ProtoSchema
