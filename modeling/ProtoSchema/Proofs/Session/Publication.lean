import ProtoSchema.Proofs.Ledger.Published
import ProtoSchema.Proofs.Session.Acceptance

/-!
What a walk publishes. A file is handed in when the files that it imports are in the
ledger, and entries that are there stay; so an edge of a published file leads to the
file that the ledger has for its path. A path is noted as loaded along with its claim,
and only where its text was read.
-/

namespace ProtoSchema

open Linked (File Import)

namespace Loss

/-- A file that does not parse is loaded, one that is not read is not. -/
theorem loaded_eq (loss : Loss) (path : VirtualPath) :
    (loss.loaded path = [] ∧ ¬(Ledger.Entry.failed loss.reason).WasLoaded) ∨
      ∃ physical, loss.loaded path = [(path, physical)] ∧
        (Ledger.Entry.failed loss.reason).WasLoaded := by
  cases loss with
  | missing why => exact .inl ⟨rfl, by simp [reason, Ledger.Entry.WasLoaded]⟩
  | unreadable why =>
    refine .inl ⟨rfl, ?_⟩
    by_cases hfound : why.isNotFound = true
    · simp [reason, Ledger.Entry.WasLoaded, hfound]
    · simp [reason, Ledger.Entry.WasLoaded, hfound]
  | unparsed physical errors => exact .inr ⟨physical, rfl, .inl rfl⟩

end Loss

namespace Workshop

structure KeepsEdges (shop : Workshop) : Prop where
  path_eq : ∀ path tree imports outcome, shop.link path tree imports = .ok outcome →
    outcome.file.path = path
  imports_eq : ∀ path tree imports outcome, shop.link path tree imports = .ok outcome →
    outcome.file.imports = imports

variable {shop : Workshop} {path : VirtualPath} {tree : Schema.File} {imports : EdgeList}
  {file : File}

theorem verdict_eq_compiled (hkeeps : shop.KeepsEdges) (hjudges : shop.JudgesByEdges)
    (h : (shop.verdict path tree imports).2 = .compiled file) :
    file.path = path ∧ file.imports = imports.edges ∧
      (file.complete = true ↔
        (∀ edge ∈ imports.edges, edge.IsIntact) ∧ imports.broken = false) := by
  unfold verdict at h
  split at h
  · cases h
  · next outcome hlink =>
    cases h
    have hpath := hkeeps.path_eq _ _ _ _ hlink
    have himports := hkeeps.imports_eq _ _ _ _ hlink
    have hcomplete := hjudges.complete_iff _ _ _ _ hlink
    unfold Walk.sealed
    by_cases hbroken : imports.broken = true
    · simp [hbroken, hpath, himports]
    · simp [hbroken, hpath, himports, hcomplete]

theorem verdict_wasLoaded (shop : Workshop) (path : VirtualPath) (tree : Schema.File)
    (imports : EdgeList) : (shop.verdict path tree imports).2.WasLoaded := by
  unfold verdict
  split
  · exact .inr rfl
  · trivial

end Workshop

namespace Call

structure Loads (call : Call) : Prop where
  nodup : (call.loaded.map (·.1)).Nodup
  mem_iff : ∀ path, path ∈ call.loaded.map (·.1) ↔
    ∃ entry, call.ledger.entry? path = some entry ∧ entry.WasLoaded

variable {call after : Call} {path : VirtualPath} {entry : Ledger.Entry}

theorem Loads.of_eq (h : call.Loads) (hloaded : after.loaded = call.loaded)
    (hledger : after.ledger = call.ledger) : after.Loads where
  nodup := hloaded ▸ h.nodup
  mem_iff := by
    rw [hloaded, hledger]
    exact h.mem_iff

@[simp] theorem obtaining_loaded (file : Option File) :
    (call.obtaining file).loaded = call.loaded := by
  cases file <;> rfl

/-- A path without an entry gets one, and is loaded where the entry tells so. -/
theorem Loads.record (h : call.Loads) (habsent : call.ledger.entry? path = none)
    {more : List (VirtualPath × PhysicalPath)} (hloaded : after.loaded = call.loaded ++ more)
    (hledger : ∀ p, after.ledger.entry? p =
      if p = path then some entry else call.ledger.entry? p)
    (hmore : (more = [] ∧ ¬entry.WasLoaded) ∨
      ∃ physical, more = [(path, physical)] ∧ entry.WasLoaded) : after.Loads := by
  have hnotMem : path ∉ call.loaded.map (·.1) := by
    rw [h.mem_iff, habsent]
    simp
  rcases hmore with ⟨rfl, hnot⟩ | ⟨physical, rfl, hwas⟩
  · rw [List.append_nil] at hloaded
    refine ⟨hloaded ▸ h.nodup, ?_⟩
    intro p
    rw [hloaded, hledger, h.mem_iff]
    by_cases hp : p = path
    · simp [hp, habsent, hnot]
    · simp [hp]
  · have hpaths : after.loaded.map (·.1) = call.loaded.map (·.1) ++ [path] := by
      rw [hloaded, List.map_append, List.map_singleton]
    refine ⟨?_, ?_⟩
    · rw [hpaths]
      refine List.nodup_append.mpr ⟨h.nodup, List.nodup_singleton path, ?_⟩
      intro a ha b hb heq
      rw [List.mem_singleton.mp hb] at heq
      exact hnotMem (heq ▸ ha)
    · intro p
      rw [hpaths, List.mem_append, List.mem_singleton, hledger, h.mem_iff]
      by_cases hp : p = path
      · simp [hp, hwas]
      · simp [hp]

/-- A file in progress is loaded already. -/
theorem Loads.closing (h : call.Loads) {owner : Worker}
    (hpending : call.ledger.entry? path = some (.pending owner)) (hwas : entry.WasLoaded) :
    (call.closing path entry).Loads where
  nodup := h.nodup
  mem_iff p := by
    have hloaded : (call.closing path entry).loaded = call.loaded := rfl
    rw [hloaded, h.mem_iff, closing_ledger, Ledger.entry?_put]
    by_cases hp : p = path
    · subst hp
      have hopen : (Ledger.Entry.pending owner).WasLoaded := trivial
      rw [hpending, if_pos rfl]
      simp [hwas, hopen]
    · simp [hp]

end Call

namespace Walk

variable {shop : Workshop} {path other : VirtualPath} {call after : Call}
  {origin : VirtualPath → Schema.File → Prop}

/-- What was in progress before the statements are followed is so behind them. -/
theorem Follows.pending_after {statements soFar imports}
    (h : Follows shop path statements soFar call imports after) (hs : call.Standing)
    (hmem : other ∈ call.stack) :
    after.ledger.entry? other = some (.pending after.worker) := by
  obtain ⟨hafter, hstack, _⟩ := h.standing hs
  exact (hafter.pending_iff other after.worker).mpr ⟨rfl, hstack ▸ hmem⟩

/-- The edges are marked broken just where a statement has no valid path. -/
theorem Follows.broken_iff {statements soFar imports}
    (h : Follows shop path statements soFar call imports after) :
    imports.broken = false ↔ soFar.broken = false ∧
      ∀ statement ∈ statements, ∃ target, VirtualPath.read statement.path = .ok target := by
  induction statements generalizing soFar call with
  | nil =>
    cases h
    simp
  | cons statement rest ih =>
    cases h with
    | invalid why hread hrest =>
      rw [ih hrest, List.forall_mem_cons, hread]
      simp
    | repeated target hread hseen hrest =>
      rw [ih hrest, List.forall_mem_cons, hread]
      simp
    | followed target file between hread hnew hobtain hrest =>
      rw [ih hrest, List.forall_mem_cons, hread]
      simp

mutual

/-- A walk leaves the ledger coherent, and a file that it obtains is the one that the
ledger has for its path. -/
theorem Obtains.coherent {path site call file after}
    (h : Obtains shop path site call file after) (hkeeps : shop.KeepsEdges)
    (hjudges : shop.JudgesByEdges) (hs : call.Standing)
    (horigin : ∀ p tree, call.ledger.entry? p = none → shop.Reads p tree → origin p tree)
    (hcoherent : call.ledger.Coherent origin) :
    after.ledger.Coherent origin ∧
      ∀ found, file = some found → after.ledger.entry? path = some (.compiled found) := by
  match h with
  | .compiled file hentry =>
    refine ⟨hcoherent, ?_⟩
    intro found hfound
    cases hfound
    exact hentry
  | .failed reason hentry => exact ⟨hcoherent, fun found hfound => nomatch hfound⟩
  | .cycle owner hentry => exact ⟨hcoherent, fun found hfound => nomatch hfound⟩
  | .lost loss habsent hread =>
    refine ⟨?_, fun found hfound => nomatch hfound⟩
    have hclaimed : (call.ledger.put path (.pending call.worker)).Coherent origin :=
      hcoherent.put (by simp [habsent]) (by simp)
    exact hclaimed.put (by simp) (by simp)
  | .linked physical tree imports between habsent hread hfollow =>
    have hreads := Workshop.reads_iff.mpr ⟨physical, hread⟩
    have hstanding := (hs.claiming habsent).loading [(path, physical)]
    have hclaimed : ((call.claiming path).loading [(path, physical)]).ledger.Coherent origin :=
      hcoherent.put (by simp [habsent]) (by simp)
    obtain ⟨hbetween, hbacks⟩ := hfollow.coherent hkeeps hjudges hstanding (by
      intro p parsed hp
      rw [Call.loading_ledger, Call.claiming_ledger, Ledger.entry?_put] at hp
      split at hp
      · cases hp
      · exact horigin p parsed hp) hclaimed (fun edge hedge => nomatch hedge)
    have hpending : between.ledger.entry? path = some (.pending between.worker) :=
      hfollow.pending_after hstanding (by simp)
    have hopen : ∀ found, between.ledger.entry? path ≠ some (.compiled found) := by
      simp [hpending]
    rw [Call.obtaining_ledger, Call.closing_ledger, Call.noting_ledger]
    refine ⟨hbetween.put hopen ?_, ?_⟩
    · intro found hfound
      obtain ⟨hpath, himports, hcomplete⟩ :=
        Workshop.verdict_eq_compiled hkeeps hjudges hfound
      refine ⟨hpath, ?_, tree, horigin path tree habsent hreads, ?_⟩
      · rw [himports]
        exact hbacks.put hopen
      · rw [hcomplete, himports, hfollow.broken_iff]
        simp [Schema.File.NamesValidPaths]
    · intro found hfound
      rw [Ledger.entry?_put_self]
      cases hverdict : (shop.verdict path tree imports).2 with
      | pending owner => simp [hverdict, Ledger.Entry.file?] at hfound
      | failed reason => simp [hverdict, Ledger.Entry.file?] at hfound
      | compiled linked =>
        rw [hverdict] at hfound
        cases hfound
        rfl

theorem Follows.coherent {path statements soFar call imports after}
    (h : Follows shop path statements soFar call imports after) (hkeeps : shop.KeepsEdges)
    (hjudges : shop.JudgesByEdges) (hs : call.Standing)
    (horigin : ∀ p tree, call.ledger.entry? p = none → shop.Reads p tree → origin p tree)
    (hcoherent : call.ledger.Coherent origin) (hbacks : call.ledger.Backs soFar.edges) :
    after.ledger.Coherent origin ∧ after.ledger.Backs imports.edges := by
  match h with
  | .done => exact ⟨hcoherent, hbacks⟩
  | .invalid _ _ hrest =>
    exact hrest.coherent hkeeps hjudges (hs.noting _) horigin hcoherent hbacks
  | .repeated _ _ _ hrest =>
    exact hrest.coherent hkeeps hjudges (hs.noting _) horigin hcoherent hbacks
  | .followed target file between _ _ hobtain hrest =>
    obtain ⟨hbetween, hfile⟩ := hobtain.coherent hkeeps hjudges hs horigin hcoherent
    refine hrest.coherent hkeeps hjudges (hobtain.standing hs).1 ?_ hbetween ?_
    · intro p tree habsent
      exact horigin p tree (hobtain.absent_before hs habsent)
    · exact (hbacks.of_stays fun p found hfound => hobtain.final_stays hfound trivial).concat hfile

end

mutual

/-- A walk notes as loaded what it reads, once. -/
theorem Obtains.loads {path site call file after} (h : Obtains shop path site call file after)
    (hs : call.Standing) (hloads : call.Loads) : after.Loads := by
  match h with
  | .compiled file _ => exact hloads.of_eq rfl rfl
  | .failed _ _ => exact hloads.of_eq rfl rfl
  | .cycle _ _ => exact hloads.of_eq rfl rfl
  | .lost loss habsent _ =>
    refine hloads.record habsent rfl ?_ (loss.loaded_eq path)
    intro p
    rw [Call.closing_ledger, Call.noting_ledger, Call.loading_ledger, Call.claiming_ledger,
      Ledger.entry?_put, Ledger.entry?_put]
    split <;> rfl
  | .linked physical tree imports between habsent _ hfollow =>
    have hstanding := (hs.claiming habsent).loading [(path, physical)]
    have hclaimed : ((call.claiming path).loading [(path, physical)]).Loads :=
      hloads.record habsent rfl (fun p => Ledger.entry?_put _ _ _ _)
        (.inr ⟨physical, rfl, trivial⟩)
    have hpending : between.ledger.entry? path = some (.pending between.worker) :=
      hfollow.pending_after hstanding (by simp)
    have hnoted : (between.noting (shop.verdict path tree imports).1).Loads :=
      (hfollow.loads hstanding hclaimed).of_eq rfl rfl
    exact (hnoted.closing hpending (shop.verdict_wasLoaded path tree imports)).of_eq
      (Call.obtaining_loaded _) (Call.obtaining_ledger _)

theorem Follows.loads {path statements soFar call imports after}
    (h : Follows shop path statements soFar call imports after) (hs : call.Standing)
    (hloads : call.Loads) : after.Loads := by
  match h with
  | .done => exact hloads
  | .invalid _ _ hrest => exact hrest.loads (hs.noting _) (hloads.of_eq rfl rfl)
  | .repeated _ _ _ hrest => exact hrest.loads (hs.noting _) (hloads.of_eq rfl rfl)
  | .followed _ _ _ _ _ hobtain hrest =>
    exact hrest.loads (hobtain.standing hs).1 (hobtain.loads hs hloads)

end

end Walk

end ProtoSchema
