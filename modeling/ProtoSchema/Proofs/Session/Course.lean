import ProtoSchema.Proofs.Session.ImportGraph
import Mathlib.Data.List.Nodup

/-!
The course of a walk without a bound on its depth. One relation tells how a file
is obtained, the other how the import statements of a file are followed; each
has one case for every way that this can go. The files in progress are the pending
entries, each once, and are left as they were found; no final entry changes, and
diagnostics are only added.
-/

namespace ProtoSchema

open Linked (File Import)

namespace Call

def noting (call : Call) (ds : List Diagnostic) : Call :=
  { call with diagnostics := call.diagnostics ++ ds }

def loading (call : Call) (loaded : List (VirtualPath × PhysicalPath)) : Call :=
  { call with loaded := call.loaded ++ loaded }

def claiming (call : Call) (path : VirtualPath) : Call :=
  { call with
    ledger := call.ledger.put path (.pending call.worker)
    stack := call.stack ++ [path] }

def closing (call : Call) (path : VirtualPath) (entry : Ledger.Entry) : Call :=
  { call with
    ledger := call.ledger.put path entry
    stack := call.stack.dropLast }

def obtaining (call : Call) : Option File → Call
  | none => call
  | some file =>
    { call with
      obtained :=
        if call.obtained.any (·.path = file.path) then call.obtained
        else call.obtained ++ [file] }

end Call

namespace Walk

mutual

inductive Obtains (shop : Workshop) :
    VirtualPath → Option ImportSite → Call → Option File → Call → Prop
  | compiled {path site call} (file : File)
      (hentry : call.ledger.entry? path = some (.compiled file)) :
      Obtains shop path site call (some file) (call.obtaining (some file))
  | failed {path site call} (reason : Failure)
      (hentry : call.ledger.entry? path = some (.failed reason)) :
      Obtains shop path site call none
        (call.noting [ImportFault.diagnostic path site (.failedBefore reason)])
  | cycle {path site call} (owner : Worker)
      (hentry : call.ledger.entry? path = some (.pending owner)) :
      Obtains shop path site call none
        (call.noting [ImportFault.diagnostic path site (.cycle (cycleChain call.stack path))])
  | lost {path site call} (loss : Loss) (habsent : call.ledger.entry? path = none)
      (hread : shop.read path = .error loss) :
      Obtains shop path site call none
        ((((call.claiming path).loading (loss.loaded path)).noting
          (loss.diagnostics path site)).closing path (.failed loss.reason))
  | linked {path site call} (physical : PhysicalPath) (tree : Schema.File)
      (imports : EdgeList) (between : Call) (habsent : call.ledger.entry? path = none)
      (hread : shop.read path = .ok (physical, tree))
      (hfollow : Follows shop path tree.imports ⟨[], false⟩
        ((call.claiming path).loading [(path, physical)]) imports between) :
      Obtains shop path site call (shop.verdict path tree imports).2.file?
        (((between.noting (shop.verdict path tree imports).1).closing path
          (shop.verdict path tree imports).2).obtaining (shop.verdict path tree imports).2.file?)

inductive Follows (shop : Workshop) :
    VirtualPath → List Schema.Import → EdgeList → Call → EdgeList → Call → Prop
  | done {path soFar call} : Follows shop path [] soFar call soFar call
  | invalid {path statement rest soFar call imports after} (why : PathFault)
      (hread : VirtualPath.read statement.path = .error why)
      (hrest : Follows shop path rest { soFar with broken := true }
        (call.noting [StatementFault.diagnostic ⟨path, statement.position⟩
          (.invalidPath statement.path why)]) imports after) :
      Follows shop path (statement :: rest) soFar call imports after
  | repeated {path statement rest soFar call imports after} (target : VirtualPath)
      (hread : VirtualPath.read statement.path = .ok target)
      (hseen : target ∈ soFar.edges.map (·.path))
      (hrest : Follows shop path rest soFar
        (call.noting [StatementFault.diagnostic ⟨path, statement.position⟩
          (.repeated target)]) imports after) :
      Follows shop path (statement :: rest) soFar call imports after
  | followed {path statement rest soFar call imports after} (target : VirtualPath)
      (file : Option File) (between : Call)
      (hread : VirtualPath.read statement.path = .ok target)
      (hnew : target ∉ soFar.edges.map (·.path))
      (hobtain : Obtains shop target (some ⟨path, statement.position⟩) call file between)
      (hrest : Follows shop path rest
        { soFar with
          edges := soFar.edges ++ [⟨target, statement.kind, statement.position, file⟩] }
        between imports after) :
      Follows shop path (statement :: rest) soFar call imports after

end

end Walk

structure Call.Standing (call : Call) : Prop where
  pending_iff : ∀ path owner, call.ledger.entry? path = some (.pending owner) ↔
    owner = call.worker ∧ path ∈ call.stack
  nodup : call.stack.Nodup

namespace Call

variable {call : Call} {path other : VirtualPath} {entry : Ledger.Entry}

@[simp] theorem noting_ledger (ds : List Diagnostic) : (call.noting ds).ledger = call.ledger := rfl

@[simp] theorem noting_stack (ds : List Diagnostic) : (call.noting ds).stack = call.stack := rfl

@[simp] theorem noting_diagnostics (ds : List Diagnostic) :
    (call.noting ds).diagnostics = call.diagnostics ++ ds := rfl

@[simp] theorem loading_ledger (loaded : List (VirtualPath × PhysicalPath)) :
    (call.loading loaded).ledger = call.ledger := rfl

@[simp] theorem loading_stack (loaded : List (VirtualPath × PhysicalPath)) :
    (call.loading loaded).stack = call.stack := rfl

@[simp] theorem loading_diagnostics (loaded : List (VirtualPath × PhysicalPath)) :
    (call.loading loaded).diagnostics = call.diagnostics := rfl

@[simp] theorem claiming_ledger :
    (call.claiming path).ledger = call.ledger.put path (.pending call.worker) := rfl

@[simp] theorem claiming_stack : (call.claiming path).stack = call.stack ++ [path] := rfl

@[simp] theorem claiming_diagnostics :
    (call.claiming path).diagnostics = call.diagnostics := rfl

@[simp] theorem closing_ledger :
    (call.closing path entry).ledger = call.ledger.put path entry := rfl

@[simp] theorem closing_stack : (call.closing path entry).stack = call.stack.dropLast := rfl

@[simp] theorem closing_diagnostics :
    (call.closing path entry).diagnostics = call.diagnostics := rfl

@[simp] theorem obtaining_ledger (file : Option File) :
    (call.obtaining file).ledger = call.ledger := by
  cases file <;> rfl

@[simp] theorem obtaining_stack (file : Option File) :
    (call.obtaining file).stack = call.stack := by
  cases file <;> rfl

@[simp] theorem obtaining_diagnostics (file : Option File) :
    (call.obtaining file).diagnostics = call.diagnostics := by
  cases file <;> rfl

@[simp] theorem obtaining_worker (file : Option File) :
    (call.obtaining file).worker = call.worker := by
  cases file <;> rfl

def OnlyReports (P : Diagnostic → Prop) (call : Call) : Prop := ∀ d ∈ call.diagnostics, P d

namespace OnlyReports

variable {P : Diagnostic → Prop}

theorem noting (h : call.OnlyReports P) {ds : List Diagnostic} (hds : ∀ d ∈ ds, P d) :
    (call.noting ds).OnlyReports P := by
  intro d hd
  rcases List.mem_append.mp hd with hd | hd
  · exact h d hd
  · exact hds d hd

theorem claiming (h : call.OnlyReports P) (path : VirtualPath) :
    (call.claiming path).OnlyReports P := h

theorem loading (h : call.OnlyReports P) (loaded : List (VirtualPath × PhysicalPath)) :
    (call.loading loaded).OnlyReports P := h

theorem closing (h : call.OnlyReports P) (path : VirtualPath) (entry : Ledger.Entry) :
    (call.closing path entry).OnlyReports P := h

theorem obtaining (h : call.OnlyReports P) (file : Option File) :
    (call.obtaining file).OnlyReports P := by
  intro d hd
  rw [obtaining_diagnostics] at hd
  exact h d hd

theorem of_prefix {after : Call} (h : after.OnlyReports P)
    (hearlier : call.diagnostics <+: after.diagnostics) : call.OnlyReports P := by
  intro d hd
  exact h d (hearlier.subset hd)

end OnlyReports

/-- Linking the innermost file adds diagnostics behind those there are. -/
theorem prefix_linked (call : Call) {ds : List Diagnostic} {file : Option File} :
    call.diagnostics <+: (((call.noting ds).closing path entry).obtaining file).diagnostics := by
  rw [obtaining_diagnostics]
  exact List.prefix_append _ _

theorem Standing.of_eq {call after : Call} (hs : call.Standing)
    (hledger : after.ledger = call.ledger) (hstack : after.stack = call.stack)
    (hworker : after.worker = call.worker) : after.Standing where
  pending_iff := by
    rw [hledger, hstack, hworker]
    exact hs.pending_iff
  nodup := by
    rw [hstack]
    exact hs.nodup

theorem Standing.noting (hs : call.Standing) (ds : List Diagnostic) :
    (call.noting ds).Standing := hs.of_eq rfl rfl rfl

theorem Standing.loading (hs : call.Standing) (loaded : List (VirtualPath × PhysicalPath)) :
    (call.loading loaded).Standing := hs.of_eq rfl rfl rfl

theorem Standing.obtaining (hs : call.Standing) (file : Option File) :
    (call.obtaining file).Standing :=
  hs.of_eq (obtaining_ledger file) (obtaining_stack file) (obtaining_worker file)

theorem Standing.notMem_of_absent (hs : call.Standing)
    (habsent : call.ledger.entry? path = none) : path ∉ call.stack := by
  intro hmem
  rw [(hs.pending_iff path call.worker).mpr ⟨rfl, hmem⟩] at habsent
  cases habsent

theorem Standing.claiming (hs : call.Standing) (habsent : call.ledger.entry? path = none) :
    (call.claiming path).Standing where
  pending_iff other owner := by
    rw [claiming_ledger, claiming_stack, Ledger.entry?_put, List.mem_append, List.mem_singleton]
    by_cases hother : other = path
    · simp only [hother, if_true, or_true, and_true, Option.some.injEq,
        Ledger.Entry.pending.injEq]
      exact eq_comm
    · simp only [hother, if_false, or_false]
      exact hs.pending_iff other owner
  nodup := by
    rw [claiming_stack, List.nodup_append]
    refine ⟨hs.nodup, List.nodup_singleton path, ?_⟩
    intro a ha b hb heq
    rw [List.mem_singleton.mp hb] at heq
    exact hs.notMem_of_absent habsent (heq ▸ ha)

theorem Standing.closing {stack : List VirtualPath} (hs : call.Standing)
    (hstack : call.stack = stack ++ [path]) (hfinal : entry.IsFinal) :
    (call.closing path entry).Standing where
  pending_iff other owner := by
    have hnodup := hs.nodup
    rw [hstack, List.nodup_append] at hnodup
    have hnotMem : path ∉ stack := fun h => hnodup.2.2 path h path (List.mem_singleton.mpr rfl) rfl
    rw [closing_ledger, closing_stack, hstack, List.dropLast_concat, Ledger.entry?_put]
    by_cases hother : other = path
    · subst hother
      rw [if_pos rfl]
      constructor
      · intro h
        cases h
        exact absurd hfinal (Ledger.Entry.not_isFinal_pending owner)
      · intro h
        exact absurd h.2 hnotMem
    · rw [if_neg hother, hs.pending_iff, hstack, List.mem_append, List.mem_singleton]
      simp only [hother, or_false]
      exact Iff.rfl
  nodup := by
    rw [closing_stack]
    exact hs.nodup.sublist (List.dropLast_sublist _)

end Call

namespace Walk

variable {shop : Workshop}

mutual

/-- A walk leaves the files in progress as it found them. -/
theorem Obtains.standing {path site call file after}
    (h : Obtains shop path site call file after) (hs : call.Standing) :
    after.Standing ∧ after.stack = call.stack ∧ after.worker = call.worker := by
  match h with
  | .compiled file _ => exact ⟨hs.obtaining _, rfl, rfl⟩
  | .failed _ _ => exact ⟨hs.noting _, rfl, rfl⟩
  | .cycle _ _ => exact ⟨hs.noting _, rfl, rfl⟩
  | .lost loss habsent _ =>
    have hclaimed := ((hs.claiming habsent).loading (loss.loaded path)).noting
      (loss.diagnostics path site)
    exact ⟨hclaimed.closing rfl trivial, by simp, rfl⟩
  | .linked physical tree imports between habsent _ hfollow =>
    obtain ⟨hbetween, hstack, hworker⟩ :=
      hfollow.standing ((hs.claiming habsent).loading [(path, physical)])
    have hclosed := (hbetween.noting (shop.verdict path tree imports).1).closing hstack
      (shop.verdict_isFinal path tree imports)
    exact ⟨hclosed.obtaining _, by simp [hstack], (Call.obtaining_worker _).trans hworker⟩

theorem Follows.standing {path statements soFar call imports after}
    (h : Follows shop path statements soFar call imports after) (hs : call.Standing) :
    after.Standing ∧ after.stack = call.stack ∧ after.worker = call.worker := by
  match h with
  | .done => exact ⟨hs, rfl, rfl⟩
  | .invalid _ _ hrest => exact hrest.standing (hs.noting _)
  | .repeated _ _ _ hrest => exact hrest.standing (hs.noting _)
  | .followed _ _ _ _ _ hobtain hrest =>
    obtain ⟨hbetween, hstack, hworker⟩ := hobtain.standing hs
    obtain ⟨hafter, hstack', hworker'⟩ := hrest.standing hbetween
    exact ⟨hafter, hstack'.trans hstack, hworker'.trans hworker⟩

end

mutual

/-- A walk changes no final entry. -/
theorem Obtains.final_stays {path site call file after}
    (h : Obtains shop path site call file after) {other : VirtualPath} {entry : Ledger.Entry}
    (hentry : call.ledger.entry? other = some entry) (hfinal : entry.IsFinal) :
    after.ledger.entry? other = some entry := by
  match h with
  | .compiled _ _ => exact hentry
  | .failed _ _ => exact hentry
  | .cycle _ _ => exact hentry
  | .lost loss habsent _ =>
    have hne : other ≠ path := by
      intro heq
      rw [heq, habsent] at hentry
      cases hentry
    simpa [Ledger.entry?_put, hne] using hentry
  | .linked physical tree imports between habsent _ hfollow =>
    have hne : other ≠ path := by
      intro heq
      rw [heq, habsent] at hentry
      cases hentry
    have hclaimed : ((call.claiming path).loading [(path, physical)]).ledger.entry? other =
        some entry := by
      simpa [Ledger.entry?_put, hne] using hentry
    simpa [Ledger.entry?_put, hne] using hfollow.final_stays hclaimed hfinal

theorem Follows.final_stays {path statements soFar call imports after}
    (h : Follows shop path statements soFar call imports after) {other : VirtualPath}
    {entry : Ledger.Entry} (hentry : call.ledger.entry? other = some entry)
    (hfinal : entry.IsFinal) : after.ledger.entry? other = some entry := by
  match h with
  | .done => exact hentry
  | .invalid _ _ hrest => exact hrest.final_stays hentry hfinal
  | .repeated _ _ _ hrest => exact hrest.final_stays hentry hfinal
  | .followed _ _ _ _ _ hobtain hrest =>
    exact hrest.final_stays (hobtain.final_stays hentry hfinal) hfinal

end

/-- An entry is not taken away where final ones stay and the same files are in progress. -/
private theorem absent_of_stays {call after : Call} {other : VirtualPath} (hs : call.Standing)
    (hafter : after.Standing ∧ after.stack = call.stack ∧ after.worker = call.worker)
    (hstays : ∀ entry, call.ledger.entry? other = some entry → entry.IsFinal →
      after.ledger.entry? other = some entry)
    (habsent : after.ledger.entry? other = none) : call.ledger.entry? other = none := by
  obtain ⟨hafter, hstack, hworker⟩ := hafter
  cases hentry : call.ledger.entry? other with
  | none => rfl
  | some entry =>
    have hnever : ∀ found, after.ledger.entry? other ≠ some found := by
      intro found hfound
      rw [habsent] at hfound
      cases hfound
    cases entry with
    | pending owner =>
      obtain ⟨rfl, hmem⟩ := (hs.pending_iff other owner).mp hentry
      exact absurd ((hafter.pending_iff other _).mpr ⟨hworker.symm, hstack ▸ hmem⟩) (hnever _)
    | compiled found => exact absurd (hstays _ hentry trivial) (hnever _)
    | failed reason => exact absurd (hstays _ hentry trivial) (hnever _)

/-- An entry is never taken away. -/
theorem Obtains.absent_before {path site call file after}
    (h : Obtains shop path site call file after) (hs : call.Standing) {other : VirtualPath}
    (habsent : after.ledger.entry? other = none) : call.ledger.entry? other = none :=
  absent_of_stays hs (h.standing hs) (fun _ => h.final_stays) habsent

theorem Follows.absent_before {path statements soFar call imports after}
    (h : Follows shop path statements soFar call imports after) (hs : call.Standing)
    {other : VirtualPath} (habsent : after.ledger.entry? other = none) :
    call.ledger.entry? other = none :=
  absent_of_stays hs (h.standing hs) (fun _ => h.final_stays) habsent

mutual

/-- A walk adds diagnostics behind those there are. -/
theorem Obtains.diagnostics_prefix {path site call file after}
    (h : Obtains shop path site call file after) : call.diagnostics <+: after.diagnostics := by
  match h with
  | .compiled _ _ => exact List.prefix_refl _
  | .failed _ _ => exact List.prefix_append _ _
  | .cycle _ _ => exact List.prefix_append _ _
  | .lost _ _ _ => exact List.prefix_append _ _
  | .linked _ _ _ between _ _ hfollow =>
    exact hfollow.diagnostics_prefix.trans (Call.prefix_linked between)

theorem Follows.diagnostics_prefix {path statements soFar call imports after}
    (h : Follows shop path statements soFar call imports after) :
    call.diagnostics <+: after.diagnostics := by
  match h with
  | .done => exact List.prefix_refl _
  | .invalid _ _ hrest => exact (List.prefix_append _ _).trans hrest.diagnostics_prefix
  | .repeated _ _ _ hrest => exact (List.prefix_append _ _).trans hrest.diagnostics_prefix
  | .followed _ _ _ _ _ hobtain hrest =>
    exact hobtain.diagnostics_prefix.trans hrest.diagnostics_prefix

end

end Walk

end ProtoSchema
