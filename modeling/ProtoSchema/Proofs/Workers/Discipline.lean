import ProtoSchema.Proofs.Workers.Run
import Mathlib.Logic.Function.Basic

/-!
Workers that compile files over one import graph. A worker that holds nothing asks
for a root; one that holds files asks only for what the last of them imports, and
finishes that one before the others. So the files that a worker holds are a chain
of imports that ends at the last one, and the path that it waits for continues the
chain. Chains of workers that wait for each other are then chains of imports too,
and a request that closes a circle of waits closes a circle of imports.
-/

namespace ProtoSchema

open Ledger (Answer Entry)
open Relation

def Workers.Event.answer? : Workers.Event → Option Answer
  | .asked _ _ answer | .woken _ _ answer => some answer
  | _ => none

/-- Workers with the files that each has begun and not finished, the last one first. -/
structure Crew where
  workers : Workers
  held : Worker → List VirtualPath

namespace Crew

def start : Crew := ⟨.start, fun _ => []⟩

/-- The path is a root to a worker that holds nothing, and else is imported by the file
that the worker began last. -/
def MayAsk (imports : VirtualPath → VirtualPath → Prop) (crew : Crew) (worker : Worker)
    (path : VirtualPath) : Prop :=
  ∀ last, (crew.held worker).head? = some last → imports last path

def holding (crew : Crew) (after : Workers) (worker : Worker) (files : List VirtualPath) : Crew :=
  ⟨after, Function.update crew.held worker files⟩

def answered (crew : Crew) (after : Workers) (worker : Worker) (path : VirtualPath)
    (answer : Answer) : Crew :=
  if answer.isClaim then crew.holding after worker (path :: crew.held worker)
  else ⟨after, crew.held⟩

/-- A step of a worker that compiles files. While it is noted as waiting it can only be
woken. -/
inductive Step (imports : VirtualPath → VirtualPath → Prop) : Crew → Workers.Event → Crew → Prop
  | ask {crew : Crew} {after : Workers} (worker : Worker) (path : VirtualPath) (answer : Answer)
      (hmay : crew.MayAsk imports worker path)
      (hstep : Workers.Step crew.workers (.asked worker path answer) after) :
      Step imports crew (.asked worker path answer) (crew.answered after worker path answer)
  | wake {crew : Crew} {after : Workers} (worker : Worker) (path : VirtualPath) (answer : Answer)
      (hstep : Workers.Step crew.workers (.woken worker path answer) after) :
      Step imports crew (.woken worker path answer) (crew.answered after worker path answer)
  | finish {crew : Crew} {after : Workers} {event : Workers.Event} (worker : Worker)
      (path : VirtualPath) (rest : List VirtualPath) (result : Entry)
      (hheld : crew.held worker = path :: rest)
      (hidle : crew.workers.ledger.awaited? worker = none)
      (hresult : event.result? = some (path, result))
      (hstep : Workers.Step crew.workers event after) :
      Step imports crew event (crew.holding after worker rest)

inductive Run (imports : VirtualPath → VirtualPath → Prop) :
    Crew → List Workers.Event → Crew → Prop
  | nil (crew : Crew) : Run imports crew [] crew
  | cons {crew next last : Crew} {event : Workers.Event} {events : List Workers.Event} :
      Step imports crew event next → Run imports next events last →
      Run imports crew (event :: events) last

/-- The pending files are those that workers hold, each worker holds a chain of imports,
and what a worker waits for continues its chain. -/
structure Orderly (imports : VirtualPath → VirtualPath → Prop) (crew : Crew) : Prop where
  sound : crew.workers.Sound
  pending_iff : ∀ path owner, crew.workers.ledger.entry? path = some (.pending owner) ↔
    path ∈ crew.held owner
  nodup : ∀ worker, (crew.held worker).Nodup
  chain : ∀ worker, (crew.held worker).IsChain (Function.swap imports)
  awaits : ∀ worker path, crew.workers.ledger.awaited? worker = some path →
    crew.MayAsk imports worker path

variable {imports : VirtualPath → VirtualPath → Prop} {crew next : Crew} {worker owner : Worker}
  {path last : VirtualPath}

@[simp] theorem holding_workers (after : Workers) (files : List VirtualPath) :
    (crew.holding after worker files).workers = after := rfl

theorem holding_held (after : Workers) (files : List VirtualPath) (other : Worker) :
    (crew.holding after worker files).held other =
      if other = worker then files else crew.held other :=
  Function.update_apply _ _ _ _

theorem mayAsk_holding_of_ne {after : Workers} {files : List VirtualPath} {other : Worker}
    (hne : other ≠ worker) :
    (crew.holding after worker files).MayAsk imports other path ↔
      crew.MayAsk imports other path := by
  rw [MayAsk, MayAsk, holding_held, if_neg hne]

/-- Each file of a chain leads to the one begun last. -/
theorem exists_head_of_mem {held : List VirtualPath} (hchain : held.IsChain (Function.swap imports))
    (hmem : path ∈ held) : ∃ top, held.head? = some top ∧ ReflTransGen imports path top := by
  induction held with
  | nil => cases hmem
  | cons top rest ih =>
    refine ⟨top, rfl, ?_⟩
    rcases List.mem_cons.mp hmem with rfl | hrest
    · exact .refl
    · obtain ⟨below, hbelow, hreach⟩ := ih hchain.tail hrest
      cases rest with
      | nil => cases hrest
      | cons second more =>
        cases hbelow
        exact hreach.tail (List.isChain_cons_cons.mp hchain).1

namespace Orderly

/-- The last file of a waiting worker leads to the last file of the owner. -/
theorem head_of_waitsFor (h : Orderly imports crew)
    (hwaits : crew.workers.ledger.WaitsFor worker owner)
    (hlast : (crew.held worker).head? = some last) :
    ∃ top, (crew.held owner).head? = some top ∧ TransGen imports last top := by
  obtain ⟨path, hpath, hentry⟩ := hwaits
  obtain ⟨top, htop, hreach⟩ :=
    exists_head_of_mem (h.chain owner) ((h.pending_iff path owner).mp hentry)
  exact ⟨top, htop, .head' (h.awaits worker path hpath last hlast) hreach⟩

theorem head_of_transGen (h : Orderly imports crew)
    (hwaits : TransGen crew.workers.ledger.WaitsFor worker owner)
    (hlast : (crew.held worker).head? = some last) :
    ∃ top, (crew.held owner).head? = some top ∧ TransGen imports last top := by
  induction hwaits with
  | single hone => exact h.head_of_waitsFor hone hlast
  | tail _ hone ih =>
    obtain ⟨between, hbetween, hbefore⟩ := ih
    obtain ⟨top, htop, hafter⟩ := h.head_of_waitsFor hone hbetween
    exact ⟨top, htop, hbefore.trans hafter⟩

/-- A request that closes a circle of waits closes a circle of imports. -/
theorem request_ne_cycle (h : Orderly imports crew) (hacyclic : ∀ p, ¬TransGen imports p p)
    (hmay : crew.MayAsk imports worker path) : (crew.workers.request path worker).1 ≠ .cycle := by
  obtain ⟨answer, ledger, hreply, heq⟩ := Workers.request_spec crew.workers path worker
  rw [heq]
  rintro rfl
  cases hreply with
  | cycle owner hentry hstuck =>
    obtain ⟨top, htop, hreach⟩ :=
      exists_head_of_mem (h.chain owner) ((h.pending_iff path owner).mp hentry)
    rcases hstuck with rfl | hstuck
    · exact hacyclic path (.tail' hreach (hmay top htop))
    · obtain ⟨last, hlast, hbetween⟩ :=
        h.head_of_transGen ((Ledger.isStuckOn_iff h.sound.acyclic).mp hstuck) htop
      exact hacyclic path (.tail' (hreach.trans hbetween.to_reflTransGen) (hmay last hlast))

theorem start : Orderly imports Crew.start where
  sound := .start
  pending_iff path owner := by simp [Crew.start, Workers.start]
  nodup worker := List.nodup_nil
  chain worker := List.isChain_nil
  awaits worker path h := by simp [Crew.start, Workers.start] at h

theorem release (h : Orderly imports crew) (worker : Worker) :
    Orderly imports
      { crew with workers := { crew.workers with ledger := crew.workers.ledger.release worker } }
    where
  sound := h.sound.release worker
  pending_iff := h.pending_iff
  nodup := h.nodup
  chain := h.chain
  awaits asking path hwaits := h.awaits asking path (Ledger.awaited?_of_release hwaits)

/-- A claimed file continues the chain of its worker, who waits for nothing. -/
theorem claim (h : Orderly imports crew) (hidle : crew.workers.ledger.awaited? worker = none)
    (hmay : crew.MayAsk imports worker path)
    (habsent : crew.workers.ledger.entry? path = none) :
    Orderly imports (crew.holding
      ⟨crew.workers.ledger.put path (.pending worker), path :: crew.workers.claims⟩ worker
      (path :: crew.held worker)) where
  sound := h.sound.claim worker habsent
  pending_iff other owner := by
    have hnone : ∀ holder, path ∉ crew.held holder := by
      intro holder hmem
      rw [(h.pending_iff path holder).mpr hmem] at habsent
      cases habsent
    rw [holding_workers, Ledger.entry?_put, holding_held]
    by_cases howner : owner = worker
    · subst howner
      rw [if_pos rfl, List.mem_cons, ← h.pending_iff]
      by_cases hother : other = path
      · simp [hother]
      · simp [hother]
    · rw [if_neg howner]
      by_cases hother : other = path
      · have hne : worker ≠ owner := Ne.symm howner
        simp [hother, hnone owner, hne]
      · rw [if_neg hother]
        exact h.pending_iff other owner
  nodup holder := by
    rw [holding_held]
    split
    · refine List.nodup_cons.mpr ⟨?_, h.nodup worker⟩
      rw [← h.pending_iff, habsent]
      exact nofun
    · exact h.nodup holder
  chain holder := by
    rw [holding_held]
    split
    · exact List.isChain_cons.mpr ⟨fun last hlast => hmay last hlast, h.chain worker⟩
    · exact h.chain holder
  awaits asking other hwaits := by
    rw [holding_workers, Ledger.awaited?_put] at hwaits
    have hne : asking ≠ worker := by
      rintro rfl
      rw [hidle] at hwaits
      cases hwaits
    exact (mayAsk_holding_of_ne hne).mpr (h.awaits asking other hwaits)

theorem block (h : Orderly imports crew) (hmay : crew.MayAsk imports worker path)
    (hentry : crew.workers.ledger.entry? path = some (.pending owner)) (hother : owner ≠ worker)
    (hfree : crew.workers.ledger.isStuckOn owner worker = false) :
    Orderly imports
      ⟨⟨crew.workers.ledger.await worker path, crew.workers.claims⟩, crew.held⟩ where
  sound := h.sound.block hentry hother hfree
  pending_iff := h.pending_iff
  nodup := h.nodup
  chain := h.chain
  awaits asking other hwaits := by
    rw [Ledger.awaited?_await] at hwaits
    split at hwaits
    · next hsame =>
      cases hwaits
      subst hsame
      exact hmay
    · exact h.awaits asking other hwaits

theorem request (h : Orderly imports crew) (hidle : crew.workers.ledger.awaited? worker = none)
    (hmay : crew.MayAsk imports worker path) :
    Orderly imports (crew.answered (crew.workers.request path worker).2 worker path
      (crew.workers.request path worker).1) := by
  obtain ⟨answer, ledger, hreply, heq⟩ := Workers.request_spec crew.workers path worker
  rw [heq]
  cases hreply with
  | claimed habsent => exact h.claim hidle hmay habsent
  | compiled file hentry => exact h
  | failed reason hentry => exact h
  | cycle owner hentry hstuck => exact h
  | blocked owner hentry hother hfree => exact h.block hmay hentry hother hfree

/-- Handing in the last file leaves the chain before it. -/
theorem handIn (h : Orderly imports crew) {rest : List VirtualPath} {result : Entry}
    {after : Workers} (hheld : crew.held worker = path :: rest)
    (hidle : crew.workers.ledger.awaited? worker = none) (hfinal : result.IsFinal)
    (hhand : crew.workers.handIn path result = some after) :
    Orderly imports (crew.holding after worker rest) := by
  have hsound := h.sound.handIn hfinal hhand
  obtain ⟨_, rfl⟩ := Workers.handIn_spec hhand
  have hnodup := h.nodup worker
  have hchain := h.chain worker
  rw [hheld] at hnodup hchain
  obtain ⟨hnotMem, hrest⟩ := List.nodup_cons.mp hnodup
  have hpending : crew.workers.ledger.entry? path = some (.pending worker) :=
    (h.pending_iff path worker).mpr (by rw [hheld]; exact List.mem_cons_self)
  refine ⟨hsound, ?_, ?_, ?_, ?_⟩
  · intro other owner
    rw [holding_workers, Ledger.entry?_put, holding_held]
    by_cases hother : other = path
    · subst hother
      rw [if_pos rfl]
      constructor
      · intro heq
        cases heq
        exact absurd hfinal (Entry.not_isFinal_pending owner)
      · intro hmem
        split at hmem
        · exact absurd hmem hnotMem
        · next howner =>
          rw [(h.pending_iff other owner).mpr hmem] at hpending
          cases hpending
          exact absurd rfl howner
    · rw [if_neg hother, h.pending_iff]
      split
      · next howner =>
        rw [howner, hheld, List.mem_cons]
        simp [hother]
      · exact Iff.rfl
  · intro holder
    rw [holding_held]
    split
    · exact hrest
    · exact h.nodup holder
  · intro holder
    rw [holding_held]
    split
    · exact hchain.tail
    · exact h.chain holder
  · intro asking other hwaits
    rw [holding_workers, Ledger.awaited?_put] at hwaits
    have hne : asking ≠ worker := by
      rintro rfl
      rw [hidle] at hwaits
      cases hwaits
    exact (mayAsk_holding_of_ne hne).mpr (h.awaits asking other hwaits)

end Orderly

/-- A step keeps the order and is not told of a cycle. -/
theorem Step.orderly {event : Workers.Event} (hstep : Step imports crew event next)
    (hacyclic : ∀ p, ¬TransGen imports p p) (h : Orderly imports crew) :
    Orderly imports next ∧ event.answer? ≠ some .cycle := by
  cases hstep with
  | ask worker path answer hmay hstep =>
    cases hstep with
    | ask _ _ hidle =>
      refine ⟨h.request hidle hmay, ?_⟩
      intro heq
      exact h.request_ne_cycle hacyclic hmay (Option.some.inj heq)
  | wake worker path answer hstep =>
    cases hstep with
    | wake _ _ _ hwaits hwake =>
      rw [Workers.wake_eq hwaits, Prod.mk.injEq, Option.some.injEq] at hwake
      obtain ⟨rfl, rfl⟩ := hwake
      have hreleased := h.release worker
      have hmay := h.awaits worker path hwaits
      refine ⟨hreleased.request ?_ hmay, ?_⟩
      · exact Ledger.awaited?_release_self _ worker
      · intro heq
        exact hreleased.request_ne_cycle hacyclic hmay (Option.some.inj heq)
  | finish worker path rest result hheld hidle hresult hstep =>
    rcases hstep.cases_request with
      ⟨_, _, _, _, _, _, _, rfl | rfl⟩ | ⟨named, found, hfound, hfinal, hhand⟩
    · cases hresult
    · cases hresult
    · rw [hresult] at hfound
      cases hfound
      refine ⟨h.handIn hheld hidle hfinal hhand, ?_⟩
      cases event with
      | asked worker path answer => cases hresult
      | woken worker path answer => cases hresult
      | published path file => exact nofun
      | failed path reason => exact nofun
      | dropped path => exact nofun

theorem Run.orderly {events : List Workers.Event} (hrun : Run imports crew events next)
    (hacyclic : ∀ p, ¬TransGen imports p p) (h : Orderly imports crew) :
    Orderly imports next ∧ ∀ event ∈ events, event.answer? ≠ some .cycle := by
  induction hrun with
  | nil => exact ⟨h, fun event hmem => nomatch hmem⟩
  | cons hstep _ ih =>
    obtain ⟨hnext, hanswer⟩ := hstep.orderly hacyclic h
    obtain ⟨hlast, hanswers⟩ := ih hnext
    exact ⟨hlast, List.forall_mem_cons.mpr ⟨hanswer, hanswers⟩⟩

/-- Over an import graph without a cycle no request of any worker, in any order of
their steps, is told of one. -/
theorem acyclic_imports_meet_no_cycle {events : List Workers.Event}
    (hacyclic : ∀ path, ¬TransGen imports path path) (hrun : Run imports .start events crew) :
    ∀ event ∈ events, event.answer? ≠ some .cycle :=
  (hrun.orderly hacyclic .start).2

/-- Two files import a third one. While the first worker compiles it the second has to
wait, and is told of its failure when woken. -/
theorem acyclic_imports_meet_no_cycle_two : ∃ (a b shared : VirtualPath) (crew : Crew)
    (imports : VirtualPath → VirtualPath → Prop) (events : List Workers.Event),
    (∀ path, ¬TransGen imports path path) ∧ Run imports .start events crew ∧
    events = [.asked 1 a .claimed, .asked 2 b .claimed, .asked 1 shared .claimed,
      .asked 2 shared .blocked, .failed shared .syntaxErrors,
      .woken 2 shared (.failed .syntaxErrors)] ∧
    ∀ event ∈ events, event.answer? ≠ some .cycle := by
  let a : VirtualPath := ⟨⟨false, ["a.proto"], by decide⟩, by decide⟩
  let b : VirtualPath := ⟨⟨false, ["b.proto"], by decide⟩, by decide⟩
  let shared : VirtualPath := ⟨⟨false, ["shared.proto"], by decide⟩, by decide⟩
  let imports (path target : VirtualPath) : Prop := path ≠ shared ∧ target = shared
  have hacyclic : ∀ path, ¬TransGen imports path path := by
    intro path hcircle
    obtain ⟨_, hfirst, _⟩ := TransGen.head'_iff.mp hcircle
    obtain ⟨_, _, hlast⟩ := TransGen.tail'_iff.mp hcircle
    exact hfirst.1 hlast.2
  have hrun : Run imports .start [.asked 1 a .claimed, .asked 2 b .claimed,
      .asked 1 shared .claimed, .asked 2 shared .blocked, .failed shared .syntaxErrors,
      .woken 2 shared (.failed .syntaxErrors)] _ :=
    .cons (.ask 1 a _ (fun _ h => nomatch h) (.ask 1 a rfl)) <|
    .cons (.ask 2 b _ (fun _ h => nomatch h) (.ask 2 b rfl)) <|
    .cons (.ask 1 shared _ (fun _ h => by cases h; exact ⟨by decide, rfl⟩) (.ask 1 shared rfl)) <|
    .cons (.ask 2 shared _ (fun _ h => by cases h; exact ⟨by decide, rfl⟩) (.ask 2 shared rfl)) <|
    .cons (.finish 1 shared [a] _ rfl rfl rfl (.fail shared .syntaxErrors rfl)) <|
    .cons (.wake 2 shared _ (.wake 2 shared _ rfl rfl)) (.nil _)
  exact ⟨a, b, shared, _, imports, _, hacyclic, hrun, rfl,
    acyclic_imports_meet_no_cycle hacyclic hrun⟩

end Crew

end ProtoSchema
