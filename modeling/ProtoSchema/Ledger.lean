import ProtoSchema.Linked

/-!
The shared record of which files are being compiled, were compiled, or failed.
The first worker that asks for a path owns it until it hands in the result;
results never change. A worker that asks for a path owned by another has to
wait for it, unless the owner waits, directly or through others, for the
worker: then nobody could ever go on, and the request closes a cycle.
-/

namespace ProtoSchema

open Linked (File)

abbrev Worker := Nat

/-- Why a file has no linked form. -/
inductive Failure where
  | notFound
  | unreadable
  | syntaxErrors
  | linkErrors
  | abandoned
deriving DecidableEq

def Failure.text : Failure → String
  | .notFound => "not found"
  | .unreadable => "unreadable"
  | .syntaxErrors => "syntax errors"
  | .linkErrors => "link errors"
  | .abandoned => "abandoned"

/-- What is known about a path. -/
inductive Ledger.Entry where
  | pending (owner : Worker)
  | compiled (file : File)
  | failed (reason : Failure)

namespace Ledger.Entry

def isPending : Ledger.Entry → Bool
  | .pending _ => true
  | _ => false

def owner? : Ledger.Entry → Option Worker
  | .pending owner => some owner
  | _ => none

def file? : Ledger.Entry → Option File
  | .compiled file => some file
  | _ => none

def reason? : Ledger.Entry → Option Failure
  | .failed reason => some reason
  | _ => none

end Ledger.Entry

/-- The answer to a worker that asks for a path. -/
inductive Ledger.Answer where
  | claimed
  | compiled (file : File)
  | failed (reason : Failure)
  | cycle
  | blocked

/-- The entries, oldest first, and for each waiting worker the path it waits for. -/
structure Ledger where
  entries : List (VirtualPath × Ledger.Entry)
  waiting : List (Worker × VirtualPath)

namespace Ledger

def empty : Ledger := ⟨[], []⟩

def entry? (ledger : Ledger) (path : VirtualPath) : Option Ledger.Entry :=
  (ledger.entries.find? (·.1 = path)).map (·.2)

def awaited? (ledger : Ledger) (worker : Worker) : Option VirtualPath :=
  (ledger.waiting.find? (·.1 = worker)).map (·.2)

/-- Replaces the entry of a path, or adds it behind the others. -/
def put (ledger : Ledger) (path : VirtualPath) (entry : Ledger.Entry) : Ledger :=
  { ledger with
    entries :=
      if ledger.entries.any (·.1 = path) then
        ledger.entries.map fun e => if e.1 = path then (path, entry) else e
      else ledger.entries ++ [(path, entry)] }

/-- Notes that the worker waits for the path, and for no other. -/
def await (ledger : Ledger) (worker : Worker) (path : VirtualPath) : Ledger :=
  { ledger with waiting := ledger.waiting.filter (·.1 ≠ worker) ++ [(worker, path)] }

def release (ledger : Ledger) (worker : Worker) : Ledger :=
  { ledger with waiting := ledger.waiting.filter (·.1 ≠ worker) }

/-- The owner of the path that the worker waits for. -/
def waitsFor? (ledger : Ledger) (worker : Worker) : Option Worker :=
  ((ledger.awaited? worker).bind ledger.entry?).bind Ledger.Entry.owner?

/-- Whether following owners from `current` comes to `worker` within so many hops. -/
def leadsTo (ledger : Ledger) (worker : Worker) : Nat → Worker → Bool
  | 0, _ => false
  | hops + 1, current =>
    match ledger.waitsFor? current with
    | none => false
    | some next => next == worker || ledger.leadsTo worker hops next

/-- Whether `owner` waits, directly or through others, for `worker`. No chain of
waiting workers is longer than their number. -/
def isStuckOn (ledger : Ledger) (owner worker : Worker) : Bool :=
  ledger.leadsTo worker (ledger.waiting.length + 1) owner

/-- Asks for a path on behalf of a worker that is not waiting. -/
def request (ledger : Ledger) (path : VirtualPath) (worker : Worker) : Ledger.Answer × Ledger :=
  match ledger.entry? path with
  | none => (.claimed, ledger.put path (.pending worker))
  | some (.compiled file) => (.compiled file, ledger)
  | some (.failed reason) => (.failed reason, ledger)
  | some (.pending owner) =>
    if owner = worker ∨ ledger.isStuckOn owner worker then (.cycle, ledger)
    else (.blocked, ledger.await worker path)

/-- Every linked file, in the order of paths. -/
def compiled (ledger : Ledger) : List File :=
  (ledger.entries.filterMap fun e => e.2.file?).mergeSort fun a b => a.path.le b.path

/-- Every failed path with its reason, in the order of paths. -/
def failed (ledger : Ledger) : List (VirtualPath × Failure) :=
  (ledger.entries.filterMap fun e => e.2.reason?.map (e.1, ·)).mergeSort fun a b => a.1.le b.1

end Ledger

end ProtoSchema
