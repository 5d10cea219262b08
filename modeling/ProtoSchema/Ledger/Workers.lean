import ProtoSchema.Ledger

/-!
Workers that share a ledger. A worker that claims a path holds the claim until it
hands in a linked file or a failure, or drops the claim, which counts as a
failure too. A waiting worker asks again when it is woken.
-/

namespace ProtoSchema

open Linked (File)

/-- The ledger with the claims not yet handed in. -/
structure Workers where
  ledger : Ledger
  claims : List VirtualPath

namespace Workers

def start : Workers := ⟨.empty, []⟩

/-- A worker that is not waiting asks for a path. -/
def request (s : Workers) (path : VirtualPath) (worker : Worker) : Ledger.Answer × Workers :=
  let (answer, ledger) := s.ledger.request path worker
  match answer with
  | .claimed => (answer, ⟨ledger, path :: s.claims⟩)
  | _ => (answer, { s with ledger })

/-- Wakes a waiting worker, which asks again for the path it waits for. There is
no answer where the worker does not wait. -/
def wake (s : Workers) (worker : Worker) : Option Ledger.Answer × Workers :=
  match s.ledger.awaited? worker with
  | none => (none, s)
  | some path =>
    let (answer, s) := { s with ledger := s.ledger.release worker }.request path worker
    (some answer, s)

/-- Hands in the result for a claimed path; without a claim nothing happens. -/
def handIn (s : Workers) (path : VirtualPath) (result : Ledger.Entry) : Option Workers :=
  if path ∈ s.claims then some ⟨s.ledger.put path result, s.claims.erase path⟩ else none

def publish (s : Workers) (path : VirtualPath) (file : File) : Option Workers :=
  s.handIn path (.compiled file)

def fail (s : Workers) (path : VirtualPath) (reason : Failure) : Option Workers :=
  s.handIn path (.failed reason)

def abandon (s : Workers) (path : VirtualPath) : Option Workers :=
  s.fail path .abandoned

end Workers

end ProtoSchema
