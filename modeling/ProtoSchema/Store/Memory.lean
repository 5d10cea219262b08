import ProtoSchema.Store

/-!
Files kept in memory. Spellings of one place share an entry, which keeps the
spelling it was first written under. A fault stands at a path in place of a
file: the path counts as a file, and reading it or listing it fails.
-/

namespace ProtoSchema

/-- Files in memory, first written first, no place twice. -/
structure MemoryFiles where
  entries : List (PhysicalPath × List UInt8)

/-- What goes wrong at a faulty path. -/
inductive Fault where
  | denied
  | directory
  | missing
  | broken (cause : String)
deriving DecidableEq

def Fault.error (path : PhysicalPath) : Fault → ReadError
  | .denied => .permissionDenied path
  | .directory => .isDirectory path
  | .missing => .notFound path
  | .broken cause => .failed path cause

namespace MemoryFiles

def empty : MemoryFiles := ⟨[]⟩

def get? (files : MemoryFiles) (path : PhysicalPath) : Option (List UInt8) :=
  (files.entries.find? fun entry => entry.1.Same path).map (·.2)

/-- Writes a file; a second write to a place replaces its bytes. -/
def insert (files : MemoryFiles) (path : PhysicalPath) (bytes : List UInt8) : MemoryFiles :=
  if files.entries.any fun entry => entry.1.Same path then
    ⟨files.entries.map fun entry => if entry.1.Same path then (entry.1, bytes) else entry⟩
  else ⟨files.entries ++ [(path, bytes)]⟩

def erase (files : MemoryFiles) (path : PhysicalPath) : MemoryFiles :=
  ⟨files.entries.filter fun entry => !decide (entry.1.Same path)⟩

def size (files : MemoryFiles) : Nat := files.entries.length

def isFile (files : MemoryFiles) (path : PhysicalPath) : Bool := (files.get? path).isSome

def load (files : MemoryFiles) (path : PhysicalPath) : Except ReadError String :=
  match files.get? path with
  | some bytes => decodeFile bytes path
  | none => .error (.notFound path)

/-- The paths strictly below `root`, in order. -/
def walk (files : MemoryFiles) (root : PhysicalPath) : List PhysicalPath :=
  ((files.entries.map (·.1)).filter fun path =>
    decide (root.steps <+: path.steps) && !decide (path.Same root)).mergeSort PhysicalPath.le

def store (files : MemoryFiles) : Store where
  isFile := files.isFile
  load := files.load
  walk := fun root => .ok (files.walk root)
  size := files.size

/-- The store with faults laid over its files. -/
def faultyStore (files : MemoryFiles) (faults : List (PhysicalPath × Fault)) : Store :=
  let fault? (path : PhysicalPath) : Option Fault :=
    (faults.find? fun entry => entry.1.Same path).map (·.2)
  { isFile := fun path => (fault? path).isSome || files.isFile path
    load := fun path =>
      match fault? path with
      | some fault => .error (fault.error path)
      | none => files.load path
    walk := fun root =>
      match fault? root with
      | some fault => .error (fault.error root)
      | none => .ok (files.walk root)
    size := files.size + faults.length }

end MemoryFiles

end ProtoSchema
