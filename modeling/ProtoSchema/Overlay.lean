import ProtoSchema.Path.Virtual
import ProtoSchema.Store

/-!
Directories overlaid on the virtual tree. Each mount has one root directory. A
virtual path is served by the mount closest to it and by no other, also when
the file is missing there. The way back from a file to its virtual path is
tried from the deepest root outwards.
-/

namespace ProtoSchema

/-- A directory laid over a place in the virtual tree. -/
structure Mapping where
  mount : Mount
  root : PhysicalPath
deriving DecidableEq

/-- The mappings, in the order in which their mounts were first given. -/
structure Overlay where
  mappings : List Mapping
deriving DecidableEq

/-- Why a virtual path has no file. -/
inductive Unresolved where
  | noMapping (path : VirtualPath)
  | missing (path : VirtualPath) (physical : PhysicalPath)
deriving DecidableEq

def Unresolved.message : Unresolved → String
  | .noMapping path => "no mapping covers \"" ++ path.text ++ "\""
  | .missing path physical =>
    "\"" ++ path.text ++ "\" maps to " ++ physical.spelling ++ " which does not exist"

/-- The virtual name of a file on disk. -/
inductive Origin where
  | reachable (path : VirtualPath)
  | shadowed (path : VirtualPath) (servedBy : PhysicalPath)
  | outside
deriving DecidableEq

namespace Mapping

/-- The virtual path that `file` would have under this mapping. -/
def virtualOf? (mapping : Mapping) (file : PhysicalPath) : Option VirtualPath :=
  (mapping.root.namesBelow? file).bind mapping.mount.join?

/-- Where this mapping puts `path`, if its mount covers it. -/
def place? (mapping : Mapping) (path : VirtualPath) : Option PhysicalPath :=
  (mapping.mount.below? path.toMount).map mapping.root.extend

end Mapping

namespace Overlay

def empty : Overlay := ⟨[]⟩

/-- Gives the mount a root, in place of one it had. -/
def insert (overlay : Overlay) (mount : Mount) (root : PhysicalPath) : Overlay :=
  if overlay.mappings.any (·.mount = mount) then
    ⟨overlay.mappings.map fun m => if m.mount = mount then { m with root } else m⟩
  else ⟨overlay.mappings ++ [⟨mount, root⟩]⟩

/-- Reads the mount from text and gives it a root. -/
def map (overlay : Overlay) (rawMount rawRoot : String) : Except PathFault Overlay :=
  (Mount.read rawMount).map fun mount => overlay.insert mount ⟨rawRoot⟩

/-- The mapping with the most segments, the later one of two that tie. -/
def closest : List Mapping → Option Mapping
  | [] => none
  | m :: rest =>
    match closest rest with
    | none => some m
    | some best =>
      if best.mount.segments.length < m.mount.segments.length then some m else some best

/-- Where `path` is kept, whether or not a file is there. -/
def locate (overlay : Overlay) (path : VirtualPath) : Option PhysicalPath :=
  (closest (overlay.mappings.filter fun m => (m.mount.below? path.toMount).isSome)).bind
    (·.place? path)

/-- The file that serves `path`. -/
def resolve (overlay : Overlay) (store : Store) (path : VirtualPath) :
    Except Unresolved PhysicalPath :=
  match overlay.locate path with
  | none => .error (.noMapping path)
  | some physical =>
    if store.isFile physical then .ok physical else .error (.missing path physical)

/-- The overlay keeps the virtual path at `file`, in some spelling of that place. -/
def Serves (overlay : Overlay) (path : VirtualPath) (file : PhysicalPath) : Prop :=
  ∃ physical, overlay.locate path = some physical ∧ physical.Same file

instance (overlay : Overlay) (path : VirtualPath) (file : PhysicalPath) :
    Decidable (overlay.Serves path file) :=
  match h : overlay.locate path with
  | none => isFalse fun ⟨_, hp, _⟩ => by simp [h] at hp
  | some physical =>
    if hs : physical.Same file then isTrue ⟨physical, h, hs⟩
    else isFalse fun ⟨_, hp, hq⟩ => hs (by rw [h] at hp; cases hp; exact hq)

/-- Tries the mappings in turn; the first shadowed name is kept for the case
that none serves the file. -/
def originAmong (overlay : Overlay) (file : PhysicalPath) : List Mapping → Origin
  | [] => .outside
  | mapping :: rest =>
    match mapping.virtualOf? file with
    | none => overlay.originAmong file rest
    | some path =>
      match overlay.locate path with
      | none => overlay.originAmong file rest
      | some physical =>
        if physical.Same file then .reachable path
        else
          match overlay.originAmong file rest with
          | .reachable other => .reachable other
          | _ => .shadowed path physical

/-- The mappings whose root holds the file, deepest root first. -/
def candidates (overlay : Overlay) (file : PhysicalPath) : List Mapping :=
  (overlay.mappings.filter fun m => decide (m.root.steps <+: file.steps)).mergeSort
    fun a b => decide (b.root.steps.length ≤ a.root.steps.length)

/-- The virtual name under which a file is served. -/
def originOf (overlay : Overlay) (file : PhysicalPath) : Origin :=
  overlay.originAmong file (overlay.candidates file)

/-- The virtual paths with the extension that the mapping's root holds and the
overlay serves. -/
def listed (overlay : Overlay) (ending : String) (mapping : Mapping)
    (files : List PhysicalPath) : List VirtualPath :=
  files.filterMap fun file =>
    (mapping.virtualOf? file).filter fun path =>
      path.hasExtension ending && decide (overlay.Serves path file)

/-- The reachable files of each mapping; a missing root holds none. -/
def listEach (overlay : Overlay) (store : Store) (ending : String) :
    List Mapping → Except ReadError (List VirtualPath)
  | [] => .ok []
  | mapping :: rest =>
    match store.walk mapping.root with
    | .ok files =>
      (overlay.listEach store ending rest).map (overlay.listed ending mapping files ++ ·)
    | .error e =>
      if e.isNotFound then overlay.listEach store ending rest else .error e

/-- Every reachable file whose name ends in `ending`, in order. -/
def list (overlay : Overlay) (store : Store) (ending : String) :
    Except ReadError (List VirtualPath) :=
  (overlay.listEach store ending overlay.mappings).map sortedPaths

end Overlay

end ProtoSchema
