import ProtoSchema.Store

/-!
A tree of directories and files with a working directory, seen through
physical paths. A path has at most 4095 bytes and a name at most 255. Every
piece of a path, an empty one included, asks that the place reached so far be a
directory, and `..` leads to the directory above.
-/

namespace ProtoSchema

/-- A directory tree by the names that lead to its places from the top. -/
structure Disk where
  files : List (List String × List UInt8)
  directories : List (List String)
  workingDirectory : List String

/-- What stands at a place on disk. -/
inductive DiskPlace where
  | file (bytes : List UInt8)
  | directory (names : List String)

/-- Why a path leads nowhere. -/
inductive DiskTrouble where
  | missing
  | notDirectory
  | nameTooLong
  | zeroByte
deriving DecidableEq

namespace DiskTrouble

def error (path : PhysicalPath) : DiskTrouble → ReadError
  | .missing => .notFound path
  | .notDirectory => .failed path "Not a directory (os error 20)"
  | .nameTooLong => .failed path "File name too long (os error 36)"
  | .zeroByte => .failed path "file name contained an unexpected NUL byte"

end DiskTrouble

namespace Disk

/-- What stands at the place, where a directory above a place is there too. -/
def place? (disk : Disk) (names : List String) : Option DiskPlace :=
  match disk.files.find? (·.1 = names) with
  | some entry => some (.file entry.2)
  | none =>
    if names = [] ∨ names <+: disk.workingDirectory ∨
        disk.directories.any (names.isPrefixOf ·) ∨
        disk.files.any (names.isPrefixOf ·.1) then some (.directory names)
    else none

/-- One piece of a path, taken from `current`. -/
def enter (disk : Disk) (current : DiskPlace) (piece : String) : Except DiskTrouble DiskPlace :=
  match current with
  | .file _ => .error .notDirectory
  | .directory names =>
    if piece = "" ∨ piece = "." then .ok current
    else if piece = ".." then .ok (.directory names.dropLast)
    else if piece.utf8ByteSize > 255 then .error .nameTooLong
    else
      match disk.place? (names ++ [piece]) with
      | some place => .ok place
      | none => .error .missing

/-- A path of this many bytes cannot be followed. -/
def pathLimit : Nat := 4096

/-- Follows the pieces of a path. -/
def locate (disk : Disk) (path : PhysicalPath) : Except DiskTrouble DiskPlace :=
  if '\x00' ∈ path.spelling.toList then .error .zeroByte
  else if pathLimit ≤ path.spelling.utf8ByteSize then .error .nameTooLong
  else if path.spelling = "" then .error .missing
  else
    let start := if path.spelling.toList.head? == some '/' then [] else disk.workingDirectory
    ((Text.splitAt '/' path.spelling.toList).map String.ofList).foldlM disk.enter (.directory start)

def isFile (disk : Disk) (path : PhysicalPath) : Bool :=
  match disk.locate path with
  | .ok (.file _) => true
  | _ => false

/-- The bytes of the file at the path. -/
def read (disk : Disk) (path : PhysicalPath) : Except ReadError (List UInt8) :=
  match disk.locate path with
  | .ok (.file bytes) => .ok bytes
  | .ok (.directory _) => .error (.isDirectory path)
  | .error trouble => .error (trouble.error path)

def load (disk : Disk) (path : PhysicalPath) : Except ReadError String :=
  (disk.read path).bind fun bytes => decodeFile bytes path

/-- The directories below a directory, by the names that lead to them from it. -/
def directoriesBelow (disk : Disk) (names : List String) : List (List String) :=
  ((disk.files.map (·.1.dropLast) ++ disk.directories).filter names.isPrefixOf).map
    (·.drop names.length)

/-- The first directory on the way down from `root` that has too long a path. -/
def unopened? (root : PhysicalPath) : List String → Option PhysicalPath
  | [] => none
  | name :: rest =>
    if pathLimit ≤ (root.push name).spelling.utf8ByteSize then some (root.push name)
    else unopened? (root.push name) rest

/-- The files below a directory, spelled from `root`, in order. -/
def walk (disk : Disk) (root : PhysicalPath) : Except ReadError (List PhysicalPath) :=
  match disk.locate root with
  | .error trouble => .error (trouble.error root)
  | .ok (.file _) => .error (DiskTrouble.notDirectory.error root)
  | .ok (.directory names) =>
    match (disk.directoriesBelow names).findSome? (unopened? root) with
    | some path => .error (DiskTrouble.nameTooLong.error path)
    | none =>
      let below := (disk.files.map (·.1)).filter names.isPrefixOf
      .ok ((below.map fun file => root.extend (file.drop names.length)).mergeSort PhysicalPath.le)

/-- The names that lead to a path without asking what stands there. -/
def namesOf (disk : Disk) (path : PhysicalPath) : List String :=
  path.steps.foldl (fun names step =>
    match step with
    | .root => []
    | .here => names
    | .parent => names.dropLast
    | .name s => names ++ [s]) disk.workingDirectory

def writeFile (disk : Disk) (path : PhysicalPath) (bytes : List UInt8) : Disk :=
  let names := disk.namesOf path
  { disk with files := disk.files.filter (·.1 ≠ names) ++ [(names, bytes)] }

def makeDirectory (disk : Disk) (path : PhysicalPath) : Disk :=
  { disk with directories := disk.directories ++ [disk.namesOf path] }

/-- The path with the working directory in front, when it is relative, and
without repeated slashes and `.` pieces. A slash at its end stays. -/
def absolute (disk : Disk) (path : PhysicalPath) : PhysicalPath :=
  if path.spelling = "" then path
  else
    let pieces := path.steps.filterMap fun step =>
      match step with
      | .root | .here => none
      | .parent => some ".."
      | .name s => some s
    let all :=
      if path.spelling.toList.head? == some '/' then pieces else disk.workingDirectory ++ pieces
    let closing :=
      if path.spelling.toList.getLast? = some '/' ∧ all ≠ [] then "/" else ""
    ⟨"/" ++ "/".intercalate all ++ closing⟩

def store (disk : Disk) : Store where
  isFile := disk.isFile
  load := disk.load
  walk := disk.walk
  size := disk.files.length

end Disk

end ProtoSchema
