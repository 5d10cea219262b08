import ProtoSchema.CommandLine.Run

/-!
The command itself: it reads the mapped directories and the files named by
arguments into a disk value, runs on that, and prints the result.
-/

namespace ProtoSchema.CommandLine

/-- The directories that the arguments map, or the working directory. -/
def mappedRoots (arguments : List String) : List String :=
  match Request.read arguments with
  | .ok (.run read) => if read.mappings = [] then ["."] else read.mappings.map (·.2)
  | _ => []

/-- The files named by the arguments. -/
def namedFiles (arguments : List String) : List String :=
  match Request.read arguments with
  | .ok (.run read) => read.roots
  | _ => []

/-- Adds the file or directory at a path, if one is there. -/
def capture (disk : Disk) (path : String) : IO Disk := do
  let place := (← IO.currentDir) / path
  if ← place.isDir then
    return disk.makeDirectory ⟨path⟩
  else if ← place.pathExists then
    return disk.writeFile ⟨path⟩ (← IO.FS.readBinFile place).toList
  else
    return disk

/-- Adds a directory with all that it holds. -/
def captureAll (disk : Disk) (root : String) : IO Disk := do
  let disk ← capture disk root
  let place := (← IO.currentDir) / root
  if ← place.isDir then
    (← place.walkDir).foldlM (fun disk found => capture disk found.toString) disk
  else
    return disk

end ProtoSchema.CommandLine

open ProtoSchema ProtoSchema.CommandLine in
def main (arguments : List String) : IO UInt32 := do
  let here : PhysicalPath := ⟨(← IO.currentDir).toString⟩
  let names := here.steps.filterMap PathStep.name?
  let disk ← (mappedRoots arguments).foldlM captureAll (Disk.mk [] [] names)
  let disk ← (namedFiles arguments).foldlM capture disk
  let terminal ← (← IO.getStderr).isTty
  let result := run disk terminal arguments
  IO.print result.output
  IO.eprint result.errors
  return result.code.toUInt32
