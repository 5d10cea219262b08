import ProtoSchema.CommandLine.Arguments
import ProtoSchema.Session
import ProtoSchema.Linked.Summary
import ProtoSchema.Store.Disk

/-!
What the command does: it overlays the mapped directories, compiles the roots,
prints what was found and then every diagnostic; or it prints a notice. The
code is zero when nothing was reported, one when something was, and two when it
could not start.
-/

namespace ProtoSchema.CommandLine

/-- What the command leaves behind. -/
structure Result where
  code : Nat
  output : String
  errors : String
deriving DecidableEq

/-- Why the command could not start compiling. -/
inductive StartError where
  | badMount (raw : String) (why : PathFault)
  | badRoot (argument : String) (why : PathFault)
  | shadowed (argument : String) (path : VirtualPath) (servedBy : PhysicalPath)
  | cannotList (why : ReadError)
  | noRoots
deriving DecidableEq

namespace StartError

def message : StartError → String
  | .badMount raw why => "invalid mapping prefix \"" ++ raw ++ "\": " ++ why.message
  | .badRoot argument why => "invalid root \"" ++ argument ++ "\": " ++ why.message
  | .shadowed argument path servedBy =>
    argument ++ " is shadowed: \"" ++ path.text ++ "\" resolves to " ++ servedBy.spelling
  | .cannotList why =>
    "cannot list schema files: " ++ why.message ++ ((why.cause?.map (": " ++ ·)).getD "")
  | .noRoots => "no root files given (pass paths or --all)"

end StartError

/-- The mapped directories; without a mapping, the working directory. -/
def overlayOf (mappings : List (String × String)) : Except StartError Overlay :=
  if mappings = [] then .ok ⟨[⟨⟨false, [], by simp⟩, ⟨"."⟩⟩]⟩
  else
    mappings.foldlM (fun overlay (mount, root) =>
      (overlay.map mount root).mapError (StartError.badMount mount)) .empty

/-- The virtual name of an existing file that lies under a mapped directory. -/
def rootOnDisk? (disk : Disk) (overlay : Overlay) (argument : String) :
    Except StartError (Option VirtualPath) :=
  let given : PhysicalPath := ⟨argument⟩
  if disk.isFile given then
    match overlay.originOf given with
    | .reachable path => .ok (some path)
    | .shadowed path servedBy => .error (.shadowed argument path servedBy)
    | .outside =>
      match overlay.originOf (disk.absolute given) with
      | .reachable path => .ok (some path)
      | .shadowed path servedBy => .error (.shadowed argument path servedBy)
      | .outside => .ok none
  else .ok none

/-- The root that an argument names: a file on disk, or else a virtual path. -/
def rootOf (disk : Disk) (overlay : Overlay) (argument : String) :
    Except StartError VirtualPath := do
  match ← rootOnDisk? disk overlay argument with
  | some path => return path
  | none => (VirtualPath.read argument).mapError (StartError.badRoot argument)

/-- The roots to compile, in order and each once. -/
def rootsOf (disk : Disk) (overlay : Overlay) (settings : Settings) (arguments : Arguments) :
    Except StartError (List VirtualPath) := do
  let named ← arguments.roots.mapM (rootOf disk overlay)
  let listed ←
    if arguments.all then
      (overlay.list disk.store settings.ending).mapError StartError.cannotList
    else pure []
  if named ++ listed = [] then .error .noRoots
  else return sortedPaths (named ++ listed)

/-- What is printed about the linked files, and the error if a message that was
asked for is not among them. -/
def findings (session : Session) (arguments : Arguments) : String × Option CatalogError :=
  match arguments.message with
  | some name =>
    match session.catalog.messageNamed name with
    | .ok message => (message.listing, none)
    | .error why => ("", some why)
  | none =>
    if arguments.json then
      ((Text.Json.list (session.compiled.map (·.summary))).text ++ "\n", none)
    else (String.join (session.compiled.map fun file => file.headline ++ "\n"), none)

/-- The text of a file as it is on disk. -/
def sourceText? (disk : Disk) (overlay : Overlay) (path : VirtualPath) : Option String :=
  (overlay.locate path).bind fun physical =>
    (disk.read physical).toOption.bind fun bytes => String.fromUTF8? ⟨bytes.toArray⟩

/-- The report of all diagnostics and the line that counts them. -/
def reported (options : ReportOptions) (disk : Disk) (overlay : Overlay) (ds : List Diagnostic) :
    String :=
  if ds = [] then ""
  else
    Report.format options (sourceText? disk overlay) ds ++ (Diagnostic.Count.ofList ds).text ++ "\n"

def settingsOf (arguments : Arguments) (terminal : Bool) : Settings where
  extension := Settings.standard.extension
  warnUnused := arguments.warnUnused
  report := ⟨!arguments.noColor && terminal, arguments.format.getD .rich, true⟩

/-- Compiles the roots and puts the output together. -/
def compileRoots (disk : Disk) (overlay : Overlay) (settings : Settings) (arguments : Arguments)
    (roots : List VirtualPath) : Result :=
  let shop := Session.workshop settings overlay disk.store
  let (answers, session) := Session.compileAll shop roots (.start (.buffer []))
  let (output, unfound) := findings session arguments
  let ds := session.outlet.items
  let lookupText := (unfound.map fun why => "error: " ++ why.message ++ "\n").getD ""
  let clean := answers.all (·.isOk) && unfound.isNone && ds.isEmpty
  ⟨if clean then 0 else 1, output, lookupText ++ reported settings.report disk overlay ds⟩

/-- Compiles what the arguments name. -/
def start (disk : Disk) (terminal : Bool) (arguments : Arguments) : Except StartError Result := do
  let overlay ← overlayOf arguments.mappings
  let settings := settingsOf arguments terminal
  let roots ← rootsOf disk overlay settings arguments
  return compileRoots disk overlay settings arguments roots

/-- Runs the command; `terminal` tells whether errors go to a terminal. -/
def run (disk : Disk) (terminal : Bool) (arguments : List String) : Result :=
  match Request.read arguments with
  | .error why => ⟨2, "", why.text terminal⟩
  | .ok (.notice n) => ⟨0, n.text, ""⟩
  | .ok (.run arguments) =>
    match start disk terminal arguments with
    | .ok result => result
    | .error why => ⟨2, "", "error: " ++ why.message ++ "\n"⟩

end ProtoSchema.CommandLine
