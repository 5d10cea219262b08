import ProtoSchema.Session.Fault
import ProtoSchema.Linked.Linking
import ProtoSchema.Schema.Reading

/-!
The walk of one call through the import graph. A file is claimed, located,
read, its imports are walked in their order, and it is linked against what they
gave; each step that fails is reported and recorded in the ledger. Files on the
way to the current one are claimed by the same worker, so an import of one of
them closes a cycle.
-/

namespace ProtoSchema

open Linked (File Import)

/-- What a walk works with: where files are and how they are read and linked. -/
structure Workshop where
  overlay : Overlay
  store : Store
  parse : VirtualPath → String → Except (List SyntaxError) Schema.File
  link : VirtualPath → Schema.File → List Import → Except (List Linked.Problem) Linked.Outcome

/-- One call under way. The stack holds the files being compiled, outermost
first; diagnostics and obtained files are in the order of discovery. -/
structure Call where
  worker : Worker
  ledger : Ledger
  loaded : List (VirtualPath × PhysicalPath)
  stack : List VirtualPath
  diagnostics : List Diagnostic
  obtained : List File

abbrev Walk := StateM Call

/-- Obtains the file at a path for the import statement, if any, that names it. -/
abbrev Resolver := VirtualPath → Option ImportSite → Walk (Option File)

/-- The import edges of a file so far, and whether a statement gave none. -/
structure EdgeList where
  edges : List Import
  broken : Bool

namespace Walk

def report (d : Diagnostic) : Walk Unit :=
  modify fun call => { call with diagnostics := call.diagnostics ++ [d] }

def reportAll (ds : List Diagnostic) : Walk Unit :=
  modify fun call => { call with diagnostics := call.diagnostics ++ ds }

/-- Adds a file to those obtained, once per path. -/
def obtain (file : File) : Walk Unit :=
  modify fun call =>
    if call.obtained.any (·.path = file.path) then call
    else { call with obtained := call.obtained ++ [file] }

/-- Asks the ledger for a path. A walk never waits: it is told of a cycle in
place of being blocked, and nothing is noted. -/
def request (path : VirtualPath) : Walk Ledger.Answer := do
  let call ← get
  match call.ledger.request path call.worker with
  | (.blocked, _) => return .cycle
  | (answer, ledger) =>
    set { call with ledger }
    return answer

def finish (path : VirtualPath) (entry : Ledger.Entry) : Walk Unit :=
  modify fun call => { call with ledger := call.ledger.put path entry }

/-- Records the failure of a claimed file. -/
def giveUp (path : VirtualPath) (reason : Failure) : Walk (Option File) := do
  finish path (.failed reason)
  return none

def recordLoad (path : VirtualPath) (physical : PhysicalPath) : Walk Unit :=
  modify fun call => { call with loaded := call.loaded ++ [(path, physical)] }

def enter (path : VirtualPath) : Walk Unit :=
  modify fun call => { call with stack := call.stack ++ [path] }

def leave : Walk Unit :=
  modify fun call => { call with stack := call.stack.dropLast }

/-- The files from `path` on down the stack and back to `path`. -/
def cycleChain (stack : List VirtualPath) (path : VirtualPath) : List VirtualPath :=
  match stack.dropWhile (· ≠ path) with
  | [] => []
  | chain => chain ++ [path]

/-- The errors of a file that was not read, never none. -/
def syntaxDiagnostics (path : VirtualPath) (errors : List SyntaxError) : List Diagnostic :=
  (if errors = [] then [⟨.none, .rejected⟩] else errors).map fun e =>
    ⟨path, e.position, .error, .syntaxError, e.message⟩

/-- The problems of a file that was not linked, one of them an error. -/
def linkDiagnostics (path : VirtualPath) (problems : List Linked.Problem) : List Diagnostic :=
  (if ∃ p ∈ problems, p.IsError then problems else problems ++ [⟨.none, .rejected⟩]).map
    (·.diagnostic path)

/-- Warnings count as warnings whatever their linker says. -/
def warningDiagnostics (path : VirtualPath) (warnings : List Linked.Problem) : List Diagnostic :=
  warnings.map fun p => { p.diagnostic path with severity := .warning }

/-- Follows one import statement of the file at `path`. A path that was followed
before is not followed again. -/
def followImport (resolve : Resolver) (path : VirtualPath) (soFar : EdgeList)
    (statement : Schema.Import) : Walk EdgeList := do
  let site : ImportSite := ⟨path, statement.position⟩
  match VirtualPath.read statement.path with
  | .error why =>
    report (StatementFault.diagnostic site (.invalidPath statement.path why))
    return { soFar with broken := true }
  | .ok target =>
    if soFar.edges.any (·.path = target) then
      report (StatementFault.diagnostic site (.repeated target))
      return soFar
    else
      let file ← resolve target (some site)
      return { soFar with
        edges := soFar.edges ++ [⟨target, statement.kind, statement.position, file⟩] }

def followImports (resolve : Resolver) (path : VirtualPath) (statements : List Schema.Import) :
    Walk EdgeList :=
  statements.foldlM (followImport resolve path) ⟨[], false⟩

/-- Links a file that was read. An import statement that gave no edge makes it
incomplete. -/
def linkFile (shop : Workshop) (path : VirtualPath) (file : Schema.File) (imports : EdgeList) :
    Walk (Option File) := do
  match shop.link path file imports.edges with
  | .ok outcome =>
    reportAll (warningDiagnostics path outcome.warnings)
    let linked := if imports.broken then { outcome.file with complete := false } else outcome.file
    finish path (.compiled linked)
    obtain linked
    return some linked
  | .error problems =>
    reportAll (linkDiagnostics path problems)
    giveUp path .linkErrors

/-- Reads a file's text and what it imports, and links it. -/
def readFile (shop : Workshop) (resolve : Resolver) (path : VirtualPath) (text : String) :
    Walk (Option File) := do
  match shop.parse path text with
  | .error errors =>
    reportAll (syntaxDiagnostics path errors)
    giveUp path .syntaxErrors
  | .ok file =>
    let imports ← followImports resolve path file.imports
    linkFile shop path file imports

/-- Compiles a claimed file. -/
def compileClaimed (shop : Workshop) (resolve : Resolver) (path : VirtualPath)
    (site : Option ImportSite) : Walk (Option File) := do
  match shop.overlay.resolve shop.store path with
  | .error why =>
    report (ImportFault.diagnostic path site (.notFound why))
    giveUp path .notFound
  | .ok physical =>
    match shop.store.load physical with
    | .error why =>
      report (ImportFault.diagnostic path site (.unreadable why))
      giveUp path (if why.isNotFound then .notFound else .unreadable)
    | .ok text =>
      recordLoad path physical
      readFile shop resolve path text

/-- Obtains the file at `path`. Files being compiled may nest to the given
depth; a claim beyond it is given up. -/
def resolve (shop : Workshop) (depth : Nat) : Resolver := fun path site => do
  match ← request path with
  | .compiled file =>
    obtain file
    return some file
  | .failed reason =>
    report (ImportFault.diagnostic path site (.failedBefore reason))
    return none
  | .cycle | .blocked =>
    report (ImportFault.diagnostic path site (.cycle (cycleChain (← get).stack path)))
    return none
  | .claimed =>
    match depth with
    | 0 =>
      report (ImportFault.diagnostic path site (.failedBefore .abandoned))
      giveUp path .abandoned
    | depth + 1 =>
      enter path
      let file ← compileClaimed shop (resolve shop depth) path site
      leave
      return file

end Walk

end ProtoSchema
