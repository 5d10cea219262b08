import ProtoSchema.Catalog
import ProtoSchema.Diagnostic.Outlet
import ProtoSchema.Diagnostic.Summary
import ProtoSchema.Session.Walk

/-!
Sessions. The settings of a run give the extension of schema files, whether
unused imports are worth a warning, and how diagnostics are written out. A call
for a root gives the linked root when it and all below it compiled without an
error; otherwise it gives a failure with all that did compile and every
diagnostic of the call. Calls on one session share a ledger.
-/

namespace ProtoSchema

open Linked (File)

structure Settings where
  extension : String
  warnUnused : Bool
  report : ReportOptions
deriving DecidableEq

namespace Settings

def standard : Settings := ⟨"proto", false, .colorful⟩

/-- The extension without the dots in front of it. -/
def bareExtension (written : String) : String :=
  String.ofList (written.toList.dropWhile (· = '.'))

/-- The ending of the names of schema files. -/
def ending (settings : Settings) : String := "." ++ settings.extension

end Settings

/-- A root that did not compile cleanly. Files and diagnostics are in the order
of discovery. -/
structure ImportFailure where
  root : VirtualPath
  file : Option File
  obtained : List File
  diagnostics : List Diagnostic

namespace ImportFailure

def message (failure : ImportFailure) : String :=
  "failed to compile \"" ++ failure.root.text ++ "\": " ++
    (Diagnostic.Count.ofList failure.diagnostics).text

def file? (failure : ImportFailure) (path : VirtualPath) : Option File :=
  failure.obtained.find? (·.path = path)

end ImportFailure

/-- The state that calls share. -/
structure Session where
  ledger : Ledger
  loaded : List (VirtualPath × PhysicalPath)
  outlet : Outlet
  nextWorker : Worker

namespace Session

def start (outlet : Outlet) : Session := ⟨.empty, [], outlet, 1⟩

/-- The workshop with the schema reader and linker of this library. -/
def workshop (settings : Settings) (overlay : Overlay) (store : Store) : Workshop where
  overlay := overlay
  store := store
  parse := fun _ text => Schema.File.read text
  link := Linked.link settings.warnUnused

/-- How deep files can nest: each but the innermost has a file under a mapping. -/
def depthBound (shop : Workshop) : Nat :=
  shop.overlay.mappings.length * shop.store.size + 1

/-- The error that ends a call whose root was incomplete before. -/
def incompleteRoot (root : VirtualPath) : Diagnostic :=
  ⟨root, .none, .error, .bindFailure,
    "\"" ++ root.text ++ "\" depends on imports that failed to compile"⟩

/-- The answer to a call that obtained `file`, and all its diagnostics. -/
def conclude (root : VirtualPath) (file : Option File) (call : Call) :
    Except ImportFailure File × List Diagnostic :=
  let failure (ds : List Diagnostic) : ImportFailure := ⟨root, file, call.obtained, ds⟩
  if ∃ d ∈ call.diagnostics, d.IsError then
    (.error (failure call.diagnostics), call.diagnostics)
  else
    match file with
    | some linked =>
      if linked.complete then (.ok linked, call.diagnostics)
      else
        let ds := call.diagnostics ++ [incompleteRoot root]
        (.error (failure ds), ds)
    | none =>
      let ds := call.diagnostics ++ [incompleteRoot root]
      (.error (failure ds), ds)

/-- Compiles a root and all that it imports. -/
def compile (shop : Workshop) (root : VirtualPath) (session : Session) :
    Except ImportFailure File × Session :=
  let call : Call := ⟨session.nextWorker, session.ledger, session.loaded, [], [], []⟩
  let (file, call) := (Walk.resolve shop (depthBound shop) root none).run call
  let (answer, diagnostics) := conclude root file call
  (answer, {
    ledger := call.ledger
    loaded := call.loaded
    outlet := session.outlet.takeAll diagnostics
    nextWorker := session.nextWorker + 1 })

/-- Compiles several roots one after the other. -/
def compileAll (shop : Workshop) :
    List VirtualPath → Session → List (Except ImportFailure File) × Session
  | [], session => ([], session)
  | root :: rest, session =>
    let (answer, session) := session.compile shop root
    let (answers, session) := compileAll shop rest session
    (answer :: answers, session)

/-- Every linked file, in the order of paths. -/
def compiled (session : Session) : List File := session.ledger.compiled

def catalog (session : Session) : Catalog := .ofFiles session.compiled

/-- Takes what the outlet has buffered. -/
def drain (session : Session) : List Diagnostic × Session :=
  (session.outlet.items, { session with outlet := session.outlet.drained })

end Session

end ProtoSchema
