import ProtoSchema.Ledger
import ProtoSchema.Diagnostic
import ProtoSchema.Overlay

/-!
What can go wrong with an import, and the diagnostic it gives. A fault is
reported at the import statement that met it, or at the file itself when the
file was asked for as a root.
-/

namespace ProtoSchema

/-- An import statement, by its file and its place there. -/
structure ImportSite where
  file : VirtualPath
  position : Position
deriving DecidableEq

/-- Why a file could not be obtained. -/
inductive ImportFault where
  | notFound (why : Unresolved)
  | unreadable (why : ReadError)
  | failedBefore (reason : Failure)
  | cycle (chain : List VirtualPath)
deriving DecidableEq

namespace ImportFault

def whereLooked : Unresolved → String
  | .noMapping _ => "no mapping covers it"
  | .missing _ physical => "looked in " ++ physical.spelling

/-- The message about the file at `path`, asked for by an import or as a root. -/
def message (path : VirtualPath) (imported : Bool) (fault : ImportFault) : String :=
  let subject := (if imported then "import \"" else "\"") ++ path.text ++ "\""
  match fault with
  | .notFound why => "cannot find " ++ subject ++ " (" ++ whereLooked why ++ ")"
  | .unreadable why => "cannot read " ++ subject ++ ": " ++ why.message
  | .failedBefore .notFound => "cannot find " ++ subject
  | .failedBefore reason => subject ++ " has errors (" ++ reason.text ++ ")"
  | .cycle [] => "import cycle involving \"" ++ path.text ++ "\""
  | .cycle chain =>
    "import cycle involving \"" ++ path.text ++ "\": " ++
      " -> ".intercalate (chain.map VirtualPath.text)

def kind : ImportFault → Diagnostic.Kind
  | .notFound _ => .pathNotFound
  | .unreadable why => if why.isNotFound then .pathNotFound else .readFailure
  | .failedBefore .notFound => .pathNotFound
  | .failedBefore _ => .bindFailure
  | .cycle _ => .importCycle

def diagnostic (path : VirtualPath) (site : Option ImportSite) (fault : ImportFault) :
    Diagnostic :=
  match site with
  | some site => ⟨site.file, site.position, .error, fault.kind, fault.message path true⟩
  | none => ⟨path, .none, .error, fault.kind, fault.message path false⟩

end ImportFault

/-- What is wrong with an import statement by itself. -/
inductive StatementFault where
  | invalidPath (raw : String) (why : PathFault)
  | repeated (target : VirtualPath)
deriving DecidableEq

def StatementFault.diagnostic (site : ImportSite) : StatementFault → Diagnostic
  | .invalidPath raw why =>
    ⟨site.file, site.position, .error, .pathNotFound,
      "invalid import path \"" ++ raw ++ "\": " ++ why.message⟩
  | .repeated target =>
    ⟨site.file, site.position, .warning, .bindFailure,
      "\"" ++ target.text ++ "\" is imported more than once"⟩

end ProtoSchema
