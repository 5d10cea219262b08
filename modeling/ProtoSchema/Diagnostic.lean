import ProtoSchema.Path.Virtual
import ProtoSchema.Token

/-!
Diagnostics: one error or warning each, put at a place in a virtual file or at
the file as a whole.
-/

namespace ProtoSchema

inductive Severity where
  | error
  | warning
deriving DecidableEq

def Severity.text : Severity → String
  | .error => "error"
  | .warning => "warning"

/-- The step of an import that a diagnostic comes from. -/
inductive Diagnostic.Kind where
  | pathNotFound
  | readFailure
  | syntaxError
  | importCycle
  | unresolvedReference
  | bindFailure
deriving DecidableEq

namespace Diagnostic.Kind

def all : List Diagnostic.Kind :=
  [pathNotFound, readFailure, syntaxError, importCycle, unresolvedReference, bindFailure]

def text : Diagnostic.Kind → String
  | pathNotFound => "path-not-found"
  | readFailure => "io-failure"
  | syntaxError => "syntax-error"
  | importCycle => "import-cycle"
  | unresolvedReference => "unresolved-reference"
  | bindFailure => "bind-failure"

end Diagnostic.Kind

structure Diagnostic where
  path : VirtualPath
  position : Position
  severity : Severity
  kind : Diagnostic.Kind
  message : String
deriving DecidableEq

namespace Diagnostic

def IsError (d : Diagnostic) : Prop := d.severity = .error

instance : DecidablePred IsError :=
  fun d => inferInstanceAs (Decidable (d.severity = .error))

/-- The diagnostic points into the file. -/
def HasPosition (d : Diagnostic) : Prop := 0 < d.position.line

instance : DecidablePred HasPosition :=
  fun d => inferInstanceAs (Decidable (0 < d.position.line))

/-- The file, with line and column where there are any. -/
def location (d : Diagnostic) : String :=
  if d.HasPosition then
    d.path.text ++ ":" ++ toString d.position.line ++ ":" ++ toString d.position.column
  else d.path.text

/-- The diagnostic as one line. -/
def described (d : Diagnostic) : String :=
  d.location ++ ": " ++ d.severity.text ++ ": " ++ d.message

end Diagnostic

end ProtoSchema
