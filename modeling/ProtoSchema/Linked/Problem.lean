import ProtoSchema.Diagnostic
import ProtoSchema.Linked

/-!
What can be wrong with the references of a file. Only an import that is not
needed is a mere warning.
-/

namespace ProtoSchema.Linked

inductive BindFault where
  | defined (name : DottedName)
  | definedElsewhere (name : DottedName) (file : VirtualPath)
  | notDefined (name : TypeName)
  | notType (name : TypeName) (kind : SymbolKind)
  | notMessage (name : TypeName)
  | badMapKey (name : TypeName)
  | unusedImport (path : VirtualPath)
  | rejected
  | other (severity : Severity) (kind : Diagnostic.Kind) (message : String)
deriving DecidableEq

namespace BindFault

def message : BindFault → String
  | .defined name => "\"" ++ name.text ++ "\" is already defined"
  | .definedElsewhere name file =>
    "\"" ++ name.text ++ "\" is already defined in file \"" ++ file.text ++ "\""
  | .notDefined name => "\"" ++ name.text ++ "\" is not defined"
  | .notType name kind => "\"" ++ name.text ++ "\" is a " ++ kind.noun ++ ", not a type"
  | .notMessage name => "\"" ++ name.text ++ "\" is not a message type"
  | .badMapKey name => "\"" ++ name.text ++ "\" is not a valid map key type"
  | .unusedImport path => "import \"" ++ path.text ++ "\" is unused"
  | .rejected => "the linker rejected the file"
  | .other _ _ message => message

def severity : BindFault → Severity
  | .unusedImport _ => .warning
  | .other severity _ _ => severity
  | _ => .error

def kind : BindFault → Diagnostic.Kind
  | .notDefined _ => .unresolvedReference
  | .other _ kind _ => kind
  | _ => .bindFailure

end BindFault

/-- A fault with its place in the file being linked. -/
structure Problem where
  position : Position
  fault : BindFault
deriving DecidableEq

def Problem.IsError (problem : Problem) : Prop := problem.fault.severity = .error

instance : DecidablePred Problem.IsError :=
  fun problem => inferInstanceAs (Decidable (problem.fault.severity = .error))

/-- The problem as a diagnostic of the file at `path`. -/
def Problem.diagnostic (path : VirtualPath) (problem : Problem) : Diagnostic :=
  ⟨path, problem.position, problem.fault.severity, problem.fault.kind, problem.fault.message⟩

end ProtoSchema.Linked
