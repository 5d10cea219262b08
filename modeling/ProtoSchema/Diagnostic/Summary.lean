import ProtoSchema.Diagnostic

/-!
How many errors and warnings a list of diagnostics holds.
-/

namespace ProtoSchema

structure Diagnostic.Count where
  errors : Nat
  warnings : Nat
deriving DecidableEq

namespace Diagnostic.Count

def ofList (ds : List Diagnostic) : Diagnostic.Count where
  errors := (ds.filter fun d => d.severity = .error).length
  warnings := (ds.filter fun d => d.severity = .warning).length

def total (count : Diagnostic.Count) : Nat := count.errors + count.warnings

/-- A number and its noun, in the plural unless the number is one. -/
def numbered (n : Nat) (noun : String) : String :=
  toString n ++ " " ++ noun ++ if n = 1 then "" else "s"

def text (count : Diagnostic.Count) : String :=
  match count.errors, count.warnings with
  | 0, 0 => "no diagnostics"
  | e, 0 => numbered e "error"
  | 0, w => numbered w "warning"
  | e, w => numbered e "error" ++ ", " ++ numbered w "warning"

end Diagnostic.Count

end ProtoSchema
