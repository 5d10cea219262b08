import ProtoSchema.Diagnostic

/-!
Filters that leave out diagnostics of one severity by kind, place or wording.
-/

namespace ProtoSchema

/-- What a filter looks at beside the severity. -/
inductive Diagnostic.Test where
  | all
  | kind (kind : Diagnostic.Kind)
  | under (path : String)
  | mentions (text : String)
deriving DecidableEq

structure Diagnostic.Filter where
  severity : Severity
  test : Diagnostic.Test
deriving DecidableEq

def Diagnostic.Test.hits (test : Diagnostic.Test) (d : Diagnostic) : Bool :=
  match test with
  | .all => true
  | .kind k => d.kind = k
  | .under path => (d.path.stripLeading? path).isSome
  | .mentions text => Text.occursIn text.toList d.message.toList

namespace Diagnostic.Filter

def hits (filter : Diagnostic.Filter) (d : Diagnostic) : Bool :=
  d.severity = filter.severity && filter.test.hits d

/-- The diagnostics that no filter hits. -/
def keep (filters : List Diagnostic.Filter) (ds : List Diagnostic) : List Diagnostic :=
  ds.filter fun d => !filters.any (·.hits d)

end Diagnostic.Filter

end ProtoSchema
