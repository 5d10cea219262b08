import ProtoSchema.Diagnostic.Report

/-!
Where diagnostics go as they are found: into a buffer to be drained later, into
a stream as text, or nowhere.
-/

namespace ProtoSchema

inductive Outlet where
  | buffer (items : List Diagnostic)
  | stream (options : ReportOptions) (written : String)
  | silent

namespace Outlet

/-- Takes one diagnostic. -/
def take (outlet : Outlet) (d : Diagnostic) : Outlet :=
  match outlet with
  | .buffer items => .buffer (items ++ [d])
  | .stream options written => .stream options (written ++ Report.formatBare options [d])
  | .silent => .silent

def takeAll (outlet : Outlet) (ds : List Diagnostic) : Outlet := ds.foldl take outlet

/-- The buffered diagnostics, oldest first. -/
def items : Outlet → List Diagnostic
  | .buffer items => items
  | _ => []

/-- The outlet with its buffer emptied. -/
def drained : Outlet → Outlet
  | .buffer _ => .buffer []
  | outlet => outlet

/-- The text written so far. -/
def written : Outlet → String
  | .stream _ written => written
  | _ => ""

def clearWritten : Outlet → Outlet
  | .stream options _ => .stream options ""
  | outlet => outlet

theorem takeAll_buffer (items ds : List Diagnostic) :
    takeAll (.buffer items) ds = .buffer (items ++ ds) := by
  induction ds generalizing items with
  | nil => simp [takeAll]
  | cons d ds ih => simpa [takeAll, take] using ih (items ++ [d])

end Outlet

end ProtoSchema
