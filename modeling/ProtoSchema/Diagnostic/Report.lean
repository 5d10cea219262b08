import ProtoSchema.Diagnostic
import ProtoSchema.Text.Split

/-!
Writing out diagnostics, errors before warnings. The short style gives each one
line. The rich style gives a header, the location, and the line of source with
a caret below, where the source is at hand; a blank line stands between two.
Colour is laid around labels and rules only.
-/

namespace ProtoSchema

inductive ReportStyle where
  | rich
  | short
deriving DecidableEq

structure ReportOptions where
  colored : Bool
  style : ReportStyle
  kinds : Bool
deriving DecidableEq

namespace ReportOptions

def colorful : ReportOptions := ⟨true, .rich, true⟩

def plain : ReportOptions := ⟨false, .rich, true⟩

def brief : ReportOptions := ⟨false, .short, false⟩

end ReportOptions

namespace Report

/-- The sequences for red and yellow, as the library for terminal colours writes
them. -/
def colorCode : Severity → String
  | .error => "\x1b[31m"
  | .warning => "\x1b[33m"

/-- The sequence of that library for the colour of the surroundings. -/
def colorEnd : String := "\x1b[39m"

/-- The text in the colour of the severity, if colours are wanted. -/
def paint (options : ReportOptions) (severity : Severity) (text : String) : String :=
  if options.colored then colorCode severity ++ text ++ colorEnd else text

def label (options : ReportOptions) (d : Diagnostic) : String :=
  paint options d.severity
    (if options.kinds then d.severity.text ++ "[" ++ d.kind.text ++ "]" else d.severity.text)

def short (options : ReportOptions) (d : Diagnostic) : String :=
  d.location ++ ": " ++ label options d ++ ": " ++ d.message ++ "\n"

def spaces (n : Nat) : String := String.ofList (List.replicate n ' ')

/-- The line of source that the diagnostic points at. -/
def sourceLine? (sources : VirtualPath → Option String) (d : Diagnostic) : Option String :=
  if d.HasPosition then
    (sources d.path).bind fun text => (Text.lines text)[d.position.line - 1]?
  else none

/-- The source line with its number, and a caret below its column. -/
def snippet (options : ReportOptions) (d : Diagnostic) (margin line : String) : String :=
  let bar := paint options d.severity "│"
  margin ++ " " ++ bar ++ "\n" ++
    paint options d.severity (toString d.position.line) ++ " " ++ bar ++ " " ++ line ++ "\n" ++
    margin ++ " " ++ bar ++ " " ++ spaces (d.position.column - 1) ++
    paint options d.severity "^" ++ "\n"

def rich (options : ReportOptions) (sources : VirtualPath → Option String) (d : Diagnostic) :
    String :=
  let margin := spaces (toString d.position.line).length
  label options d ++ ": " ++ d.message ++ "\n" ++
    margin ++ " " ++ paint options d.severity "┌─" ++ " " ++ d.location ++ "\n" ++
    match sourceLine? sources d with
    | some line => snippet options d margin line
    | none => ""

/-- Errors in their order, then warnings in theirs. -/
def ordered (ds : List Diagnostic) : List Diagnostic :=
  ds.filter (fun d => decide d.IsError) ++ ds.filter (fun d => !decide d.IsError)

def format (options : ReportOptions) (sources : VirtualPath → Option String)
    (ds : List Diagnostic) : String :=
  match options.style with
  | .short => String.join ((ordered ds).map (short options))
  | .rich => "\n".intercalate ((ordered ds).map (rich options sources))

/-- The report without lines of source. -/
def formatBare (options : ReportOptions) (ds : List Diagnostic) : String :=
  format options (fun _ => none) ds

end Report

end ProtoSchema
