import ProtoSchema.CommandLine.Notice
import ProtoSchema.CommandLine.Terminal
import ProtoSchema.Diagnostic.Report
import ProtoSchema.Text.Split

/-!
The arguments of the command. A parameter takes its value behind an equals sign
or from the next argument; such a value is looked at only when the argument
after it has been recognized. Behind `--` everything is a root.
-/

namespace ProtoSchema.CommandLine

/-- A flag with a value. -/
inductive Parameter where
  | map
  | message
  | format
deriving DecidableEq

def Parameter.shown : Parameter → String
  | .map => "--map <PREFIX=ROOT>"
  | .message => "--message <NAME>"
  | .format => "--format <FORMAT>"

/-- A flag without a value, used at most once. -/
inductive Switch where
  | all
  | json
  | noColor
  | warnUnused
deriving DecidableEq

def Switch.shown : Switch → String
  | .all => "--all"
  | .json => "--json"
  | .noColor => "--no-color"
  | .warnUnused => "--warn-unused-imports"

inductive Flag where
  | parameter (p : Parameter)
  | switch (s : Switch)
  | notice (n : Notice)
deriving DecidableEq

namespace Flag

def named : List (String × Flag) :=
  [("map", parameter .map), ("message", parameter .message), ("format", parameter .format),
   ("all", switch .all), ("json", switch .json), ("no-color", switch .noColor),
   ("warn-unused-imports", switch .warnUnused), ("help", notice .help),
   ("version", notice .version)]

def ofName? (name : String) : Option Flag := (named.find? (·.1 = name)).map (·.2)

def ofLetter? (letter : Char) : Option Flag :=
  if letter = 'I' then some (parameter .map)
  else if letter = 'h' then some (notice .help)
  else if letter = 'V' then some (notice .version)
  else none

/-- The flag as a message shows it. -/
def shown : Flag → String
  | parameter p => p.shown
  | switch s => s.shown
  | notice n => n.shown

end Flag

/-- Why the arguments cannot be used. -/
inductive UsageError where
  | unexpected (argument : String)
  | unexpectedValue (flag : Flag) (value : String)
  | missingValue (parameter : Parameter)
  | repeated (flag : Flag)
  | noRootDirectory (mapping : String)
  | unknownFormat (value : String)
deriving DecidableEq

namespace UsageError

open Terminal (bold yellow boldRed)

/-- The message, styled for a terminal. -/
def styled : UsageError → String
  | .unexpected argument => "unexpected argument '" ++ yellow argument ++ "' found"
  | .unexpectedValue flag value =>
    "unexpected value '" ++ yellow value ++ "' for '" ++ bold flag.shown ++
      "' found; no more were expected"
  | .missingValue parameter =>
    "a value is required for '" ++ yellow parameter.shown ++ "' but none was supplied"
  | .repeated flag =>
    "the argument '" ++ yellow flag.shown ++ "' cannot be used multiple times"
  | .noRootDirectory mapping =>
    "invalid value '" ++ yellow mapping ++ "' for '" ++ bold Parameter.map.shown ++
      "': mapping \"" ++ mapping ++ "\" has no root directory"
  | .unknownFormat value =>
    "invalid value '" ++ yellow value ++ "' for '" ++ bold Parameter.format.shown ++ "'"

/-- What is printed. Away from a terminal all control sequences are dropped,
also those that came with an argument. -/
def text (why : UsageError) (terminal : Bool) : String :=
  let whole := boldRed "error:" ++ " " ++ why.styled ++
    "\n\nFor more information, try '" ++ bold Notice.help.shown ++ "'.\n"
  if terminal then whole else Terminal.plain whole

end UsageError

/-- What a run is asked to do. A mapping is a mount and a root directory. -/
structure Arguments where
  mappings : List (String × String)
  roots : List String
  message : Option String
  format : Option ReportStyle
  all : Bool
  json : Bool
  noColor : Bool
  warnUnused : Bool
deriving DecidableEq

/-- What the arguments ask for: a run, or a notice in place of one. -/
inductive Request where
  | run (arguments : Arguments)
  | notice (n : Notice)
deriving DecidableEq

namespace Arguments

def empty : Arguments := ⟨[], [], none, none, false, false, false, false⟩

/-- Turns a switch on. -/
def flip (arguments : Arguments) (s : Switch) : Except UsageError Arguments :=
  let once (used : Bool) (next : Arguments) : Except UsageError Arguments :=
    if used then .error (.repeated (.switch s)) else .ok next
  match s with
  | .all => once arguments.all { arguments with all := true }
  | .json => once arguments.json { arguments with json := true }
  | .noColor => once arguments.noColor { arguments with noColor := true }
  | .warnUnused => once arguments.warnUnused { arguments with warnUnused := true }

/-- A mount and its root directory; without an equals sign, the root alone. -/
def readMapping (value : String) : Except UsageError (String × String) :=
  let (mount, root) := (Text.splitOnce '=' value).getD ("", value)
  if root = "" then .error (.noRootDirectory value) else .ok (mount, root)

def readFormat (value : String) : Except UsageError ReportStyle :=
  if value = "short" then .ok .short
  else if value = "rich" then .ok .rich
  else if value = "" then .error (.missingValue .format)
  else .error (.unknownFormat value)

/-- Gives a parameter its value. -/
def assign (arguments : Arguments) (p : Parameter) (value : String) :
    Except UsageError Arguments := do
  match p with
  | .map => return { arguments with mappings := arguments.mappings ++ [← readMapping value] }
  | .message =>
    if arguments.message.isSome then .error (.repeated (.parameter p))
    else return { arguments with message := some value }
  | .format =>
    if arguments.format.isSome then .error (.repeated (.parameter p))
    else return { arguments with format := some (← readFormat value) }

end Arguments

/-- The arguments read so far. A parameter may still wait for its value, or its
value for being looked at. -/
structure Reading where
  done : Arguments
  waiting : Option (Parameter × Option String)

/-- What one argument leads to: more reading, or a notice at once. -/
inductive Progress where
  | more (r : Reading)
  | notice (n : Notice)

namespace Reading

/-- Looks at the parameter that waits. -/
def settle (r : Reading) : Except UsageError Arguments :=
  match r.waiting with
  | none => .ok r.done
  | some (p, none) => .error (.missingValue p)
  | some (p, some value) => r.done.assign p value

def root (r : Reading) (argument : String) : Except UsageError Reading :=
  r.settle.map fun done => ⟨{ done with roots := done.roots ++ [argument] }, none⟩

/-- A flag with the value behind its equals sign, if there is one. -/
def flag (r : Reading) (flag : Flag) (value : Option String) : Except UsageError Progress :=
  match flag, value with
  | .switch _, some value | .notice _, some value => .error (.unexpectedValue flag value)
  | .switch s, none => do
    let done ← r.settle
    return .more ⟨← done.flip s, none⟩
  | .notice n, none => r.settle.map fun _ => .notice n
  | .parameter p, some value => do
    let done ← r.settle
    return .more ⟨← done.assign p value, none⟩
  | .parameter p, none => r.settle.map fun done => .more ⟨done, some (p, none)⟩

/-- An argument behind two dashes. -/
def long (r : Reading) (argument : String) : Except UsageError Progress :=
  let (name, value) :=
    match Text.splitOnce '=' argument with
    | some (name, value) => (name, some value)
    | none => (argument, none)
  match Flag.ofName? name with
  | some found => r.flag found value
  | none => .error (.unexpected ("--" ++ name))

/-- What stands right behind the letter of a parameter is its value. -/
def attached? : List Char → Option String
  | [] => none
  | '=' :: value | value => some (String.ofList value)

/-- An argument behind one dash: a letter, and what follows it. Behind the
letter of a notice nothing is looked at. -/
def short (r : Reading) (letter : Char) (rest : List Char) : Except UsageError Progress :=
  match Flag.ofLetter? letter with
  | some (.parameter p) => r.flag (.parameter p) (attached? rest)
  | some found => r.flag found none
  | none => .error (.unexpected ("-" ++ letter.toString))

/-- An argument that is no flag: the value waited for, or else a root. -/
def plain (r : Reading) (argument : String) : Except UsageError Reading :=
  match r.waiting with
  | some (p, none) => .ok { r with waiting := some (p, some argument) }
  | _ => r.root argument

def argument (r : Reading) (given : String) : Except UsageError Progress :=
  match given.toList with
  | '-' :: '-' :: name => r.long (String.ofList name)
  | '-' :: letter :: more => r.short letter more
  | _ => (r.plain given).map .more

/-- Reads the arguments in turn. -/
def readAll : List String → Reading → Except UsageError Request
  | [], r => r.settle.map .run
  | given :: rest, r =>
    if given = "--" then do return .run (← (← rest.foldlM root r).settle)
    else do
      match ← r.argument given with
      | .more r => readAll rest r
      | .notice n => return .notice n

end Reading

def Request.read (arguments : List String) : Except UsageError Request :=
  Reading.readAll arguments ⟨.empty, none⟩

end ProtoSchema.CommandLine
