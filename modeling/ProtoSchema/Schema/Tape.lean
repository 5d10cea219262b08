import ProtoSchema.Token
import ProtoSchema.Token.Numeral

/-!
Reading phrases off a tape of tokens. A phrase either gives a value or one
error; in both cases the tokens it took stay taken. Errors that were already
put down are kept on the tape, latest first.
-/

namespace ProtoSchema

/-- The tokens still ahead, the place where the text ends, and the errors put
down so far, latest first. -/
structure Tape where
  ahead : List Token
  stop : Position
  faults : List SyntaxError
deriving DecidableEq

namespace Tape

def lexeme? (t : Tape) (n : Nat) : Option Lexeme := t.ahead[n]?.map (·.lexeme)

/-- The place of the next token. -/
def place (t : Tape) : Position :=
  match t.ahead with
  | [] => t.stop
  | token :: _ => token.position

def drop (t : Tape) (n : Nat) : Tape := { t with ahead := t.ahead.drop n }

def putDown (t : Tape) (e : SyntaxError) : Tape := { t with faults := e :: t.faults }

end Tape

/-- A reader of one phrase. -/
abbrev Phrase (α : Type) := ExceptT SyntaxError (StateM Tape) α

namespace Phrase

variable {α : Type}

/-- The result of a phrase on a tape, and the tape behind it. -/
def on (phrase : Phrase α) (t : Tape) : Except SyntaxError α × Tape := phrase.run t

/-- A phrase given by its result on each tape. -/
def ofFunction (f : Tape → Except SyntaxError α × Tape) : Phrase α := ExceptT.mk f

def tape : Phrase Tape := get

def place : Phrase Position := do return (← tape).place

/-- The lexeme `n` tokens ahead. -/
def look (n : Nat) : Phrase (Option Lexeme) := do return (← tape).lexeme? n

def skip (n : Nat) : Phrase Unit := modify (·.drop n)

def failAt (position : Position) (fault : SyntaxFault) : Phrase α := throw ⟨position, fault⟩

/-- Fails at the next token, which is not what is wanted. -/
def expected (wanted : Wanted) : Phrase α := do
  failAt (← place) (.expected wanted (← look 0))

/-- Takes the next token if it is `lexeme`, and tells whether it was. -/
def take? (lexeme : Lexeme) : Phrase Bool := do
  if (← look 0) = some lexeme then
    skip 1
    return true
  else
    return false

def mark (c : Char) : Phrase Unit := do
  unless ← take? (.mark c) do expected (.mark c)

def keyword (name : String) : Phrase Unit := do
  unless ← take? (.word name) do expected (.keyword name)

def identifier : Phrase String := do
  match ← look 0 with
  | some (.word name) =>
    skip 1
    return name
  | _ => expected .identifier

/-- At most `rounds` more items, each behind the separator. -/
def moreSeparated (sep : Char) (item : Phrase α) : Nat → Phrase (List α)
  | 0 => return []
  | rounds + 1 => do
    if ← take? (.mark sep) then
      let first ← item
      let rest ← moreSeparated sep item rounds
      return first :: rest
    else
      return []

/-- One or more items with a separator between them. Every further item takes
its separator, so the tokens ahead bound their number. -/
def separated (sep : Char) (item : Phrase α) : Phrase (List α) := do
  let first ← item
  let rest ← moreSeparated sep item (← tape).ahead.length
  return first :: rest

/-- The values of the string tokens that come first. -/
def leadingLiterals : List Token → List String
  | ⟨.literal value, _⟩ :: rest => value :: leadingLiterals rest
  | _ => []

/-- One or more string tokens side by side, joined. -/
def literal : Phrase String := do
  match leadingLiterals (← tape).ahead with
  | [] => expected .literal
  | values =>
    skip values.length
    return String.join values

/-- The greatest number a field or an enum value can have. -/
def numberLimit : Nat := 9223372036854775807

/-- An integer with an optional minus sign. -/
def integer : Phrase Int := do
  let negative ← take? (.mark '-')
  match ← look 0 with
  | some (.integer written) =>
    match (Numeral.value? written.toList).filter (· ≤ numberLimit) with
    | some n =>
      skip 1
      return if negative then -(n : Int) else n
    | none => failAt (← place) (.integerRange written)
  | _ => expected .integer

end Phrase

end ProtoSchema
