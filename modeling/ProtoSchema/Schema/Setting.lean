import ProtoSchema.Schema
import ProtoSchema.Schema.Tape

/-!
Names and option settings. The value of an option is kept as written; an
aggregate in braces is kept as its lexemes with single spaces between them.
-/

namespace ProtoSchema.Phrase

open Schema

def dottedName : Phrase DottedName := separated '.' identifier

def typeName : Phrase TypeName := do
  let absolute ← take? (.mark '.')
  return ⟨absolute, ← dottedName⟩

def optionPart : Phrase OptionPart := do
  if ← take? (.mark '(') then
    let name ← typeName
    mark ')'
    return .extension name
  else
    return .field (← identifier)

/-- A lexeme inside an aggregate. -/
def aggregateText : Lexeme → String
  | .literal value => Text.quoted value
  | .word s | .integer s | .decimal s => s
  | .mark c => c.toString

/-- The lexemes of an aggregate up to its end, inside `depth` further braces,
and the tokens behind it. -/
def aggregateRest : Nat → List Token → Option (List String × List Token)
  | _, [] => none
  | depth, token :: rest =>
    let more (depth : Nat) :=
      (aggregateRest depth rest).map fun (parts, behind) =>
        (aggregateText token.lexeme :: parts, behind)
    if token.lexeme = .mark '\x7b' then more (depth + 1)
    else if token.lexeme = .mark '\x7d' then
      match depth with
      | 0 => some (["\x7d"], rest)
      | depth + 1 => more depth
    else more depth

/-- An aggregate, which starts at a brace. One that never ends takes all the
tokens, and its error stands at the brace. -/
def aggregate : Phrase String := do
  let opening ← place
  mark '\x7b'
  match aggregateRest 0 (← tape).ahead with
  | some (parts, behind) =>
    modify fun t => { t with ahead := behind }
    return " ".intercalate ("\x7b" :: parts)
  | none =>
    modify fun t => { t with ahead := [] }
    failAt opening .openAggregate

/-- The text of a token that can stand as a bare value. -/
def bareValue? : Option Lexeme → Option String
  | some (.integer s) | some (.decimal s) | some (.word s) => some s
  | _ => none

def signed (sign : Char) : Phrase String := do
  skip 1
  match bareValue? (← look 0) with
  | some s =>
    skip 1
    return sign.toString ++ s
  | none => expected .number

def constant : Phrase String := do
  match ← look 0 with
  | some (.literal _) => literal
  | some (.mark '\x7b') => aggregate
  | some (.mark '-') => signed '-'
  | some (.mark '+') => signed '+'
  | found =>
    match bareValue? found with
    | some s =>
      skip 1
      return s
    | none => expected .constant

/-- A name, an equals sign and a value. -/
def setting : Phrase OptionSetting := do
  let position ← place
  let name ← separated '.' optionPart
  mark '='
  return ⟨name, ← constant, position⟩

/-- The settings in brackets behind a field or an enum value, if any. -/
def settings : Phrase (List OptionSetting) := do
  if ← take? (.mark '[') then
    let found ← separated ',' setting
    mark ']'
    return found
  else
    return []

def optionStatement : Phrase OptionSetting := do
  keyword "option"
  let found ← setting
  mark ';'
  return found

/-- The tokens from the end of a statement whose content does not count: from
behind its semicolon, or from a brace or the end that comes first. -/
def skippedRest : List Token → Bool × List Token
  | [] => (false, [])
  | token :: rest =>
    if token.lexeme = .mark ';' then (true, rest)
    else if token.lexeme = .mark '\x7b' ∨ token.lexeme = .mark '\x7d' then (false, token :: rest)
    else skippedRest rest

/-- A statement whose content does not count. -/
def skippedStatement : Phrase Unit := do
  let position ← place
  let start ← look 0
  skip 1
  let (ended, behind) := skippedRest (← tape).ahead
  modify fun t => { t with ahead := behind }
  unless ended do failAt position (.openStatement start)

end ProtoSchema.Phrase
