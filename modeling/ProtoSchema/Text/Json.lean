/-!
JSON documents and their layout over several lines. Every item and field has a
line of its own, two spaces further in than what holds it; an empty list or
object stays on one line.
-/

namespace ProtoSchema.Text

inductive Json where
  | null
  | bool (value : Bool)
  | number (value : Nat)
  | string (value : String)
  | list (items : List Json)
  | object (fields : List (String × Json))

namespace Json

/-- The number as four hexadecimal digits. -/
def fourHexDigits (n : Nat) : List Char :=
  let digits := Nat.toDigits 16 n
  List.replicate (4 - digits.length) '0' ++ digits

/-- A character inside a JSON string. -/
def escapeChar (c : Char) : List Char :=
  if c = '"' ∨ c = '\\' then ['\\', c]
  else if c = '\n' then ['\\', 'n']
  else if c = '\r' then ['\\', 'r']
  else if c = '\t' then ['\\', 't']
  else if c = '\x08' then ['\\', 'b']
  else if c = '\x0c' then ['\\', 'f']
  else if c.toNat < 0x20 then '\\' :: 'u' :: fourHexDigits c.toNat
  else [c]

def quoted (s : String) : String :=
  String.ofList ('"' :: s.toList.flatMap escapeChar ++ ['"'])

def margin (depth : Nat) : String := String.ofList (List.replicate (2 * depth) ' ')

mutual

/-- The document laid out at the given depth; its first line has no margin. -/
def layout (depth : Nat) : Json → String
  | .null => "null"
  | .bool value => if value then "true" else "false"
  | .number value => toString value
  | .string value => quoted value
  | .list [] => "[]"
  | .list (item :: items) =>
    "[\n" ++ layoutItems (depth + 1) (item :: items) ++ "\n" ++ margin depth ++ "]"
  | .object [] => "\x7b\x7d"
  | .object (field :: fields) =>
    "\x7b\n" ++ layoutFields (depth + 1) (field :: fields) ++ "\n" ++ margin depth ++ "\x7d"

def layoutItems (depth : Nat) : List Json → String
  | [] => ""
  | item :: items =>
    margin depth ++ layout depth item ++
      (if items.isEmpty then "" else ",\n") ++ layoutItems depth items

def layoutFields (depth : Nat) : List (String × Json) → String
  | [] => ""
  | (name, value) :: fields =>
    margin depth ++ quoted name ++ ": " ++ layout depth value ++
      (if fields.isEmpty then "" else ",\n") ++ layoutFields depth fields

end

def text (document : Json) : String := layout 0 document

end Json

end ProtoSchema.Text
