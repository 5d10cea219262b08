/-!
Text styled for a terminal, and what is left of a text that goes elsewhere. An
escape character opens a control sequence, and the whole sequence is dropped
with it. Of the other control characters those stay that move on by a tab, a
line or a page.
-/

namespace ProtoSchema.CommandLine.Terminal

def reset : String := "\x1b[0m"

def bold (text : String) : String := "\x1b[1m" ++ text ++ reset

def yellow (text : String) : String := "\x1b[33m" ++ text ++ reset

def boldRed (text : String) : String := "\x1b[1m\x1b[31m" ++ text ++ reset

/-- The control characters that lay out text. -/
def isLayout (c : Char) : Bool := c = '\t' || c = '\n' || c = '\x0c' || c = '\r'

/-- The characters that stay when they stand in no sequence. -/
def isKept (c : Char) : Bool := isLayout c || (' ' ≤ c && c ≠ '\x7f')

/-- Where a reader stands: in plain text, or inside a control sequence. -/
inductive Place where
  | text
  | escape
  | escapeMiddle
  | control
  | command
  | device
  | deviceParameter
  | deviceMiddle
  | string
deriving DecidableEq

namespace Place

def isMiddle (c : Char) : Bool := ' ' ≤ c && c ≤ '/'

def isFinal (c : Char) : Bool := '@' ≤ c && c ≤ '~'

/-- The byte that ends a string may be any byte of a character. -/
def endsString (c : Char) : Bool := (String.utf8EncodeChar c).contains 0x9c

/-- The place behind the character that comes after an escape character. -/
def afterEscape (c : Char) : Place :=
  if isMiddle c then .escapeMiddle
  else if c = '[' then .control
  else if c = ']' then .command
  else if c = 'P' then .device
  else if c = 'X' ∨ c = '^' ∨ c = '_' then .string
  else if '0' ≤ c ∧ c ≤ '~' then .text
  else .escape

/-- The place behind one more character. An escape character begins a sequence
anew, and the characters 18 and 1A break it off. -/
def next (place : Place) (c : Char) : Place :=
  if c = '\x1b' then .escape
  else if c = '\x18' ∨ c = '\x1a' then .text
  else
    match place with
    | .text => .text
    | .escape => afterEscape c
    | .escapeMiddle => if '0' ≤ c ∧ c ≤ '~' then .text else .escapeMiddle
    | .control => if isFinal c then .text else .control
    | .command => if c = '\x07' then .text else .command
    | .device =>
      if isMiddle c then .deviceMiddle
      else if c = ':' ∨ isFinal c then .string
      else if '0' ≤ c ∧ c ≤ '?' then .deviceParameter
      else .device
    | .deviceParameter =>
      if isMiddle c then .deviceMiddle
      else if ('0' ≤ c ∧ c ≤ '9') ∨ c = ';' then .deviceParameter
      else if ':' ≤ c ∧ c ≤ '~' then .string
      else .deviceParameter
    | .deviceMiddle => if '0' ≤ c ∧ c ≤ '~' then .string else .deviceMiddle
    | .string => if endsString c then .text else .string

/-- Whether the character stays. Layout characters stay inside a sequence too,
except in those that carry a string. -/
def keeps (place : Place) (c : Char) : Bool :=
  match place with
  | .text => isKept c
  | .escape | .escapeMiddle | .control => isLayout c
  | .command | .device | .deviceParameter | .deviceMiddle | .string => false

end Place

/-- A reader of text. Once it has kept a character, it keeps what follows as if
it stood in plain text; its place counts again at the first character that is
not to be kept. A character beyond ASCII ends the sequence for good. -/
structure Reader where
  place : Place
  keeping : Bool
deriving DecidableEq

namespace Reader

def start : Reader := ⟨.text, false⟩

def next (r : Reader) (c : Char) : Reader :=
  if r.keeping && isKept c then ⟨if c ≤ '\x7f' then r.place else .text, true⟩
  else ⟨r.place.next c, r.place.keeps c⟩

end Reader

/-- The characters that the reader keeps: those after which it is keeping. -/
def kept : Reader → List Char → List Char
  | _, [] => []
  | r, c :: cs => if (r.next c).keeping then c :: kept (r.next c) cs else kept (r.next c) cs

/-- The text without its control sequences. -/
def plain (text : String) : String := String.ofList (kept .start text.toList)

end ProtoSchema.CommandLine.Terminal
