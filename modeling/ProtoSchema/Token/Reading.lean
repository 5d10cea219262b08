import ProtoSchema.Token
import ProtoSchema.Token.Literal

/-!
Cutting a text into tokens. Blank characters and comments only keep tokens
apart. Every step takes at least one character, and a token's place is found
by counting the characters taken before it.
-/

namespace ProtoSchema

/-- What stands at the start of a text and how many characters it takes. For a
fault the number tells how far behind the start it lies. -/
inductive Scanned where
  | gap (width : Nat)
  | lexeme (found : Lexeme) (width : Nat)
  | fault (found : SyntaxFault) (offset : Nat)
deriving DecidableEq

namespace Scanned

def isWordStart (c : Char) : Bool := c.isAlpha || c == '_'

def isWordChar (c : Char) : Bool := c.isAlphanum || c == '_'

def marks : List Char :=
  ['\x7b', '\x7d', '[', ']', '(', ')', '<', '>', ';', ',', '=', '.', ':', '-', '+', '/']

/-- The width of a block comment's text up to and with its end. -/
def commentWidth? : List Char → Option Nat
  | [] => none
  | [_] => none
  | c :: d :: rest =>
    if c = '*' ∧ d = '/' then some 2 else (commentWidth? (d :: rest)).map (1 + ·)

/-- Reads a number that starts the text. -/
def numeral (cs : List Char) : Scanned :=
  let run := Numeral.run cs
  let written := String.ofList run
  match Numeral.kind run with
  | .integer => .lexeme (.integer written) run.length
  | .decimal => .lexeme (.decimal written) run.length
  | .badInteger => .fault (.invalidInteger written) 0
  | .badDecimal => .fault (.invalidNumber written) 0

/-- Reads a string behind its opening quote. -/
def literal (quote : Char) (cs : List Char) : Scanned :=
  match Literal.body quote cs with
  | .ok (decoded, width) => .lexeme (.literal (String.ofList decoded)) (1 + width)
  | .error .notClosed => .fault .openString 0
  | .error (.noHexDigits offset) => .fault .hexDigitsMissing (1 + offset)
  | .error (.unknownEscape c offset) => .fault (.invalidEscape c) (1 + offset)

/-- What stands at the start of the text `c :: cs`. -/
def first (c : Char) (cs : List Char) : Scanned :=
  if Text.isBlank c then .gap 1
  else if c = '/' ∧ cs.head? = some '/' then .gap (1 + (cs.takeWhile (· ≠ '\n')).length)
  else if c = '/' ∧ cs.head? = some '*' then
    match commentWidth? cs.tail with
    | some width => .gap (2 + width)
    | none => .fault .openComment 0
  else if isWordStart c then
    let word := c :: cs.takeWhile isWordChar
    .lexeme (.word (String.ofList word)) word.length
  else if c.isDigit ∨ c = '.' ∧ cs.head?.any Char.isDigit then numeral (c :: cs)
  else if c = '"' ∨ c = '\x27' then literal c cs
  else if c ∈ marks then .lexeme (.mark c) 1
  else .fault (.invalidCharacter c) 0

/-- The characters taken by what was found. -/
def width : Scanned → Nat
  | .gap width | .lexeme _ width => width
  | .fault _ _ => 1

theorem width_numeral_pos {c : Char} {cs : List Char} (hc : c.isDigit ∨ c = '.') :
    0 < (numeral (c :: cs)).width := by
  have hrun : 0 < (Numeral.run (c :: cs)).length := by
    have htaken : (c.isAlphanum || c == '_' || c == '.' ||
        (false && (c == '+' || c == '-'))) = true := by
      rcases hc with hc | rfl
      · simp [Char.isAlphanum, hc]
      · rfl
    rw [Numeral.run, Numeral.takeRun, if_pos htaken]
    simp
  simp only [numeral]
  split
  · exact hrun
  · exact hrun
  · exact Nat.one_pos
  · exact Nat.one_pos

theorem width_literal_pos (quote : Char) (cs : List Char) : 0 < (literal quote cs).width := by
  simp only [literal]
  split
  · simp only [width]; omega
  all_goals exact Nat.one_pos

/-- Something is taken at every step. -/
theorem width_first_pos (c : Char) (cs : List Char) : 0 < (first c cs).width := by
  simp only [first]
  split
  · exact Nat.one_pos
  split
  · simp only [width]; omega
  split
  · split
    · simp only [width]; omega
    · exact Nat.one_pos
  split
  · simp only [width, List.length_cons]; omega
  split
  · next hnum => exact width_numeral_pos (hnum.imp_right And.left)
  split
  · exact width_literal_pos c cs
  split
  · exact Nat.one_pos
  · exact Nat.one_pos

end Scanned

namespace Token

/-- Adds a token in front of those already read. -/
def prepend (token : Token) (read : List Token × Position) : List Token × Position :=
  (token :: read.1, read.2)

/-- The tokens of a text that starts at `place`, and the place of its end. -/
def readFrom (place : Position) (cs : List Char) : Except SyntaxError (List Token × Position) :=
  match cs with
  | [] => .ok ([], place)
  | c :: rest =>
    match _scan : Scanned.first c rest with
    | .gap width =>
      readFrom (place.after ((c :: rest).take width)) ((c :: rest).drop width)
    | .lexeme found width =>
      (readFrom (place.after ((c :: rest).take width)) ((c :: rest).drop width)).map
        (prepend ⟨found, place⟩)
    | .fault found offset => .error ⟨place.after ((c :: rest).take offset), found⟩
termination_by cs.length
decreasing_by
  all_goals
    have := Scanned.width_first_pos c rest
    rw [_scan] at this
    simp only [Scanned.width] at this
    simp only [List.length_drop, List.length_cons]
    omega

/-- The tokens of a text and the place of its end. -/
def read (text : String) : Except SyntaxError (List Token × Position) :=
  readFrom .start text.toList

end Token

end ProtoSchema
