import ProtoSchema.Token.Numeral

/-!
String literals. Between its quotes a literal holds plain characters and
escapes: a letter or a sign for one character, up to three octal digits, or
one or two hexadecimal digits behind an `x`. An escape takes as many digits as
it can.
-/

namespace ProtoSchema.Literal

/-- The character that a one-letter escape stands for. -/
def letterEscape? : Char → Option Char
  | 'n' => some '\n'
  | 't' => some '\t'
  | 'r' => some '\r'
  | 'a' => some '\x07'
  | 'b' => some '\x08'
  | 'f' => some '\x0c'
  | 'v' => some '\x0b'
  | '\\' => some '\\'
  | '\x27' => some '\x27'
  | '"' => some '"'
  | '?' => some '?'
  | _ => none

/-- Why a literal cannot be read, with the number of characters before the
place of the fault where that is not the start of the literal. -/
inductive Fault where
  | notClosed
  | noHexDigits (offset : Nat)
  | unknownEscape (c : Char) (offset : Nat)
deriving DecidableEq

/-- The fault seen from `n` characters earlier. -/
def Fault.later (n : Nat) : Fault → Fault
  | .notClosed => .notClosed
  | .noHexDigits offset => .noHexDigits (n + offset)
  | .unknownEscape c offset => .unknownEscape c (n + offset)

/-- The digits at the start of the text, two at most. -/
def leadingDigits (base : Nat) (cs : List Char) : List Char :=
  (cs.take 2).takeWhile fun c => decide (Numeral.IsDigit base c)

/-- Reads an escape behind its backslash: the character meant and how many
characters the escape takes. -/
def escape : List Char → Except Fault (Char × Nat)
  | [] => .error .notClosed
  | c :: cs =>
    match letterEscape? c with
    | some meant => .ok (meant, 1)
    | none =>
      if Numeral.IsDigit 8 c then
        let digits := c :: leadingDigits 8 cs
        .ok (Char.ofNat (Numeral.digitsValue 8 digits), digits.length)
      else if c = 'x' ∨ c = 'X' then
        let digits := leadingDigits 16 cs
        if digits = [] then .error (.noHexDigits 0)
        else .ok (Char.ofNat (Numeral.digitsValue 16 digits), 1 + digits.length)
      else .error (.unknownEscape c 0)

/-- Puts a character that took `n` characters of text in front. -/
def prepend (c : Char) (n : Nat) : Except Fault (List Char × Nat) → Except Fault (List Char × Nat)
  | .error fault => .error (fault.later n)
  | .ok (decoded, width) => .ok (c :: decoded, n + width)

/-- Reads up to the closing quote: the decoded characters, and how many
characters they and the quote take. -/
def body (quote : Char) (cs : List Char) : Except Fault (List Char × Nat) :=
  match cs with
  | [] => .error .notClosed
  | c :: rest =>
    if c = '\n' then .error .notClosed
    else if c = quote then .ok ([], 1)
    else if c = '\\' then
      match escape rest with
      | .error fault => .error (fault.later 1)
      | .ok (meant, width) => prepend meant (1 + width) (body quote (rest.drop width))
    else prepend c 1 (body quote rest)
termination_by cs.length
decreasing_by
  · simp only [List.length_drop, List.length_cons]
    omega
  · simp

end ProtoSchema.Literal
