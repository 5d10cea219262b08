/-!
Numerals. A run of letters, digits, dots and underscores that starts like a
number must be an integer in base ten, eight or sixteen below 2^64, or a
decimal fraction with an optional exponent.
-/

namespace ProtoSchema.Numeral

/-- The value of a digit in bases up to sixteen. -/
def digitValue? (c : Char) : Option Nat :=
  if '0' ≤ c ∧ c ≤ '9' then some (c.toNat - '0'.toNat)
  else if 'a' ≤ c ∧ c ≤ 'f' then some (c.toNat - 'a'.toNat + 10)
  else if 'A' ≤ c ∧ c ≤ 'F' then some (c.toNat - 'A'.toNat + 10)
  else none

def IsDigit (base : Nat) (c : Char) : Prop := ∃ d, digitValue? c = some d ∧ d < base

instance (base : Nat) (c : Char) : Decidable (IsDigit base c) :=
  match h : digitValue? c with
  | none => isFalse fun ⟨_, hd, _⟩ => by simp [h] at hd
  | some d =>
    if hlt : d < base then isTrue ⟨d, h, hlt⟩
    else isFalse fun ⟨_, he, hlt'⟩ => hlt (by rw [h] at he; cases he; exact hlt')

/-- The number that the digits spell, most significant first. -/
def digitsValue (base : Nat) (cs : List Char) : Nat :=
  cs.foldl (fun n c => n * base + (digitValue? c).getD 0) 0

/-- The value of a nonempty run of digits. -/
def spelled? (base : Nat) (cs : List Char) : Option Nat :=
  if !cs.isEmpty && cs.all fun c => decide (IsDigit base c) then some (digitsValue base cs)
  else none

/-- The value of an integer in any of its bases, however large. -/
def unbounded? : List Char → Option Nat
  | '0' :: 'x' :: digits | '0' :: 'X' :: digits => spelled? 16 digits
  | '0' :: d :: digits => spelled? 8 (d :: digits)
  | digits => spelled? 10 digits

/-- The value of an integer that fits in 64 bits. -/
def value? (cs : List Char) : Option Nat :=
  (unbounded? cs).filter (· < UInt64.size)

def isHex (cs : List Char) : Bool :=
  ['0', 'x'].isPrefixOf cs || ['0', 'X'].isPrefixOf cs

def isExponentMark (c : Char) : Bool := c == 'e' || c == 'E'

/-- An exponent: a mark, an optional sign and at least one digit. -/
def isExponent : List Char → Bool
  | [] => false
  | mark :: rest =>
    let digits :=
      match rest with
      | '+' :: digits | '-' :: digits => digits
      | digits => digits
    isExponentMark mark && !digits.isEmpty && digits.all Char.isDigit

/-- A decimal fraction: digits with at most one dot among them or at an end, at
least one digit, and then perhaps an exponent. -/
def isDecimal (cs : List Char) : Bool :=
  let whole := cs.takeWhile Char.isDigit
  let afterWhole := cs.dropWhile Char.isDigit
  let (fraction, tail) :=
    match afterWhole with
    | '.' :: more => (more.takeWhile Char.isDigit, more.dropWhile Char.isDigit)
    | more => ([], more)
  !(whole ++ fraction).isEmpty && (tail.isEmpty || isExponent tail)

/-- How a run that starts like a number is read. -/
inductive Kind where
  | integer
  | decimal
  | badInteger
  | badDecimal
deriving DecidableEq

/-- A dot or an exponent mark outside base sixteen calls for a fraction. -/
def kind (cs : List Char) : Kind :=
  if !isHex cs && cs.any fun c => c == '.' || isExponentMark c then
    if isDecimal cs then .decimal else .badDecimal
  else if (value? cs).isSome then .integer else .badInteger

/-- The run at the start of a text. A sign belongs to it right behind an
exponent mark, unless the run is hexadecimal. -/
def takeRun (hex exponent : Bool) : List Char → List Char
  | [] => []
  | c :: cs =>
    if c.isAlphanum || c == '_' || c == '.' || (exponent && (c == '+' || c == '-')) then
      c :: takeRun hex (!hex && isExponentMark c) cs
    else []

/-- The number-like run that starts a text. -/
def run (cs : List Char) : List Char := takeRun (isHex cs) false cs

theorem takeRun_isPrefix (hex exponent : Bool) (cs : List Char) :
    takeRun hex exponent cs <+: cs := by
  induction cs generalizing exponent with
  | nil => exact List.prefix_refl _
  | cons c cs ih =>
    rw [takeRun]
    split
    · exact (List.prefix_cons_inj c).2 (ih _)
    · exact List.nil_prefix

end ProtoSchema.Numeral
