import ProtoSchema.Token.Reading

/-!
What can stand at the start of a text. The scanner tries one kind of start after the other; here
each kind is told by itself, by the characters that it starts with, and no two kinds meet. What
the scanner finds is found in one of these cases only, and so it is enough to look at the cases.
-/

namespace ProtoSchema.Scanned

variable {c : Char} {rest : List Char} {found : Scanned}

theorem toNat_of_isWordStart (h : isWordStart c = true) : 65 ≤ c.toNat ∧ c.toNat ≤ 122 := by
  change (decide (65 ≤ c.val ∧ c.val ≤ 90) ||
    decide (97 ≤ c.val) && decide (c.val ≤ 122) || c == '_') = true at h
  simp only [Bool.or_eq_true, Bool.and_eq_true, decide_eq_true_eq, beq_iff_eq,
    UInt32.le_iff_toNat_le] at h
  rcases h with (⟨hlow, hhigh⟩ | ⟨hlow, hhigh⟩) | rfl
  · exact ⟨hlow, Nat.le_trans hhigh (by decide)⟩
  · exact ⟨Nat.le_trans (by decide) hlow, hhigh⟩
  · decide

theorem not_isBlank_of_isWordStart (h : isWordStart c = true) : ¬Text.isBlank c = true := by
  have hrange := toNat_of_isWordStart h
  simp only [Text.isBlank, Bool.or_eq_true, Bool.and_eq_true, decide_eq_true_eq, beq_iff_eq]
  omega

theorem toNat_of_isDigit (h : c.isDigit = true) : 48 ≤ c.toNat ∧ c.toNat ≤ 57 := by
  simp only [Char.isDigit, Bool.and_eq_true, decide_eq_true_eq, ge_iff_le,
    UInt32.le_iff_toNat_le] at h
  exact h

theorem not_isBlank_of_isDigit (h : c.isDigit = true) : ¬Text.isBlank c = true := by
  have hrange := toNat_of_isDigit h
  simp only [Text.isBlank, Bool.or_eq_true, Bool.and_eq_true, decide_eq_true_eq, beq_iff_eq]
  omega

theorem plain_of_isDigit (h : c.isDigit = true) :
    ¬Text.isBlank c = true ∧ c ≠ '/' ∧ ¬isWordStart c = true := by
  refine ⟨not_isBlank_of_isDigit h, ?_, fun hword => ?_⟩
  · rintro rfl
    exact absurd h (by decide)
  · have hrange := toNat_of_isDigit h
    have hletter := toNat_of_isWordStart hword
    omega

def StartsNumber (c : Char) (rest : List Char) : Prop :=
  c.isDigit ∨ c = '.' ∧ rest.head?.any Char.isDigit

inductive Starts (c : Char) (rest : List Char) : Scanned → Prop
  | blank (hblank : Text.isBlank c = true) : Starts c rest (.gap 1)
  | line (hline : c = '/' ∧ rest.head? = some '/') :
      Starts c rest (.gap (1 + (rest.takeWhile (· ≠ '\n')).length))
  | block {width : Nat} (hblock : c = '/' ∧ rest.head? = some '*')
      (hend : commentWidth? rest.tail = some width) : Starts c rest (.gap (2 + width))
  | openBlock (hblock : c = '/' ∧ rest.head? = some '*') (hend : commentWidth? rest.tail = none) :
      Starts c rest (.fault .openComment 0)
  | word (hstart : isWordStart c = true) :
      Starts c rest (.lexeme (.word (String.ofList (c :: rest.takeWhile isWordChar)))
        (c :: rest.takeWhile isWordChar).length)
  | integer (hnumber : StartsNumber c rest)
      (hkind : Numeral.kind (Numeral.run (c :: rest)) = .integer) :
      Starts c rest (.lexeme (.integer (String.ofList (Numeral.run (c :: rest))))
        (Numeral.run (c :: rest)).length)
  | decimal (hnumber : StartsNumber c rest)
      (hkind : Numeral.kind (Numeral.run (c :: rest)) = .decimal) :
      Starts c rest (.lexeme (.decimal (String.ofList (Numeral.run (c :: rest))))
        (Numeral.run (c :: rest)).length)
  | badInteger (hnumber : StartsNumber c rest)
      (hkind : Numeral.kind (Numeral.run (c :: rest)) = .badInteger) :
      Starts c rest (.fault (.invalidInteger (String.ofList (Numeral.run (c :: rest)))) 0)
  | badDecimal (hnumber : StartsNumber c rest)
      (hkind : Numeral.kind (Numeral.run (c :: rest)) = .badDecimal) :
      Starts c rest (.fault (.invalidNumber (String.ofList (Numeral.run (c :: rest)))) 0)
  | literal {decoded : List Char} {width : Nat} (hquote : c = '"' ∨ c = '\x27')
      (hbody : Literal.body c rest = .ok (decoded, width)) :
      Starts c rest (.lexeme (.literal (String.ofList decoded)) (1 + width))
  | openLiteral (hquote : c = '"' ∨ c = '\x27') (hbody : Literal.body c rest = .error .notClosed) :
      Starts c rest (.fault .openString 0)
  | noHexDigits {offset : Nat} (hquote : c = '"' ∨ c = '\x27')
      (hbody : Literal.body c rest = .error (.noHexDigits offset)) :
      Starts c rest (.fault .hexDigitsMissing (1 + offset))
  | unknownEscape {d : Char} {offset : Nat} (hquote : c = '"' ∨ c = '\x27')
      (hbody : Literal.body c rest = .error (.unknownEscape d offset)) :
      Starts c rest (.fault (.invalidEscape d) (1 + offset))
  | mark (hmark : c ∈ marks) (hline : ¬(c = '/' ∧ rest.head? = some '/'))
      (hblock : ¬(c = '/' ∧ rest.head? = some '*')) (hnumber : ¬StartsNumber c rest) :
      Starts c rest (.lexeme (.mark c) 1)
  | other (hblank : ¬Text.isBlank c = true) (hstart : ¬isWordStart c = true)
      (hnumber : ¬StartsNumber c rest) (hquote : ¬(c = '"' ∨ c = '\x27')) (hmark : c ∉ marks) :
      Starts c rest (.fault (.invalidCharacter c) 0)

/-- What the scanner finds is one of the cases. -/
theorem starts_first (c : Char) (rest : List Char) : Starts c rest (first c rest) := by
  unfold first
  split
  · next hblank => exact .blank hblank
  split
  · next hline => exact .line hline
  split
  · next hblock =>
    cases hend : commentWidth? rest.tail with
    | some width => exact .block hblock hend
    | none => exact .openBlock hblock hend
  split
  · next hstart => exact .word hstart
  split
  · next hnumber =>
    simp only [numeral]
    cases hkind : Numeral.kind (Numeral.run (c :: rest)) with
    | integer => exact .integer hnumber hkind
    | decimal => exact .decimal hnumber hkind
    | badInteger => exact .badInteger hnumber hkind
    | badDecimal => exact .badDecimal hnumber hkind
  split
  · next hquote =>
    simp only [Scanned.literal]
    cases hbody : Literal.body c rest with
    | ok read => exact .literal hquote hbody
    | error fault =>
      cases fault with
      | notClosed => exact .openLiteral hquote hbody
      | noHexDigits offset => exact .noHexDigits hquote hbody
      | unknownEscape d offset => exact .unknownEscape hquote hbody
  split
  · next hline hblock _ hnumber _ hmark => exact .mark hmark hline hblock hnumber
  · next hblank _ _ hstart hnumber hquote hmark => exact .other hblank hstart hnumber hquote hmark

theorem starts_of_first (h : first c rest = found) : Starts c rest found := h ▸ starts_first c rest

theorem first_of_numeral (h : StartsNumber c rest) : first c rest = numeral (c :: rest) := by
  have hplain : ¬Text.isBlank c = true ∧ c ≠ '/' ∧ ¬isWordStart c = true := by
    rcases h with hdigit | ⟨rfl, _⟩
    · exact plain_of_isDigit hdigit
    · decide
  obtain ⟨hblank, hslash, hstart⟩ := hplain
  rw [first, if_neg hblank, if_neg fun h => hslash h.1, if_neg fun h => hslash h.1, if_neg hstart]
  exact if_pos h

theorem first_of_quote (h : c = '"' ∨ c = '\x27') (rest : List Char) :
    first c rest = literal c rest := by
  rcases h with rfl | rfl <;> rfl

/-- In each of the cases it is what the scanner finds. -/
theorem Starts.first_eq (h : Starts c rest found) : first c rest = found := by
  cases h with
  | blank hblank => rw [first, if_pos hblank]
  | line hline =>
    obtain ⟨rfl, hslash⟩ := hline
    rw [first, if_neg (by decide), if_pos ⟨rfl, hslash⟩]
  | block hblock hend | openBlock hblock hend =>
    obtain ⟨rfl, hstar⟩ := hblock
    rw [first, if_neg (by decide), if_neg (by simp [hstar]), if_pos ⟨rfl, hstar⟩, hend]
  | word hstart =>
    have hslash : c ≠ '/' := by
      rintro rfl
      exact absurd hstart (by decide)
    rw [first, if_neg (not_isBlank_of_isWordStart hstart), if_neg fun h => hslash h.1,
      if_neg fun h => hslash h.1, if_pos hstart]
  | integer hnumber hkind | decimal hnumber hkind | badInteger hnumber hkind
  | badDecimal hnumber hkind =>
    rw [first_of_numeral hnumber]
    simp only [numeral, hkind]
  | literal hquote hbody | openLiteral hquote hbody | noHexDigits hquote hbody
  | unknownEscape hquote hbody => rw [first_of_quote hquote, Scanned.literal, hbody]
  | mark hmark hline hblock hnumber =>
    have hmarks : (marks.all fun c => !Text.isBlank c && !isWordStart c && !(c == '"') &&
        !(c == '\x27')) = true := rfl
    have hplain := List.all_eq_true.mp hmarks c hmark
    simp only [Bool.and_eq_true, Bool.not_eq_true', beq_eq_false_iff_ne] at hplain
    obtain ⟨⟨⟨hblank, hstart⟩, hquote⟩, hapostrophe⟩ := hplain
    rw [first, if_neg (Bool.eq_false_iff.mp hblank), if_neg hline, if_neg hblock,
      if_neg (Bool.eq_false_iff.mp hstart)]
    refine (if_neg hnumber).trans ?_
    rw [if_neg (not_or.mpr ⟨hquote, hapostrophe⟩), if_pos hmark]
  | other hblank hstart hnumber hquote hmark =>
    have hslash : c ≠ '/' := by
      rintro rfl
      exact hmark (by decide)
    rw [first, if_neg hblank, if_neg fun h => hslash h.1, if_neg fun h => hslash h.1,
      if_neg hstart]
    refine (if_neg hnumber).trans ?_
    rw [if_neg hquote, if_neg hmark]

end ProtoSchema.Scanned
