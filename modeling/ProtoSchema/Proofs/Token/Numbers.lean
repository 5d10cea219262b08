import ProtoSchema.Proofs.Token.Spelling

/-!
The spellings of a natural number: in base ten without a zero in front, in base eight behind
a zero, and in base sixteen behind `0x` or `0X`. A spelling of a number that fits in 64 bits
is read whole, and as that number.
-/

namespace ProtoSchema.Numeral

/-- The characters spell the number. Zero is the octal number without further digits. -/
inductive Spells : Nat → List Char → Prop
  | decimal {c : Char} {cs : List Char} (hzero : c ≠ '0') (h : ∀ d ∈ c :: cs, IsDigit 10 d) :
      Spells (digitsValue 10 (c :: cs)) (c :: cs)
  | octal {cs : List Char} (h : ∀ d ∈ cs, IsDigit 8 d) : Spells (digitsValue 8 cs) ('0' :: cs)
  | hexadecimal {x : Char} {cs : List Char} (hx : x = 'x' ∨ x = 'X') (hne : cs ≠ [])
      (h : ∀ d ∈ cs, IsDigit 16 d) : Spells (digitsValue 16 cs) ('0' :: x :: cs)

variable {base n : Nat} {c : Char} {cs : List Char}

theorem unbounded?_of_head (h : cs.head? ≠ some '0') : unbounded? cs = spelled? 10 cs := by
  unfold unbounded?
  split
  · exact absurd rfl h
  · exact absurd rfl h
  · exact absurd rfl h
  · rfl

theorem IsDigit.mono {more : Nat} (h : IsDigit base c) (hbase : base ≤ more) : IsDigit more c := by
  obtain ⟨d, hd, hless⟩ := h
  exact ⟨d, hd, Nat.lt_of_lt_of_le hless hbase⟩

theorem isAlphanum_of_isDigit (h : IsDigit base c) : c.isAlphanum = true := by
  have hclasses : c.isAlphanum = (c.isUpper || c.isLower || c.isDigit) := rfl
  rw [hclasses, Bool.or_eq_true, Bool.or_eq_true]
  obtain ⟨d, hd, _⟩ := h
  unfold digitValue? at hd
  split at hd
  · next hdigit =>
    exact .inr (Bool.and_eq_true_iff.mpr ⟨decide_eq_true hdigit.1, decide_eq_true hdigit.2⟩)
  split at hd
  · next _ hsmall =>
    have hlast : c ≤ 'z' := Char.le_trans hsmall.2 (by decide)
    exact .inl (.inr (Bool.and_eq_true_iff.mpr ⟨decide_eq_true hsmall.1, decide_eq_true hlast⟩))
  split at hd
  · next _ _ hlarge =>
    have hlast : c ≤ 'Z' := Char.le_trans hlarge.2 (by decide)
    exact .inl (.inl (decide_eq_true ⟨hlarge.1, hlast⟩))
  · cases hd

theorem isDigit_of_isDigit_ten (h : IsDigit 10 c) : c.isDigit = true := by
  obtain ⟨d, hd, hless⟩ := h
  unfold digitValue? at hd
  split at hd
  · next hdigit =>
    simp only [Char.isDigit, Bool.and_eq_true, decide_eq_true_eq]
    exact hdigit
  split at hd
  · cases hd
    omega
  split at hd
  · cases hd
    omega
  · cases hd

theorem spelled?_of_digits (hne : cs ≠ []) (h : ∀ d ∈ cs, IsDigit base d) :
    spelled? base cs = some (digitsValue base cs) := by
  have hall : (cs.all fun d => decide (IsDigit base d)) = true :=
    List.all_eq_true.mpr fun d hd => decide_eq_true (h d hd)
  rw [spelled?, if_pos (by simp [hall, hne])]

/-- Digits up to nine are neither a dot nor an exponent mark. -/
theorem any_mark_of_digits (h : ∀ d ∈ cs, d.isDigit = true) :
    (cs.any fun d => d == '.' || isExponentMark d) = false := by
  refine List.any_eq_false.mpr fun d hd hmark => ?_
  have hdigit := h d hd
  simp only [isExponentMark, Bool.or_eq_true, beq_iff_eq] at hmark
  rcases hmark with rfl | rfl | rfl
  · exact absurd hdigit (by decide)
  · exact absurd hdigit (by decide)
  · exact absurd hdigit (by decide)

namespace Spells

theorem unbounded?_eq (h : Spells n cs) : unbounded? cs = some n := by
  cases h with
  | @decimal c cs hzero h =>
    rw [unbounded?_of_head (by simpa using hzero)]
    exact spelled?_of_digits (List.cons_ne_nil c cs) h
  | @octal cs h =>
    cases cs with
    | nil => rfl
    | cons d ds =>
      have hd := h d List.mem_cons_self
      unfold unbounded?
      split
      · next heq =>
        cases heq
        exact absurd hd (by decide)
      · next heq =>
        cases heq
        exact absurd hd (by decide)
      · next heq =>
        cases heq
        exact spelled?_of_digits (List.cons_ne_nil d ds) h
      · next hother => exact absurd rfl (hother d ds)
  | hexadecimal hx hne h =>
    rcases hx with rfl | rfl
    · exact spelled?_of_digits hne h
    · exact spelled?_of_digits hne h

theorem isAlphanum (h : Spells n cs) : ∀ d ∈ cs, d.isAlphanum = true := by
  cases h with
  | decimal hzero h => exact fun d hd => isAlphanum_of_isDigit (h d hd)
  | octal h =>
    exact List.forall_mem_cons.mpr ⟨rfl, fun d hd => isAlphanum_of_isDigit (h d hd)⟩
  | hexadecimal hx hne h =>
    have hmark : (x : Char) → x = 'x' ∨ x = 'X' → x.isAlphanum = true := by
      rintro x (rfl | rfl) <;> rfl
    exact List.forall_mem_cons.mpr ⟨rfl, List.forall_mem_cons.mpr
      ⟨hmark _ hx, fun d hd => isAlphanum_of_isDigit (h d hd)⟩⟩

theorem head_isDigit (h : Spells n cs) : ∃ d ds, cs = d :: ds ∧ d.isDigit = true := by
  cases h with
  | decimal hzero h => exact ⟨_, _, rfl, isDigit_of_isDigit_ten (h _ List.mem_cons_self)⟩
  | octal h => exact ⟨_, _, rfl, rfl⟩
  | hexadecimal hx hne h => exact ⟨_, _, rfl, rfl⟩

theorem ne_nil (h : Spells n cs) : cs ≠ [] := by
  obtain ⟨d, ds, rfl, _⟩ := h.head_isDigit
  exact List.cons_ne_nil d ds

/-- Nothing in a spelling calls for a fraction. -/
theorem not_fraction (h : Spells n cs) :
    (!isHex cs && cs.any fun d => d == '.' || isExponentMark d) = false := by
  cases h with
  | decimal hzero h =>
    rw [any_mark_of_digits fun d hd => isDigit_of_isDigit_ten (h d hd), Bool.and_false]
  | octal h =>
    rw [any_mark_of_digits (List.forall_mem_cons.mpr
      ⟨rfl, fun d hd => isDigit_of_isDigit_ten ((h d hd).mono (by decide))⟩), Bool.and_false]
  | hexadecimal hx hne h => rcases hx with rfl | rfl <;> simp [isHex, List.isPrefixOf]

theorem value?_eq (h : Spells n cs) (hn : n < UInt64.size) : value? cs = some n := by
  rw [value?, h.unbounded?_eq]
  exact Option.filter_some_pos (decide_eq_true hn)

/-- A spelling is a number of a text. -/
theorem isNumeral {written : String} (h : Spells n written.toList) (hn : n < UInt64.size) :
    Scanned.IsNumeral .integer written := by
  have hrun : run written.toList = written.toList := takeRun_of_isAlphanum h.isAlphanum
  have hkind : kind written.toList = .integer := by
    rw [kind, h.not_fraction, if_neg (by decide), h.value?_eq hn]
    rfl
  obtain ⟨c, cs, hwritten, hc⟩ := h.head_isDigit
  rw [hwritten] at hrun hkind
  exact ⟨c, cs, by rw [← hwritten, String.ofList_toList], .inl hc, hrun, hkind⟩

end Spells

theorem digitValue?_of_isDigit (h : c.isDigit = true) : digitValue? c = some (c.toNat - 48) := by
  simp only [Char.isDigit, Bool.and_eq_true, decide_eq_true_eq, ge_iff_le] at h
  exact if_pos h

theorem isDigit_ten (h : c.isDigit = true) : IsDigit 10 c := by
  have hrange := Scanned.toNat_of_isDigit h
  exact ⟨c.toNat - 48, digitValue?_of_isDigit h, by omega⟩

theorem digitsValue_eq_ofDigitChars (h : ∀ c ∈ cs, c.isDigit = true) (start : Nat) :
    cs.foldl (fun n c => n * 10 + (digitValue? c).getD 0) start = Nat.ofDigitChars 10 cs start := by
  induction cs generalizing start with
  | nil => rfl
  | cons c cs ih =>
    have hvalue := digitValue?_of_isDigit (h c List.mem_cons_self)
    rw [List.foldl_cons, hvalue, ih fun d hd => h d (List.mem_cons_of_mem c hd),
      Nat.ofDigitChars_cons, Nat.mul_comm]
    rfl

theorem isDigit_of_mem_toDigits (h : c ∈ Nat.toDigits 10 n) : c.isDigit = true :=
  Nat.isDigit_of_mem_toDigits (by decide) (by decide) h

theorem digitsValue_toDigits (n : Nat) : digitsValue 10 (Nat.toDigits 10 n) = n := by
  rw [digitsValue, digitsValue_eq_ofDigitChars fun c hc => isDigit_of_mem_toDigits hc,
    Nat.ofDigitChars_ten_toDigits]

/-- Only zero is written with a zero in front. -/
theorem head?_toDigits (h : 0 < n) : (Nat.toDigits 10 n).head? ≠ some '0' := by
  induction n using Nat.strongRecOn with
  | ind n ih =>
    rw [Nat.toDigits_eq_if (by decide)]
    split
    · simpa using Nat.ne_of_gt h
    · next hlarge =>
      rw [List.head?_append_of_ne_nil _ Nat.toDigits_ne_nil]
      exact ih (n / 10) (by omega) (by omega)

/-- A number in base ten spells itself. -/
theorem spells_toString (n : Nat) : Spells n (toString n).toList := by
  rw [Nat.toString_eq_ofList_toDigits, String.toList_ofList]
  rcases Nat.eq_zero_or_pos n with rfl | hpos
  · exact .octal (List.forall_mem_nil _)
  · have hhead := head?_toDigits hpos
    have hvalue := digitsValue_toDigits n
    have hdigits : ∀ c ∈ Nat.toDigits 10 n, IsDigit 10 c :=
      fun c hc => isDigit_ten (isDigit_of_mem_toDigits hc)
    obtain ⟨c, cs, hcs⟩ := List.exists_cons_of_ne_nil (Nat.toDigits_ne_nil (b := 10) (n := n))
    rw [hcs] at hhead hvalue hdigits ⊢
    rw [← hvalue]
    exact .decimal (by simpa using hhead) hdigits

end ProtoSchema.Numeral
