import ProtoSchema.Proofs.Token.Numbers

/-!
What a run that starts like a number can be. It is read as an integer just when it is the
spelling of a number that fits in 64 bits, and as a decimal just when it is a fraction, with a
dot or an exponent. Any other run is no number: where the reading of a text comes to it, the
text is rejected there.
-/

namespace ProtoSchema

namespace Numeral

inductive Exponent : List Char → Prop
  | intro {mark : Char} {sign digits : List Char} (hmark : mark = 'e' ∨ mark = 'E')
      (hsign : sign = [] ∨ sign = ['+'] ∨ sign = ['-']) (hne : digits ≠ [])
      (hdigits : ∀ d ∈ digits, d.isDigit = true) : Exponent (mark :: (sign ++ digits))

/-- A fraction: digits with a dot before, among or behind them and perhaps an exponent, or
digits without a dot and an exponent. -/
inductive Fraction : List Char → Prop
  | dotted {whole part tail : List Char} (hne : whole ≠ [] ∨ part ≠ [])
      (hwhole : ∀ d ∈ whole, d.isDigit = true) (hpart : ∀ d ∈ part, d.isDigit = true)
      (htail : tail = [] ∨ Exponent tail) : Fraction (whole ++ '.' :: (part ++ tail))
  | scaled {whole tail : List Char} (hne : whole ≠ []) (hwhole : ∀ d ∈ whole, d.isDigit = true)
      (htail : Exponent tail) : Fraction (whole ++ tail)

variable {base n : Nat} {c : Char} {cs rest tail digits : List Char}

theorem digits_of_spelled? (h : spelled? base cs = some n) :
    cs ≠ [] ∧ (∀ d ∈ cs, IsDigit base d) ∧ n = digitsValue base cs := by
  unfold spelled? at h
  split at h
  · next hdigits =>
    cases h
    simp only [Bool.and_eq_true, Bool.not_eq_true', List.isEmpty_eq_false_iff, List.all_eq_true,
      decide_eq_true_eq] at hdigits
    exact ⟨hdigits.1, hdigits.2, rfl⟩
  · cases h

/-- Only a spelling has a value. -/
theorem spells_of_unbounded? (h : unbounded? cs = some n) : Spells n cs := by
  unfold unbounded? at h
  split at h
  · obtain ⟨hne, hdigits, rfl⟩ := digits_of_spelled? h
    exact .hexadecimal (.inl rfl) hne hdigits
  · obtain ⟨hne, hdigits, rfl⟩ := digits_of_spelled? h
    exact .hexadecimal (.inr rfl) hne hdigits
  · obtain ⟨_, hdigits, rfl⟩ := digits_of_spelled? h
    exact .octal hdigits
  · next hhead =>
    obtain ⟨hne, hdigits, rfl⟩ := digits_of_spelled? h
    obtain ⟨c, others, rfl⟩ := List.exists_cons_of_ne_nil hne
    by_cases hzero : c = '0'
    · subst hzero
      cases others with
      | nil => exact .octal (List.forall_mem_nil _)
      | cons d others => exact absurd rfl (hhead d others)
    · exact .decimal hzero hdigits

theorem Spells.eq_of_spells {m : Nat} (h : Spells n cs) (hm : Spells m cs) : n = m :=
  Option.some.inj (h.unbounded?_eq.symm.trans hm.unbounded?_eq)

theorem value?_eq_some_iff : value? cs = some n ↔ Spells n cs ∧ n < UInt64.size := by
  rw [value?, Option.filter_eq_some_iff, decide_eq_true_eq]
  exact and_congr_left fun _ => ⟨spells_of_unbounded?, Spells.unbounded?_eq⟩

/-- A run is an integer just when it spells a number that fits in 64 bits. -/
theorem kind_eq_integer_iff : kind cs = .integer ↔ ∃ n, n < UInt64.size ∧ Spells n cs := by
  constructor
  · intro h
    unfold kind at h
    split at h
    · split at h <;> cases h
    split at h
    · next hvalue =>
      obtain ⟨n, hn⟩ := Option.isSome_iff_exists.mp hvalue
      obtain ⟨hspells, hless⟩ := value?_eq_some_iff.mp hn
      exact ⟨n, hless, hspells⟩
    · cases h
  · rintro ⟨n, hless, hspells⟩
    rw [kind, hspells.not_fraction, if_neg (by decide), hspells.value?_eq hless]
    rfl

/-- A number that does not fit in 64 bits is no integer. -/
theorem Spells.kind_of_large (h : Spells n cs) (hn : UInt64.size ≤ n) : kind cs = .badInteger := by
  have hvalue : value? cs = none := by
    rw [value?, h.unbounded?_eq]
    exact Option.filter_some_neg (by simpa using hn)
  rw [kind, h.not_fraction, if_neg (by decide), hvalue]
  rfl

theorem isExponentMark_iff : isExponentMark c = true ↔ c = 'e' ∨ c = 'E' := by
  rw [isExponentMark, Bool.or_eq_true, beq_iff_eq, beq_iff_eq]

theorem isExponent_cons (mark : Char) (rest : List Char) : ∃ sign digits, rest = sign ++ digits ∧
    (sign = [] ∨ sign = ['+'] ∨ sign = ['-']) ∧
    isExponent (mark :: rest) =
      (isExponentMark mark && !digits.isEmpty && digits.all Char.isDigit) := by
  match rest with
  | [] => exact ⟨[], [], rfl, .inl rfl, rfl⟩
  | d :: digits =>
    by_cases hplus : d = '+'
    · exact ⟨['+'], digits, by rw [hplus]; rfl, .inr (.inl rfl), by rw [hplus]; rfl⟩
    by_cases hminus : d = '-'
    · exact ⟨['-'], digits, by rw [hminus]; rfl, .inr (.inr rfl), by rw [hminus]; rfl⟩
    · refine ⟨[], d :: digits, rfl, .inl rfl, ?_⟩
      unfold isExponent
      split
      · next heq => cases heq
      · next heq =>
        cases heq
        split
        · next heq => exact absurd (List.cons.inj heq).1 hplus
        · next heq => exact absurd (List.cons.inj heq).1 hminus
        · rfl

theorem isExponent_iff : isExponent cs = true ↔ Exponent cs := by
  constructor
  · intro h
    cases cs with
    | nil => cases h
    | cons mark rest =>
      obtain ⟨sign, digits, rfl, hsign, heq⟩ := isExponent_cons mark rest
      simp only [heq, Bool.and_eq_true, Bool.not_eq_true', List.isEmpty_eq_false_iff,
        List.all_eq_true, isExponentMark_iff] at h
      exact .intro h.1.1 hsign h.1.2 h.2
  · rintro @⟨mark, sign, digits, hmark, hsign, hne, hdigits⟩
    have hall : (isExponentMark mark && !digits.isEmpty && digits.all Char.isDigit) = true := by
      simp only [Bool.and_eq_true, Bool.not_eq_true', List.isEmpty_eq_false_iff,
        List.all_eq_true, isExponentMark_iff]
      exact ⟨⟨hmark, hne⟩, hdigits⟩
    rcases hsign with rfl | rfl | rfl
    · obtain ⟨d, others, rfl⟩ := List.exists_cons_of_ne_nil hne
      have hd := hdigits d List.mem_cons_self
      rw [List.nil_append]
      unfold isExponent
      split
      · next heq => cases heq
      · next heq =>
        cases heq
        split
        · next heq =>
          rw [(List.cons.inj heq).1] at hd
          exact absurd hd (by decide)
        · next heq =>
          rw [(List.cons.inj heq).1] at hd
          exact absurd hd (by decide)
        · exact hall
    · exact hall
    · exact hall

theorem takeWhile_of_digits (rest : List Char) (h : ∀ d ∈ digits, d.isDigit = true)
    (hrest : ∀ d, rest.head? = some d → d.isDigit = false) :
    (digits ++ rest).takeWhile Char.isDigit = digits ∧
      (digits ++ rest).dropWhile Char.isDigit = rest := by
  rw [List.takeWhile_append_of_pos h, List.dropWhile_append_of_pos h]
  cases rest with
  | nil => exact ⟨List.append_nil digits, rfl⟩
  | cons d others =>
    have hd : ¬d.isDigit = true := Bool.eq_false_iff.mp (hrest d rfl)
    rw [List.takeWhile_cons_of_neg hd, List.dropWhile_cons_of_neg hd, List.append_nil]
    exact ⟨rfl, rfl⟩

theorem Exponent.head (h : Exponent tail) :
    ∃ mark others, tail = mark :: others ∧ (mark = 'e' ∨ mark = 'E') := by
  obtain ⟨hmark, _, _, _⟩ := h
  exact ⟨_, _, rfl, hmark⟩

theorem head_of_tail (h : tail = [] ∨ Exponent tail) :
    ∀ d, tail.head? = some d → d.isDigit = false := by
  intro d hd
  rcases h with rfl | h
  · cases hd
  · obtain ⟨mark, others, rfl, rfl | rfl⟩ := h.head
    · cases hd
      rfl
    · cases hd
      rfl

theorem isEnd_iff : (tail.isEmpty || isExponent tail) = true ↔ tail = [] ∨ Exponent tail := by
  rw [Bool.or_eq_true, List.isEmpty_iff, isExponent_iff]

theorem isDecimal_of_fraction (h : Fraction cs) : isDecimal cs = true := by
  cases h with
  | @dotted whole part tail hne hwhole hpart htail =>
    obtain ⟨htake, hdrop⟩ := takeWhile_of_digits ('.' :: (part ++ tail)) hwhole (by simp)
    obtain ⟨htake', hdrop'⟩ := takeWhile_of_digits tail hpart (head_of_tail htail)
    simp only [isDecimal, htake, hdrop, htake', hdrop', isEnd_iff.mpr htail, Bool.and_true]
    simpa [List.isEmpty_eq_false_iff, or_iff_not_imp_left] using hne
  | @scaled whole tail hne hwhole htail =>
    obtain ⟨htake, hdrop⟩ := takeWhile_of_digits tail hwhole (head_of_tail (.inr htail))
    have hend := isEnd_iff.mpr (.inr htail)
    have hsome : (!(whole ++ []).isEmpty) = true := by simpa using hne
    obtain ⟨mark, others, rfl, rfl | rfl⟩ := htail.head
    · rw [isDecimal, htake, hdrop]
      exact Bool.and_eq_true_iff.mpr ⟨hsome, hend⟩
    · rw [isDecimal, htake, hdrop]
      exact Bool.and_eq_true_iff.mpr ⟨hsome, hend⟩

/-- What is read as a decimal without a dot or an exponent is digits alone. -/
theorem fraction_of_isDecimal (h : isDecimal cs = true)
    (hmark : (cs.any fun d => d == '.' || isExponentMark d) = true) : Fraction cs := by
  have hdigits (xs : List Char) : ∀ d ∈ xs.takeWhile Char.isDigit, d.isDigit = true :=
    fun d hd => List.mem_takeWhile_imp hd
  have hwhole := hdigits cs
  have hcs := (List.takeWhile_append_dropWhile (p := Char.isDigit) (l := cs)).symm
  unfold isDecimal at h
  generalize cs.takeWhile Char.isDigit = whole at h hwhole hcs
  generalize cs.dropWhile Char.isDigit = behind at h hcs
  subst hcs
  simp only at h
  split at h
  · next more =>
    have hmore := (List.takeWhile_append_dropWhile (p := Char.isDigit) (l := more)).symm
    obtain ⟨hne, hend⟩ := Bool.and_eq_true_iff.mp h
    rw [isEnd_iff] at hend
    rw [hmore]
    refine .dotted ?_ hwhole (hdigits more) hend
    simpa [← or_iff_not_imp_left, imp_iff_not_or] using hne
  · obtain ⟨hne, hend⟩ := Bool.and_eq_true_iff.mp h
    rcases isEnd_iff.mp hend with rfl | htail
    · rw [List.append_nil, any_mark_of_digits hwhole] at hmark
      cases hmark
    · exact .scaled (by simpa using hne) hwhole htail

theorem any_mark_of_fraction (h : Fraction cs) :
    (cs.any fun d => d == '.' || isExponentMark d) = true := by
  cases h with
  | dotted => simp
  | scaled hne hwhole htail =>
    obtain ⟨mark, others, rfl, rfl | rfl⟩ := htail.head
    · simp [isExponentMark]
    · simp [isExponentMark]

theorem isHex_of_isDecimal (h : isDecimal cs = true) : isHex cs = false := by
  rw [Bool.eq_false_iff]
  intro hhex
  rw [isHex, Bool.or_eq_true, List.isPrefixOf_iff_prefix, List.isPrefixOf_iff_prefix] at hhex
  rcases hhex with ⟨rest, rfl⟩ | ⟨rest, rfl⟩
  · cases h
  · cases h

/-- A run is a decimal just when it is a fraction. -/
theorem kind_eq_decimal_iff : kind cs = .decimal ↔ Fraction cs := by
  constructor
  · intro h
    unfold kind at h
    split at h
    · next hmark =>
      split at h
      · next hdecimal => exact fraction_of_isDecimal hdecimal (Bool.and_eq_true_iff.mp hmark).2
      · cases h
    · split at h <;> cases h
  · intro h
    have hdecimal := isDecimal_of_fraction h
    rw [kind, isHex_of_isDecimal hdecimal, any_mark_of_fraction h, if_pos (by decide),
      if_pos hdecimal]

end Numeral

end ProtoSchema
