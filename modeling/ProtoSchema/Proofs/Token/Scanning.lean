import Mathlib.Data.List.TakeWhile
import ProtoSchema.Proofs.Token.Starts

/-!
Texts cut into tokens piece by piece. What is found at the start of a text does not depend on
what stands behind it, as long as it ends before the text does. So a text that ends in a
closing brace is cut in the same way whatever follows the brace.
-/

namespace ProtoSchema

namespace Literal

theorem leadingDigits_append {base : Nat} {cs : List Char}
    (h : (leadingDigits base cs).length < cs.length) (more : List Char) :
    leadingDigits base (cs ++ more) = leadingDigits base cs := by
  match cs with
  | [] => simp at h
  | [a] =>
    have ha : ¬Numeral.IsDigit base a := by
      intro hdigit
      simp [leadingDigits, hdigit] at h
    cases more <;> simp [leadingDigits, ha]
  | a :: b :: rest => simp [leadingDigits]

/-- An escape that something follows takes all its digits. -/
theorem escape_append {cs : List Char} {meant : Char} {width : Nat}
    (h : escape cs = .ok (meant, width)) (hwidth : width < cs.length) (more : List Char) :
    escape (cs ++ more) = .ok (meant, width) := by
  cases cs with
  | nil => cases h
  | cons c rest =>
    rw [List.cons_append, escape]
    rw [escape] at h
    cases hletter : letterEscape? c with
    | some letter =>
      rw [hletter] at h
      exact h
    | none =>
      simp only [hletter] at h ⊢
      rw [List.length_cons] at hwidth
      by_cases hoctal : Numeral.IsDigit 8 c
      · rw [if_pos hoctal] at h ⊢
        have hlength : (leadingDigits 8 rest).length < rest.length := by
          cases h
          simpa using hwidth
        rw [leadingDigits_append hlength]
        exact h
      · rw [if_neg hoctal] at h ⊢
        by_cases hhex : c = 'x' ∨ c = 'X'
        · rw [if_pos hhex] at h ⊢
          have hlength : (leadingDigits 16 rest).length < rest.length := by
            split at h
            · cases h
            · cases h
              omega
          rw [leadingDigits_append hlength]
          exact h
        · rw [if_neg hhex] at h
          cases h

theorem prepend_eq_ok {c : Char} {n width : Nat} {decoded : List Char}
    {read : Except Fault (List Char × Nat)} (h : prepend c n read = .ok (decoded, width)) :
    ∃ inner more, read = .ok (inner, more) ∧ decoded = c :: inner ∧ width = n + more := by
  cases read with
  | error fault => cases h
  | ok found =>
    obtain ⟨inner, more⟩ := found
    cases h
    exact ⟨inner, more, rfl, rfl, rfl⟩

/-- A literal that was closed does not depend on what follows. -/
theorem body_append {quote : Char} {cs decoded : List Char} {width : Nat}
    (h : body quote cs = .ok (decoded, width)) (more : List Char) :
    body quote (cs ++ more) = .ok (decoded, width) := by
  match cs with
  | [] =>
    rw [body] at h
    cases h
  | c :: rest =>
    rw [List.cons_append, body]
    rw [body] at h
    by_cases hline : c = '\n'
    · rw [if_pos hline] at h
      cases h
    rw [if_neg hline] at h ⊢
    by_cases hquote : c = quote
    · rw [if_pos hquote] at h ⊢
      exact h
    rw [if_neg hquote] at h ⊢
    by_cases hescape : c = '\\'
    · rw [if_pos hescape] at h ⊢
      cases hmeant : escape rest with
      | error fault =>
        rw [hmeant] at h
        cases h
      | ok found =>
        obtain ⟨meant, taken⟩ := found
        simp only [hmeant] at h
        obtain ⟨inner, others, hinner, rfl, rfl⟩ := prepend_eq_ok h
        -- The closing quote stands behind the escape.
        have hbehind : taken < rest.length := by
          by_contra hall
          rw [List.drop_eq_nil_of_le (Nat.le_of_not_lt hall), body] at hinner
          cases hinner
        have hless : (rest.drop taken).length < (c :: rest).length := by
          rw [List.length_drop, List.length_cons]
          omega
        rw [escape_append hmeant hbehind]
        simp only
        rw [List.drop_append_of_le_length (Nat.le_of_lt hbehind), body_append hinner more]
        rfl
    · rw [if_neg hescape] at h ⊢
      obtain ⟨inner, others, hinner, rfl, rfl⟩ := prepend_eq_ok h
      rw [body_append hinner more]
      rfl
termination_by cs.length

end Literal

namespace Numeral

theorem isHex_append {cs : List Char} (h : 2 ≤ cs.length) (more : List Char) :
    isHex (cs ++ more) = isHex cs := by
  match cs with
  | a :: b :: rest => simp [isHex, List.isPrefixOf]

theorem takeRun_append {hex exponent : Bool} {cs : List Char}
    (h : (takeRun hex exponent cs).length < cs.length) (more : List Char) :
    takeRun hex exponent (cs ++ more) = takeRun hex exponent cs := by
  induction cs generalizing exponent with
  | nil => simp at h
  | cons c rest ih =>
    rw [List.cons_append, takeRun, takeRun]
    rw [takeRun] at h
    split
    · next htaken =>
      rw [if_pos htaken, List.length_cons, List.length_cons] at h
      rw [ih (Nat.lt_of_succ_lt_succ h)]
    · rfl

theorem run_append {cs : List Char} (h : (run cs).length < cs.length) (hpos : 0 < (run cs).length)
    (more : List Char) : run (cs ++ more) = run cs := by
  rw [run, run, isHex_append (by omega)]
  exact takeRun_append h more

end Numeral

namespace Scanned

theorem takeWhile_append {p : Char → Bool} {cs : List Char}
    (h : (cs.takeWhile p).length < cs.length) (more : List Char) :
    (cs ++ more).takeWhile p = cs.takeWhile p := by
  rw [List.takeWhile_append, if_neg (Nat.ne_of_lt h)]

theorem commentWidth?_append {cs : List Char} {width : Nat} (h : commentWidth? cs = some width)
    (more : List Char) : commentWidth? (cs ++ more) = some width := by
  induction cs generalizing width with
  | nil => cases h
  | cons c rest ih =>
    cases rest with
    | nil => cases h
    | cons d tail =>
      rw [commentWidth?] at h
      rw [List.cons_append, List.cons_append, commentWidth?]
      split
      · next hend =>
        rw [if_pos hend] at h
        exact h
      · next hend =>
        rw [if_neg hend] at h
        obtain ⟨inner, hinner, rfl⟩ := Option.map_eq_some_iff.mp h
        have hrest := ih hinner
        rw [List.cons_append] at hrest
        rw [hrest]
        rfl

/-- What ends before the text does is found whatever follows the text. -/
theorem first_append {c : Char} {rest : List Char}
    (hclean : ∀ found offset, first c rest ≠ .fault found offset)
    (hwidth : (first c rest).width ≤ rest.length) (more : List Char) :
    first c (rest ++ more) = first c rest := by
  have hpos := width_first_pos c rest
  have hne : rest ≠ [] := List.length_pos_iff.mp (by omega)
  have hhead : (rest ++ more).head? = rest.head? := by
    obtain ⟨d, tail, rfl⟩ := List.exists_cons_of_ne_nil hne
    rfl
  have htail : (rest ++ more).tail = rest.tail ++ more := List.tail_append_of_ne_nil hne
  have hstartsNumber : StartsNumber c (rest ++ more) ↔ StartsNumber c rest := by
    rw [StartsNumber, StartsNumber, hhead]
  have hrun (hpos : 0 < (Numeral.run (c :: rest)).length)
      (hwidth : (Numeral.run (c :: rest)).length ≤ rest.length) :
      Numeral.run (c :: rest) = Numeral.run (c :: (rest ++ more)) :=
    (Numeral.run_append (Nat.lt_succ_of_le hwidth) hpos more).symm
  have hstarts := starts_first c rest
  generalize first c rest = found at hclean hwidth hpos hstarts ⊢
  apply Starts.first_eq
  cases hstarts with
  | blank hblank => exact .blank hblank
  | line hline =>
    simp only [width] at hwidth
    rw [← takeWhile_append (by omega) more]
    exact .line (by rwa [hhead])
  | block hblock hend =>
    exact .block (by rwa [hhead]) (by rw [htail, commentWidth?_append hend])
  | word hstart =>
    simp only [width, List.length_cons] at hwidth
    rw [← takeWhile_append (by omega) more]
    exact .word hstart
  | integer hnumber hkind =>
    rw [hrun hpos hwidth] at hkind ⊢
    exact .integer (hstartsNumber.mpr hnumber) hkind
  | decimal hnumber hkind =>
    rw [hrun hpos hwidth] at hkind ⊢
    exact .decimal (hstartsNumber.mpr hnumber) hkind
  | literal hquote hbody => exact .literal hquote (Literal.body_append hbody more)
  | mark hmark hline hblock hnumber =>
    exact .mark hmark (by rwa [hhead]) (by rwa [hhead]) (hstartsNumber.not.mpr hnumber)
  | _ => exact absurd rfl (hclean _ _)

end Scanned

end ProtoSchema
