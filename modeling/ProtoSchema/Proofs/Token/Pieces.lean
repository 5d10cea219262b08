import Mathlib.Algebra.Group.Nat.Defs
import Mathlib.Data.List.Induction
import ProtoSchema.Proofs.Token.Covering

/-!
Literals piece by piece. Between its quotes a literal is put together from plain characters, from
escapes by a sign, and from escapes by a number in base eight or sixteen. An escape by a number
takes as many digits as it can, so where it has fewer than it may have no digit follows it. Each
piece is read first, whatever stands behind it, and what was read first is such a piece; so the
literals that are read are just those put together from pieces, and they decode piece by piece.
-/

namespace ProtoSchema

namespace Literal

open Numeral (IsDigit digitsValue)

def signs : List (Char × Char) :=
  [('n', '\n'), ('t', '\t'), ('r', '\r'), ('a', '\x07'), ('b', '\x08'), ('f', '\x0c'),
    ('v', '\x0b'), ('\\', '\\'), ('\x27', '\x27'), ('"', '"'), ('?', '?')]

structure Digits (base most : Nat) where
  chars : List Char
  isDigit : ∀ d ∈ chars, IsDigit base d
  pos : 0 < chars.length
  length_le : chars.length ≤ most

inductive Piece (quote : Char) where
  | plain (c : Char) (hquote : c ≠ quote) (hslash : c ≠ '\\') (hline : c ≠ '\n')
  | sign (c meant : Char) (h : (c, meant) ∈ signs)
  | octal (digits : Digits 8 3)
  | hexadecimal (mark : Char) (h : mark = 'x' ∨ mark = 'X') (digits : Digits 16 2)

variable {quote : Char} {base most : Nat}

def Digits.value (digits : Digits base most) : Nat := digitsValue base digits.chars

def Digits.EndBefore (digits : Digits base most) (behind : List Char) : Prop :=
  digits.chars.length < most → ∀ d, behind.head? = some d → ¬IsDigit base d

namespace Piece

def written : Piece quote → List Char
  | plain c _ _ _ => [c]
  | sign c _ _ => ['\\', c]
  | octal digits => '\\' :: digits.chars
  | hexadecimal mark _ digits => '\\' :: mark :: digits.chars

def number? : Piece quote → Option Nat
  | octal digits => some digits.value
  | hexadecimal _ _ digits => some digits.value
  | _ => none

def meant : Piece quote → Char
  | plain c _ _ _ => c
  | sign _ meant _ => meant
  | octal digits => Char.ofNat digits.value
  | hexadecimal _ _ digits => Char.ofNat digits.value

def EndsBefore (behind : List Char) : Piece quote → Prop
  | octal digits => digits.EndBefore behind
  | hexadecimal _ _ digits => digits.EndBefore behind
  | _ => True

end Piece

def written (pieces : List (Piece quote)) : List Char := pieces.flatMap Piece.written

def decoded (pieces : List (Piece quote)) : String := String.ofList (pieces.map Piece.meant)

/-- No piece goes on into the next one. -/
def Fit : List (Piece quote) → Prop
  | [] => True
  | piece :: rest => piece.EndsBefore (written rest) ∧ Fit rest

section Numbers

theorem digitsValue_concat (base : Nat) (cs : List Char) (c : Char) :
    digitsValue base (cs ++ [c]) =
      digitsValue base cs * base + (Numeral.digitValue? c).getD 0 := by
  rw [digitsValue, List.foldl_concat]
  rfl

/-- So many digits cannot spell a larger number. -/
theorem digitsValue_lt {cs : List Char} (h : ∀ d ∈ cs, IsDigit base d) :
    digitsValue base cs < base ^ cs.length := by
  induction cs using List.reverseRecOn with
  | nil => exact Nat.one_pos
  | append_singleton cs c ih =>
    have hfront := ih fun d hd => h d (List.mem_append_left [c] hd)
    obtain ⟨value, hvalue, hless⟩ := h c (by simp)
    rw [digitsValue_concat, hvalue, Option.getD_some, List.length_append, List.length_singleton,
      Nat.pow_succ]
    calc digitsValue base cs * base + value
        < digitsValue base cs * base + base := Nat.add_lt_add_left hless _
      _ = (digitsValue base cs + 1) * base := (Nat.succ_mul _ _).symm
      _ ≤ base ^ cs.length * base := Nat.mul_le_mul_right base hfront

theorem Digits.value_lt (digits : Digits base most) (hbase : 0 < base) :
    digits.value < base ^ most :=
  Nat.lt_of_lt_of_le (digitsValue_lt digits.isDigit)
    (Nat.pow_le_pow_right hbase digits.length_le)

theorem toNat_ofNat_of_lt {n : Nat} (h : n < 512) : (Char.ofNat n).toNat = n := by
  have hvalid : n.isValidChar := .inl (Nat.lt_trans h (by decide))
  rw [Char.ofNat, dif_pos hvalid]
  rfl

/-- An escape by a number means the character of that number, which is always one. -/
theorem Piece.toNat_meant {piece : Piece quote} {n : Nat} (h : piece.number? = some n) :
    piece.meant.toNat = n := by
  cases piece with
  | plain => cases h
  | sign => cases h
  | octal digits =>
    cases h
    exact toNat_ofNat_of_lt (digits.value_lt (by decide))
  | hexadecimal mark hmark digits =>
    cases h
    exact toNat_ofNat_of_lt (Nat.lt_trans (digits.value_lt (by decide)) (by decide))

end Numbers

section Escapes

variable {c meant : Char} {cs behind : List Char} {width : Nat}

theorem letterEscape?_eq_some_iff : letterEscape? c = some meant ↔ (c, meant) ∈ signs := by
  constructor
  · intro h
    unfold letterEscape? at h
    split at h <;> cases h <;> decide
  · have hall : ∀ sign ∈ signs, letterEscape? sign.1 = some sign.2 := by decide
    exact hall (c, meant)

/-- No sign starts an escape by a number. -/
theorem letterEscape?_of_number (h : IsDigit 8 c ∨ c = 'x' ∨ c = 'X') :
    letterEscape? c = none := by
  have hall : ∀ sign ∈ signs, ¬(IsDigit 8 sign.1 ∨ sign.1 = 'x' ∨ sign.1 = 'X') := by decide
  refine Option.eq_none_iff_forall_ne_some.mpr fun meant hmeant => ?_
  exact hall (c, meant) (letterEscape?_eq_some_iff.mp hmeant) h

theorem leadingDigits_of_isDigit {ds : List Char} (hdigits : ∀ d ∈ ds, IsDigit base d)
    (hlength : ds.length ≤ 2)
    (hend : ds.length < 2 → ∀ d, behind.head? = some d → ¬IsDigit base d) :
    leadingDigits base (ds ++ behind) = ds := by
  have hall : ∀ d ∈ ds, decide (IsDigit base d) = true := fun d hd => decide_eq_true (hdigits d hd)
  have hnone : (behind.take (2 - ds.length)).takeWhile (fun d => decide (IsDigit base d)) = [] := by
    rcases Nat.lt_or_eq_of_le hlength with hless | htwo
    · cases behind with
      | nil => rw [List.take_nil, List.takeWhile_nil]
      | cons d more =>
        have hd : ¬IsDigit base d := hend hless d rfl
        obtain ⟨n, hn⟩ := Nat.exists_eq_succ_of_ne_zero (Nat.sub_ne_zero_of_lt hless)
        rw [hn, List.take_succ_cons, List.takeWhile_cons_of_neg (by simpa using hd)]
    · rw [htwo, Nat.sub_self, List.take_zero, List.takeWhile_nil]
  rw [leadingDigits, List.take_append, List.take_of_length_le hlength,
    List.takeWhile_append_of_pos hall, hnone, List.append_nil]

/-- What is taken as digits are all that there are, or two. -/
theorem exists_leadingDigits (base : Nat) (cs : List Char) :
    ∃ behind, cs = leadingDigits base cs ++ behind ∧
      (∀ d ∈ leadingDigits base cs, IsDigit base d) ∧ (leadingDigits base cs).length ≤ 2 ∧
      ((leadingDigits base cs).length < 2 → ∀ d, behind.head? = some d → ¬IsDigit base d) := by
  have hsplit := List.takeWhile_append_dropWhile (p := fun c => decide (IsDigit base c))
    (l := cs.take 2)
  refine ⟨(cs.take 2).dropWhile (fun c => decide (IsDigit base c)) ++ cs.drop 2, ?_, ?_, ?_, ?_⟩
  · rw [← List.append_assoc, leadingDigits, hsplit, List.take_append_drop]
  · intro d hd
    rw [leadingDigits] at hd
    simpa using List.mem_takeWhile_imp hd
  · exact Nat.le_trans (List.takeWhile_prefix _).length_le (List.length_take_le 2 cs)
  · intro hless d hd
    have hstop := List.head?_dropWhile_not (fun c => decide (IsDigit base c)) (cs.take 2)
    cases hbehind : (cs.take 2).dropWhile (fun c => decide (IsDigit base c)) with
    | nil =>
      -- All of fewer than two characters were taken, so that nothing stands behind them.
      rw [hbehind, List.append_nil] at hsplit
      rw [leadingDigits, hsplit, List.length_take] at hless
      rw [hbehind, List.nil_append, List.drop_eq_nil_of_le (by omega)] at hd
      cases hd
    | cons e more =>
      rw [hbehind] at hd hstop
      cases hd
      simpa using hstop

theorem escape_octal {ds : List Char} (hdigits : ∀ d ∈ ds, IsDigit 8 d) (hpos : 0 < ds.length)
    (hlength : ds.length ≤ 3)
    (hend : ds.length < 3 → ∀ d, behind.head? = some d → ¬IsDigit 8 d) :
    escape (ds ++ behind) = .ok (Char.ofNat (digitsValue 8 ds), ds.length) := by
  cases ds with
  | nil => exact absurd hpos (by decide)
  | cons c ds =>
    obtain ⟨hc, hrest⟩ := List.forall_mem_cons.mp hdigits
    rw [List.length_cons] at hlength hend
    have hleading := leadingDigits_of_isDigit hrest (by omega) fun hless => hend (by omega)
    rw [List.cons_append, escape, letterEscape?_of_number (.inl hc)]
    simp only
    rw [if_pos hc, hleading]

theorem escape_hexadecimal {mark : Char} {ds : List Char} (hmark : mark = 'x' ∨ mark = 'X')
    (hdigits : ∀ d ∈ ds, IsDigit 16 d) (hpos : 0 < ds.length) (hlength : ds.length ≤ 2)
    (hend : ds.length < 2 → ∀ d, behind.head? = some d → ¬IsDigit 16 d) :
    escape (mark :: (ds ++ behind)) = .ok (Char.ofNat (digitsValue 16 ds), 1 + ds.length) := by
  have hoctal : ¬IsDigit 8 mark := by rcases hmark with rfl | rfl <;> decide
  rw [escape, letterEscape?_of_number (.inr hmark)]
  simp only
  rw [if_neg hoctal, if_pos hmark, leadingDigits_of_isDigit hdigits hlength hend,
    if_neg (List.ne_nil_of_length_pos hpos)]

/-- A piece is read first, whatever stands behind it. -/
theorem body_piece (hquote : IsQuote quote) {piece : Piece quote} (h : piece.EndsBefore behind) :
    body quote (piece.written ++ behind) =
      prepend piece.meant piece.written.length (body quote behind) := by
  have hslash : '\\' ≠ quote := by rcases hquote with rfl | rfl <;> decide
  -- An escape by a number, given what is read behind the backslash.
  have hnumber {ds : List Char} {meant : Char}
      (hescape : escape (ds ++ behind) = .ok (meant, ds.length)) :
      body quote ('\\' :: ds ++ behind) =
        prepend meant ('\\' :: ds).length (body quote behind) := by
    rw [List.cons_append, body, if_neg (by decide), if_neg hslash, if_pos rfl, hescape]
    simp only
    rw [List.drop_left, List.length_cons, Nat.add_comm 1]
  cases piece with
  | plain c hother hplain hline => exact body_plain hline hother hplain behind
  | sign c meant hsign => exact body_letter hquote (letterEscape?_eq_some_iff.mpr hsign) behind
  | octal digits =>
    exact hnumber (escape_octal digits.isDigit digits.pos digits.length_le h)
  | hexadecimal mark hmark digits =>
    refine hnumber ?_
    rw [List.length_cons, Nat.add_comm]
    exact escape_hexadecimal hmark digits.isDigit digits.pos digits.length_le h

/-- An escape that is read is a piece, with its backslash in front. -/
theorem exists_piece_of_escape (quote : Char) (h : escape cs = .ok (meant, width)) :
    ∃ piece : Piece quote, ∃ behind, '\\' :: cs = piece.written ++ behind ∧
      piece.EndsBefore behind ∧ piece.meant = meant ∧ piece.written.length = 1 + width := by
  cases cs with
  | nil => cases h
  | cons c rest =>
    rw [escape] at h
    cases hletter : letterEscape? c with
    | some letter =>
      rw [hletter] at h
      cases h
      exact ⟨.sign c meant (letterEscape?_eq_some_iff.mp hletter), rest, rfl, trivial, rfl, rfl⟩
    | none =>
      simp only [hletter] at h
      by_cases hoctal : IsDigit 8 c
      · rw [if_pos hoctal] at h
        cases h
        obtain ⟨behind, hrest, hdigits, hlength, hend⟩ := exists_leadingDigits 8 rest
        refine ⟨.octal ⟨c :: leadingDigits 8 rest, List.forall_mem_cons.mpr ⟨hoctal, hdigits⟩,
          Nat.succ_pos _, Nat.succ_le_succ hlength⟩, behind, ?_, ?_, rfl, ?_⟩
        · simp only [Piece.written, List.cons_append]
          rw [← hrest]
        · exact fun hless => hend (Nat.lt_of_succ_lt_succ hless)
        · exact Nat.add_comm _ 1
      · rw [if_neg hoctal] at h
        by_cases hmark : c = 'x' ∨ c = 'X'
        · rw [if_pos hmark] at h
          by_cases hnone : leadingDigits 16 rest = []
          · rw [if_pos hnone] at h
            cases h
          · rw [if_neg hnone] at h
            cases h
            obtain ⟨behind, hrest, hdigits, hlength, hend⟩ := exists_leadingDigits 16 rest
            refine ⟨.hexadecimal c hmark ⟨leadingDigits 16 rest, hdigits,
              List.length_pos_iff.mpr hnone, hlength⟩, behind, ?_, hend, rfl, ?_⟩
            · simp only [Piece.written, List.cons_append]
              rw [← hrest]
            · simp only [Piece.written, List.length_cons]
              omega
        · rw [if_neg hmark] at h
          cases h

end Escapes

section Pieces

variable {pieces : List (Piece quote)} {behind more : List Char}

/-- A quote ends an escape like the end of the text. -/
theorem Digits.endBefore_append_quote (hquote : ¬IsDigit base quote) {digits : Digits base most} :
    digits.EndBefore (behind ++ quote :: more) ↔ digits.EndBefore behind := by
  refine forall_congr' fun _ => ?_
  cases behind with
  | nil => simp [hquote]
  | cons d rest => rfl

theorem Piece.endsBefore_append_quote (hquote : IsQuote quote) {piece : Piece quote} :
    piece.EndsBefore (behind ++ quote :: more) ↔ piece.EndsBefore behind := by
  have hoctal : ¬IsDigit 8 quote := by rcases hquote with rfl | rfl <;> decide
  have hhex : ¬IsDigit 16 quote := by rcases hquote with rfl | rfl <;> decide
  cases piece with
  | plain => exact Iff.rfl
  | sign => exact Iff.rfl
  | octal digits => exact Digits.endBefore_append_quote hoctal
  | hexadecimal mark hmark digits => exact Digits.endBefore_append_quote hhex

/-- Pieces that fit are read one after the other up to the closing quote. -/
theorem body_pieces (hquote : IsQuote quote) (h : Fit pieces) (more : List Char) :
    body quote (written pieces ++ quote :: more) =
      .ok (pieces.map Piece.meant, (written pieces).length + 1) := by
  induction pieces with
  | nil =>
    have hline : quote ≠ '\n' := by rcases hquote with rfl | rfl <;> decide
    rw [written, List.flatMap_nil, List.nil_append, body, if_neg hline, if_pos rfl]
    rfl
  | cons piece rest ih =>
    have hends : piece.EndsBefore (written rest ++ quote :: more) :=
      (Piece.endsBefore_append_quote hquote).mpr h.1
    have hread := body_piece hquote hends
    rw [ih h.2] at hread
    rw [written, List.flatMap_cons, List.append_assoc]
    rw [written] at hread
    rw [hread, List.length_append, Nat.add_assoc]
    rfl

/-- What is read between quotes is put together from pieces that fit. -/
theorem exists_pieces_of_body (hquote : IsQuote quote) {cs decoded : List Char} {width : Nat}
    (h : body quote cs = .ok (decoded, width)) :
    ∃ pieces : List (Piece quote), ∃ behind, Fit pieces ∧
      cs = written pieces ++ quote :: behind ∧ decoded = pieces.map Piece.meant := by
  match cs with
  | [] =>
    rw [body] at h
    cases h
  | c :: rest =>
    rw [body] at h
    by_cases hline : c = '\n'
    · rw [if_pos hline] at h
      cases h
    rw [if_neg hline] at h
    by_cases hclose : c = quote
    · rw [if_pos hclose] at h
      cases h
      exact ⟨[], rest, trivial, by rw [hclose]; rfl, rfl⟩
    rw [if_neg hclose] at h
    by_cases hescape : c = '\\'
    · rw [if_pos hescape] at h
      cases hmeant : escape rest with
      | error fault =>
        rw [hmeant] at h
        cases h
      | ok found =>
        obtain ⟨meant, taken⟩ := found
        simp only [hmeant] at h
        obtain ⟨inner, others, hinner, rfl, rfl⟩ := prepend_eq_ok h
        obtain ⟨piece, tail, hpiece, hends, rfl, hlength⟩ := exists_piece_of_escape quote hmeant
        have htail : rest.drop taken = tail := by
          have hdrop := congrArg (List.drop (1 + taken)) hpiece
          rw [← hlength, List.drop_left, hlength, Nat.add_comm, List.drop_succ_cons] at hdrop
          exact hdrop
        have hless : (rest.drop taken).length < (c :: rest).length := by
          rw [List.length_drop, List.length_cons]
          omega
        obtain ⟨pieces, behind, hfit, hrest, rfl⟩ := exists_pieces_of_body hquote hinner
        rw [htail] at hrest
        rw [hrest] at hends hpiece
        refine ⟨piece :: pieces, behind, ⟨(Piece.endsBefore_append_quote hquote).mp hends, hfit⟩,
          ?_, rfl⟩
        rw [hescape, hpiece, written, written, List.flatMap_cons, List.append_assoc]
    · rw [if_neg hescape] at h
      obtain ⟨inner, others, hinner, rfl, rfl⟩ := prepend_eq_ok h
      obtain ⟨pieces, behind, hfit, hrest, rfl⟩ := exists_pieces_of_body hquote hinner
      exact ⟨.plain c hclose hescape hline :: pieces, behind, ⟨trivial, hfit⟩,
        by rw [hrest]; rfl, rfl⟩
termination_by cs.length

end Pieces

end Literal

namespace Scanned

open Literal (IsQuote Fit written decoded)

/-- A literal is found whole, with the characters of its pieces. -/
theorem first_pieces {quote : Char} (hquote : IsQuote quote) {pieces : List (Literal.Piece quote)}
    (h : Fit pieces) (more : List Char) :
    first quote (written pieces ++ quote :: more) =
      .lexeme (.literal (decoded pieces)) ((written pieces).length + 2) := by
  rw [first_of_quote hquote, literal, Literal.body_pieces hquote h]
  exact congrArg _ (Nat.add_comm 1 _)

/-- A literal that is found is put together from pieces that fit. -/
theorem exists_pieces_of_first {c : Char} {rest : List Char} {value : String} {width : Nat}
    (h : first c rest = .lexeme (.literal value) width) :
    IsQuote c ∧ ∃ pieces : List (Literal.Piece c), ∃ behind, Fit pieces ∧
      rest = written pieces ++ c :: behind ∧ value = decoded pieces := by
  cases starts_of_first h with
  | literal hquote hbody =>
    obtain ⟨pieces, behind, hfit, hrest, rfl⟩ := Literal.exists_pieces_of_body hquote hbody
    exact ⟨hquote, pieces, behind, hfit, hrest, rfl⟩

end Scanned

namespace Token

open Literal (IsQuote Fit written decoded)

/-- Pieces that fit make a literal between two quotes. It is read first and whole, to the
characters that the pieces mean, and what follows it is read from behind it; an escape by a
number means the character of just that number. The other way round, wherever a text that is
read has a literal, it has two such quotes with pieces that fit between them, and the literal
holds the characters that they mean. -/
theorem literals_decode_piecewise :
    (∀ {quote : Char} {pieces : List (Literal.Piece quote)}, IsQuote quote → Fit pieces →
      (∀ (place : Position) (more : List Char),
        readFrom place (quote :: (written pieces ++ quote :: more)) =
          (readFrom (place.after (quote :: (written pieces ++ [quote]))) more).map
            (prepend ⟨.literal (decoded pieces), place⟩)) ∧
      ∀ piece ∈ pieces, ∀ n, piece.number? = some n → piece.meant.toNat = n) ∧
    ∀ {text : String} {tokens : List Token} {stop : Position},
      read text = .ok (tokens, stop) →
      ∀ {value : String} {place : Position}, ⟨.literal value, place⟩ ∈ tokens →
        ∃ (quote : Char) (pieces : List (Literal.Piece quote)) (front back : List Char),
          IsQuote quote ∧ Fit pieces ∧
          text.toList = front ++ quote :: (written pieces ++ quote :: back) ∧
          place = .reached front ∧ value = decoded pieces := by
  constructor
  · intro quote pieces hquote hfit
    refine ⟨fun place more => ?_, fun piece _ n hn => Literal.Piece.toNat_meant hn⟩
    have hwhole : quote :: (written pieces ++ quote :: more) =
        quote :: (written pieces ++ [quote]) ++ more := by simp
    rw [hwhole]
    refine readFrom_found place ⟨quote, _, rfl, ?_⟩
    rw [List.append_assoc, List.singleton_append, Scanned.first_pieces hquote hfit]
    simp
  · intro text tokens stop hread value place hliteral
    obtain ⟨front, quote, rest, width, htext, hplace, hfirst⟩ := exists_first_of_mem hread hliteral
    obtain ⟨hquote, pieces, back, hfit, rfl, hvalue⟩ := Scanned.exists_pieces_of_first hfirst
    exact ⟨quote, pieces, front, back, hquote, hfit, htext,
      hplace.trans (Position.reached_after [] front), hvalue⟩

/-- An octal escape in front of a digit that it may not take, a hexadecimal one in front of a
letter that is no digit, and the other quote as it is. -/
theorem literals_decode_piecewise_escapes :
    let digits : Literal.Digits 8 3 := ⟨['1', '0', '1'], by simp; decide, by decide, by decide⟩
    let digit : Literal.Digits 16 2 := ⟨['9'], by simp; decide, by decide, by decide⟩
    let pieces : List (Literal.Piece '"') :=
      [.octal digits, .plain '7' (by decide) (by decide) (by decide),
        .hexadecimal 'X' (.inr rfl) digit, .plain 'g' (by decide) (by decide) (by decide),
        .plain '\x27' (by decide) (by decide) (by decide), .sign '"' '"' (by decide)]
    let text := "\"\\1017\\X9g'\\\"\";"
    let tokens : List Token := [⟨.literal "A7\tg'\"", ⟨1, 1⟩⟩, ⟨.mark ';', ⟨1, 15⟩⟩]
    (IsQuote '"' ∧ Fit pieces ∧ read text = .ok (tokens, ⟨1, 16⟩)) ∧
      readFrom .start ('"' :: (written pieces ++ '"' :: [';'])) =
        (readFrom (Position.start.after ('"' :: (written pieces ++ ['"']))) [';']).map
          (prepend ⟨.literal (decoded pieces), .start⟩) ∧
      ∃ (quote : Char) (pieces : List (Literal.Piece quote)) (front back : List Char),
        IsQuote quote ∧ Fit pieces ∧
        text.toList = front ++ quote :: (written pieces ++ quote :: back) ∧
        ⟨1, 1⟩ = Position.reached front ∧ "A7\tg'\"" = decoded pieces := by
  intro digits digit pieces text tokens
  have hquote : IsQuote '"' := .inl rfl
  have hfit : Fit pieces := by
    refine ⟨fun hless => absurd hless (by decide), trivial, fun _ d hd => ?_, trivial, trivial,
      trivial, trivial⟩
    cases hd
    decide
  have hread : read text = .ok (tokens, ⟨1, 16⟩) := by decide +kernel
  exact ⟨⟨hquote, hfit, hread⟩, (literals_decode_piecewise.1 hquote hfit).1 .start [';'],
    literals_decode_piecewise.2 hread List.mem_cons_self⟩

end Token

end ProtoSchema
