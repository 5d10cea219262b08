import ProtoSchema.Proofs.Token.Pieces
import ProtoSchema.Proofs.Token.Runs

/-!
A number of a text replaced by another one. What the scanner finds in front of a number ends
before the number does start, and it does not depend on which number that is. So a text is cut
into the same tokens in front of the number, whatever number stands there, and behind it the
tokens are the same at shifted places.
-/

namespace ProtoSchema

variable {c d d' : Char} {cs front xs rest more : List Char} {width : Nat}

theorem exists_append_of_le {as bs : List Char} (h : xs ++ more = as ++ bs)
    (hlength : as.length ≤ xs.length) : ∃ ys, xs = as ++ ys := by
  have hprefix : as <+: xs ++ more := h ▸ List.prefix_append as bs
  obtain ⟨ys, hys⟩ := List.prefix_of_prefix_length_le hprefix (List.prefix_append xs more) hlength
  exact ⟨ys, hys.symm⟩

namespace Numeral

/-- A run that ends in front of a digit ends somewhere before it. -/
theorem length_takeRun_lt {hex exponent : Bool} (hd : d.isDigit = true)
    (h : (takeRun hex exponent (xs ++ d :: more)).length ≤ xs.length) :
    (takeRun hex exponent xs).length < xs.length := by
  induction xs generalizing exponent with
  | nil =>
    have htaken : (d.isAlphanum || d == '_' || d == '.' ||
        exponent && (d == '+' || d == '-')) = true := by
      simp [Char.isAlphanum, hd]
    rw [List.nil_append, takeRun, if_pos htaken] at h
    simp at h
  | cons c xs ih =>
    rw [List.cons_append, takeRun] at h
    rw [takeRun]
    split
    · next htaken =>
      rw [if_pos htaken, List.length_cons, List.length_cons] at h
      exact Nat.succ_lt_succ (ih (Nat.le_of_succ_le_succ h))
    · exact Nat.succ_pos _

theorem run_before_digit (hd : d.isDigit = true) (hpos : 0 < (run (xs ++ d :: more)).length)
    (h : (run (xs ++ d :: more)).length ≤ xs.length) (other : List Char) :
    run (xs ++ other) = run (xs ++ d :: more) := by
  have hless := length_takeRun_lt hd h
  have hsame := takeRun_append hless
  rw [run, hsame] at hpos
  have hlong : 2 ≤ xs.length := by omega
  rw [isHex_append hlong] at hless
  rw [run, run, isHex_append hlong, isHex_append hlong, takeRun_append hless, takeRun_append hless]

def Ends (back : List Char) : Prop :=
  ∀ d, back.head? = some d → (d.isAlphanum || d == '_' || d == '.') = false

theorem ends_of_takeRun {hex exponent : Bool} (h : takeRun hex exponent (cs ++ more) = cs) :
    Ends more := by
  induction cs generalizing exponent with
  | nil =>
    intro d hd
    cases more with
    | nil => cases hd
    | cons e rest =>
      cases hd
      rw [List.nil_append, takeRun] at h
      split at h
      · cases h
      · next hstop =>
        rw [Bool.or_eq_true, not_or, Bool.not_eq_true] at hstop
        exact hstop.1
  | cons c cs ih =>
    rw [List.cons_append, takeRun] at h
    split at h
    · exact ih (List.cons.inj h).2
    · cases h

theorem takeRun_ends {hex : Bool} (hcs : ∀ c ∈ cs, c.isAlphanum = true)
    (hmarks : hex = true ∨ ∀ c ∈ cs, isExponentMark c = false) (hmore : Ends more) :
    takeRun hex false (cs ++ more) = cs := by
  induction cs with
  | nil =>
    cases more with
    | nil => rfl
    | cons d rest =>
      have hd := hmore d rfl
      rw [List.nil_append, takeRun, if_neg (by simpa using hd)]
  | cons c cs ih =>
    obtain ⟨hc, hrest⟩ := List.forall_mem_cons.mp hcs
    have hnext : (!hex && isExponentMark c) = false := by
      rcases hmarks with rfl | hmarks
      · rfl
      · rw [hmarks c List.mem_cons_self, Bool.and_false]
    have hmarks' := hmarks.imp_right fun h d hd => h d (List.mem_cons_of_mem c hd)
    rw [List.cons_append, takeRun, if_pos (by simp [hc]), hnext, ih hrest hmarks']

theorem isHex_ends (hne : cs ≠ []) (hmore : Ends more) : isHex (cs ++ more) = isHex cs := by
  match cs with
  | [c] =>
    cases more with
    | nil => rfl
    | cons d rest =>
      have hd := hmore d rfl
      have hx : d ≠ 'x' ∧ d ≠ 'X' := by
        refine ⟨?_, ?_⟩ <;> rintro rfl <;> exact absurd hd (by decide)
      simp [isHex, List.isPrefixOf, hx.1.symm, hx.2.symm]
  | c :: d :: others => exact isHex_append (by simp) _

/-- A spelling is a whole run where no run goes on behind it. -/
theorem Spells.run_eq {n : Nat} (h : Spells n cs) (hmore : Ends more) : run (cs ++ more) = cs := by
  obtain ⟨d, ds, hcs, _⟩ := h.head_isDigit
  have hmarks : isHex cs = true ∨ ∀ c ∈ cs, isExponentMark c = false := by
    have hplain := h.not_fraction
    rw [Bool.and_eq_false_iff, Bool.not_eq_false', List.any_eq_false] at hplain
    refine hplain.imp_right fun hplain c hc => ?_
    have hmark := hplain c hc
    rw [Bool.or_eq_true, not_or] at hmark
    exact Bool.eq_false_iff.mpr hmark.2
  rw [run, isHex_ends (by simp [hcs]) hmore]
  exact takeRun_ends h.isAlphanum hmarks hmore

end Numeral

namespace Scanned

theorem takeWhile_before {p : Char → Bool} (hd : p d = true)
    (h : ((xs ++ d :: more).takeWhile p).length ≤ xs.length) (other : List Char) :
    (xs ++ other).takeWhile p = (xs ++ d :: more).takeWhile p := by
  have hless : (xs.takeWhile p).length < xs.length := by
    by_contra hall
    have hwhole : (xs.takeWhile p).length = xs.length :=
      Nat.le_antisymm (List.takeWhile_sublist p).length_le (Nat.le_of_not_lt hall)
    rw [List.takeWhile_append, if_pos hwhole, List.takeWhile_cons_of_pos hd, List.length_append,
      List.length_cons] at h
    omega
  rw [takeWhile_append hless, takeWhile_append hless]

theorem commentWidth?_before (h : commentWidth? (xs ++ more) = some width)
    (hwidth : width ≤ xs.length) (other : List Char) :
    commentWidth? (xs ++ other) = some width := by
  obtain ⟨comment, behind, hcs, hopen, rfl⟩ := exists_of_commentWidth? h
  have hwhole : xs ++ more = (comment ++ ['*', '/']) ++ behind := by
    rw [hcs, List.append_assoc]
    rfl
  obtain ⟨ys, rfl⟩ := exists_append_of_le hwhole (by simpa using hwidth)
  rw [List.append_assoc, List.append_assoc]
  exact commentWidth?_of_not_infix hopen _

/-- A literal that is closed before the place is the same whatever stands there. -/
theorem body_before {quote : Char} {decoded : List Char} (hquote : Literal.IsQuote quote)
    (hbody : Literal.body quote (xs ++ more) = .ok (decoded, width)) (hwidth : width ≤ xs.length)
    (other : List Char) : Literal.body quote (xs ++ other) = .ok (decoded, width) := by
  obtain ⟨pieces, behind, hfit, htext, rfl⟩ := Literal.exists_pieces_of_body hquote hbody
  have hread := Literal.body_pieces hquote hfit behind
  rw [← htext, hbody] at hread
  cases hread
  have hwhole : xs ++ more = (Literal.written pieces ++ [quote]) ++ behind := by
    rw [htext, List.append_assoc]
    rfl
  obtain ⟨ys, rfl⟩ := exists_append_of_le hwhole (by simpa using hwidth)
  rw [List.append_assoc, List.append_assoc, List.singleton_append,
    Literal.body_pieces hquote hfit]

/-- What ends in front of a number is found in front of any other number. -/
theorem first_before_digit (hd : d.isDigit = true) (hd' : d'.isDigit = true)
    (hclean : ∀ found offset, first c (xs ++ d :: more) ≠ .fault found offset)
    (hwidth : (first c (xs ++ d :: more)).width ≤ xs.length + 1) (more' : List Char) :
    first c (xs ++ d' :: more') = first c (xs ++ d :: more) := by
  have hslash (e : Char) (he : e.isDigit = false) :
      c = '/' ∧ (xs ++ d' :: more').head? = some e ↔
        c = '/' ∧ (xs ++ d :: more).head? = some e := by
    have hne {a : Char} (ha : a.isDigit = true) : a ≠ e := by
      rintro rfl
      rw [ha] at he
      cases he
    cases xs with
    | nil => simp [hne hd, hne hd']
    | cons x xs => exact Iff.rfl
  have hstartsNumber : StartsNumber c (xs ++ d' :: more') ↔ StartsNumber c (xs ++ d :: more) := by
    cases xs with
    | nil => simp [StartsNumber, hd, hd']
    | cons x xs => exact Iff.rfl
  have hrun (hpos : 0 < (Numeral.run (c :: (xs ++ d :: more))).length)
      (hwidth : (Numeral.run (c :: (xs ++ d :: more))).length ≤ xs.length + 1) :
      Numeral.run (c :: (xs ++ d :: more)) = Numeral.run (c :: (xs ++ d' :: more')) := by
    rw [← List.cons_append] at hpos hwidth
    exact (Numeral.run_before_digit hd hpos hwidth (d' :: more')).symm
  have hpos := width_first_pos c (xs ++ d :: more)
  have hstarts := starts_first c (xs ++ d :: more)
  generalize first c (xs ++ d :: more) = found at hclean hwidth hpos hstarts ⊢
  apply Starts.first_eq
  cases hstarts with
  | blank hblank => exact .blank hblank
  | line hline =>
    have hplain : decide (d ≠ '\n') = true := by
      refine decide_eq_true ?_
      rintro rfl
      exact absurd hd (by decide)
    simp only [width] at hwidth
    rw [← takeWhile_before hplain (by omega) (d' :: more')]
    exact .line ((hslash '/' rfl).mpr hline)
  | block hblock hend =>
    refine .block ((hslash '*' rfl).mpr hblock) ?_
    cases xs with
    | nil =>
      cases hblock.2
      exact absurd hd (by decide)
    | cons x ys =>
      simp only [width, List.length_cons] at hwidth
      exact commentWidth?_before hend (by omega) (d' :: more')
  | word hstart =>
    simp only [width, List.length_cons] at hwidth
    rw [← takeWhile_before (by simp [isWordChar, Char.isAlphanum, hd]) (by omega) (d' :: more')]
    exact .word hstart
  | integer hnumber hkind =>
    rw [hrun hpos hwidth] at hkind ⊢
    exact .integer (hstartsNumber.mpr hnumber) hkind
  | decimal hnumber hkind =>
    rw [hrun hpos hwidth] at hkind ⊢
    exact .decimal (hstartsNumber.mpr hnumber) hkind
  | literal hquote hbody =>
    simp only [width] at hwidth
    exact .literal hquote (body_before hquote hbody (by omega) _)
  | mark hmark hline hblock hnumber =>
    exact .mark hmark (mt (hslash '/' rfl).mp hline) (mt (hslash '*' rfl).mp hblock)
      (mt hstartsNumber.mp hnumber)
  | _ => exact absurd rfl (hclean _ _)

end Scanned

namespace Token

open Scanned (first)

variable {place stop : Position} {tokens : List Token} {token : Token}

/-- What was taken before a token ends where the token starts, or before. -/
theorem width_le_of_mem
    (h : readFrom (place.after ((front ++ rest).take width)) ((front ++ rest).drop width) =
      .ok (tokens, stop)) (hrest : rest ≠ []) (htoken : token ∈ tokens)
    (hplace : token.position = place.after front) : width ≤ front.length := by
  by_contra hlong
  have hfrom := (wellRead h).from_place token htoken
  rw [hplace, List.take_append, List.take_of_length_le (by omega), Position.after_append] at hfrom
  refine hfrom (Position.before_after _ ?_)
  rw [ne_eq, List.take_eq_nil_iff]
  rintro (hzero | hnil)
  · omega
  · exact hrest hnil

/-- In front of a token that starts with a digit a text is cut into the same tokens whatever
number stands there. -/
theorem exists_before_digit {place stop : Position} {front : List Char} {tokens : List Token}
    (hd : d.isDigit = true) (h : readFrom place (front ++ d :: rest) = .ok (tokens, stop))
    (htoken : token ∈ tokens) (hplace : token.position = place.after front) :
    ∃ before, ∀ d' more, d'.isDigit = true → readFrom place (front ++ d' :: more) =
      behind before (readFrom (place.after front) (d' :: more)) := by
  match front with
  | [] =>
    exact ⟨[], fun d' more _ => cuts_nil place (d' :: more)⟩
  | c :: xs =>
    have hpos := Scanned.width_first_pos c (xs ++ d :: rest)
    have hne : d :: rest ≠ [] := List.cons_ne_nil d rest
    have hsame (hclean : ∀ found offset, first c (xs ++ d :: rest) ≠ .fault found offset)
        (hwidth : (first c (xs ++ d :: rest)).width ≤ (c :: xs).length) (d' : Char)
        (more : List Char) (hd' : d'.isDigit = true) :
        first c (xs ++ d' :: more) = first c (xs ++ d :: rest) :=
      Scanned.first_before_digit hd hd' hclean hwidth more
    rw [List.cons_append] at h
    cases hfirst : first c (xs ++ d :: rest) with
    | gap width =>
      rw [readFrom_of_gap hfirst, ← List.cons_append] at h
      have hwidth := width_le_of_mem h hne htoken hplace
      rw [hfirst] at hpos hsame
      rw [List.take_append_of_le_length hwidth, List.drop_append_of_le_length hwidth] at h
      have hless : ((c :: xs).drop width).length < (c :: xs).length := by
        rw [List.length_drop]
        exact Nat.sub_lt (Nat.succ_pos _) hpos
      rw [← after_take_drop place (c :: xs) width] at hplace
      obtain ⟨before, hbefore⟩ := exists_before_digit hd h htoken hplace
      refine ⟨before, fun d' more hd' => ?_⟩
      rw [List.cons_append, readFrom_of_gap (hsame (by simp) hwidth d' more hd'),
        ← List.cons_append, List.take_append_of_le_length hwidth,
        List.drop_append_of_le_length hwidth, hbefore d' more hd', after_take_drop]
    | lexeme found width =>
      rw [readFrom_of_lexeme hfirst, ← List.cons_append] at h
      obtain ⟨others, hread, rfl⟩ := map_prepend_eq_ok h
      have htoken' : token ∈ others := by
        refine (List.mem_cons.mp htoken).resolve_left ?_
        rintro rfl
        have hlater := place.before_after (List.cons_ne_nil c xs)
        rw [← hplace] at hlater
        exact Position.not_before_self _ hlater
      have hwidth := width_le_of_mem hread hne htoken' hplace
      rw [hfirst] at hpos hsame
      rw [List.take_append_of_le_length hwidth, List.drop_append_of_le_length hwidth] at hread
      have hless : ((c :: xs).drop width).length < (c :: xs).length := by
        rw [List.length_drop]
        exact Nat.sub_lt (Nat.succ_pos _) hpos
      rw [← after_take_drop place (c :: xs) width] at hplace
      obtain ⟨before, hbefore⟩ := exists_before_digit hd hread htoken' hplace
      refine ⟨⟨found, place⟩ :: before, fun d' more hd' => ?_⟩
      rw [List.cons_append, readFrom_of_lexeme (hsame (by simp) hwidth d' more hd'),
        ← List.cons_append, List.take_append_of_le_length hwidth,
        List.drop_append_of_le_length hwidth, hbefore d' more hd', after_take_drop,
        map_prepend_behind]
    | fault found offset =>
      rw [readFrom_of_fault hfirst] at h
      cases h
termination_by front.length
decreasing_by all_goals exact hless

/-- The reading of a text comes to the characters: one token or gap after the other is found up
to them. -/
inductive ComesTo : List Char → List Char → Prop
  | here (cs : List Char) : ComesTo cs cs
  | gap {c : Char} {rest last : List Char} {width : Nat} (h : first c rest = .gap width)
      (hlast : ComesTo ((c :: rest).drop width) last) : ComesTo (c :: rest) last
  | lexeme {c : Char} {rest last : List Char} {found : Lexeme} {width : Nat}
      (h : first c rest = .lexeme found width) (hlast : ComesTo ((c :: rest).drop width) last) :
      ComesTo (c :: rest) last

theorem ComesTo.exists_front {last : List Char} (h : ComesTo cs last) : ∃ front,
    cs = front ++ last ∧ ∀ place, ∃ before,
      readFrom place cs = behind before (readFrom (place.after front) last) := by
  induction h with
  | here cs => exact ⟨[], rfl, fun place => ⟨[], cuts_nil place cs⟩⟩
  | @gap c rest last width h _ ih =>
    obtain ⟨front, hdrop, hread⟩ := ih
    refine ⟨(c :: rest).take width ++ front, ?_, fun place => ?_⟩
    · rw [List.append_assoc, ← hdrop, List.take_append_drop]
    · obtain ⟨before, hbefore⟩ := hread (place.after ((c :: rest).take width))
      exact ⟨before, by rw [readFrom_of_gap h, hbefore, Position.after_append]⟩
  | @lexeme c rest last found width h _ ih =>
    obtain ⟨front, hdrop, hread⟩ := ih
    refine ⟨(c :: rest).take width ++ front, ?_, fun place => ?_⟩
    · rw [List.append_assoc, ← hdrop, List.take_append_drop]
    · obtain ⟨before, hbefore⟩ := hread (place.after ((c :: rest).take width))
      refine ⟨⟨found, place⟩ :: before, ?_⟩
      rw [readFrom_of_lexeme h, hbefore, Position.after_append, map_prepend_behind]

/-- A run that is no number, or a number that does not fit in 64 bits, is rejected where it
starts. -/
theorem readFrom_run (hd : d.isDigit = true) (hrun : Numeral.run (d :: cs ++ more) = d :: cs)
    (hspells : ∀ n, Numeral.Spells n (d :: cs) → UInt64.size ≤ n)
    (hfraction : ¬Numeral.Fraction (d :: cs)) (place : Position) :
    ∃ fault, readFrom place (d :: cs ++ more) = .error ⟨place, fault⟩ := by
  have hfirst : first d (cs ++ more) = Scanned.numeral (d :: (cs ++ more)) :=
    Scanned.first_of_numeral (.inl hd)
  rw [Scanned.numeral, ← List.cons_append, hrun] at hfirst
  cases hkind : Numeral.kind (d :: cs) with
  | integer =>
    obtain ⟨n, hless, hn⟩ := Numeral.kind_eq_integer_iff.mp hkind
    exact absurd hless (Nat.not_lt_of_le (hspells n hn))
  | decimal => exact absurd (Numeral.kind_eq_decimal_iff.mp hkind) hfraction
  | badInteger =>
    simp only [hkind] at hfirst
    exact ⟨_, readFrom_of_fault hfirst⟩
  | badDecimal =>
    simp only [hkind] at hfirst
    exact ⟨_, readFrom_of_fault hfirst⟩

/-- A number that fits in 64 bits is read as the integer that was written. -/
theorem readFrom_spells {n : Nat} {written : String} (h : Numeral.Spells n written.toList)
    (hn : n < UInt64.size) (hmore : Numeral.Ends more) (place : Position) :
    readFrom place (written.toList ++ more) =
      (readFrom (place.after written.toList) more).map (prepend ⟨.integer written, place⟩) := by
  refine readFrom_found place ?_
  obtain ⟨d, ds, hds, hd⟩ := h.head_isDigit
  have hrun := h.run_eq hmore
  have hkind := Numeral.kind_eq_integer_iff.mpr ⟨n, hn, h⟩
  refine ⟨d, ds, hds, ?_⟩
  rw [Scanned.first_of_numeral (.inl hd), ← List.cons_append, ← hds, Scanned.numeral, hrun]
  simp only [hkind, String.ofList_toList]

/-- An integer of a text stands there as it is written, and spells a number. -/
theorem integer_of_first {written : String} (h : first c rest = .lexeme (.integer written) width) :
    ∃ back n, c :: rest = written.toList ++ back ∧ Numeral.Spells n written.toList ∧
      n < UInt64.size ∧ Numeral.Ends back := by
  cases Scanned.starts_of_first h with
  | integer _ hkind =>
    obtain ⟨n, hn, hspells⟩ := Numeral.kind_eq_integer_iff.mp hkind
    obtain ⟨back, hback⟩ := Numeral.takeRun_isPrefix (Numeral.isHex (c :: rest)) false (c :: rest)
    rw [String.toList_ofList]
    refine ⟨back, n, hback.symm, hspells, hn, ?_⟩
    have hrun : Numeral.takeRun (Numeral.isHex (c :: rest)) false
        (Numeral.run (c :: rest) ++ back) = Numeral.run (c :: rest) :=
      congrArg (Numeral.takeRun (Numeral.isHex (c :: rest)) false) hback
    exact Numeral.ends_of_takeRun hrun

end Token

end ProtoSchema
