import ProtoSchema.Proofs.Token.Layout

/-!
Where tokens stand. A text that is read falls into the characters of its tokens, one token
behind the other, and into gaps of blanks and comments, and nothing is left over. What the
reading keeps is the place behind the characters taken so far. That place is told by those
characters alone: by the newlines among them and by what stands behind the last newline.
-/

namespace ProtoSchema

namespace Position

/-- The place that is reached behind the characters: its line by the newlines among them, its
column by the characters behind the last newline, or behind the start where there is none. -/
def reached (before : List Char) : Position :=
  ⟨1 + before.count '\n', 1 + (before.reverse.takeWhile (· ≠ '\n')).length⟩

example : reached "ab\n/*\n*/ ".toList = ⟨3, 4⟩ := by decide

theorem reached_step (before : List Char) (c : Char) :
    (reached before).step c = reached (before ++ [c]) := by
  unfold step reached
  by_cases hc : c = '\n'
  · rw [if_pos hc]
    simp [hc, Nat.add_assoc]
  · rw [if_neg hc]
    simp [hc, Nat.add_comm]

theorem reached_after (before cs : List Char) :
    (reached before).after cs = reached (before ++ cs) := by
  induction cs generalizing before with
  | nil => rw [List.append_nil]; rfl
  | cons c rest ih =>
    have hrest := ih (before ++ [c])
    rw [← reached_step, List.append_assoc] at hrest
    exact hrest

theorem reached_inj {front front' back back' : List Char} (h : front ++ back = front' ++ back')
    (hplace : reached front = reached front') : front = front' := by
  have hnil {front more : List Char} (hsame : reached front = reached (front ++ more)) :
      more = [] := by
    by_contra hne
    have hbefore := (reached front).before_after hne
    rw [reached_after, ← hsame] at hbefore
    exact not_before_self _ hbefore
  rcases List.append_eq_append_iff.mp h with ⟨more, rfl, _⟩ | ⟨more, rfl, _⟩
  · rw [hnil hplace, List.append_nil]
  · rw [hnil hplace.symm, List.append_nil]

end Position

namespace Lexeme

/-- The lexeme may stand in a text as the characters. Within its quotes a literal may be
written in many ways. -/
def StandsAs : Lexeme → List Char → Prop
  | .word s, cs | .integer s, cs | .decimal s, cs => cs = s.toList
  | .literal _, cs => ∃ quote inside, Literal.IsQuote quote ∧ cs = quote :: (inside ++ [quote])
  | .mark c, cs => cs = [c]

end Lexeme

/-- The characters, with `before` in front of them, are those of the tokens in their order
and of gaps around these. Only the last line comment of a text may lack the end of its line. -/
inductive Token.Covers : List Char → List Char → List Token → Prop
  | done {before : List Char} : Covers before [] []
  | unended {before comment : List Char} (h : '\n' ∉ comment) :
      Covers before ('/' :: '/' :: comment) []
  | gap {before gap rest : List Char} {tokens : List Token} (h : Gap gap)
      (hrest : Covers (before ++ gap) rest tokens) : Covers before (gap ++ rest) tokens
  | span {before span rest : List Char} {lexeme : Lexeme} {tokens : List Token}
      (hne : span ≠ []) (h : lexeme.StandsAs span)
      (hrest : Covers (before ++ span) rest tokens) :
      Covers before (span ++ rest) (⟨lexeme, .reached before⟩ :: tokens)

namespace Literal

/-- A literal that is read ends at its quote. -/
theorem exists_of_body {quote : Char} {cs decoded : List Char} {width : Nat}
    (h : body quote cs = .ok (decoded, width)) :
    ∃ inside behind, cs = inside ++ quote :: behind ∧ width = inside.length + 1 := by
  match cs with
  | [] =>
    rw [body] at h
    cases h
  | c :: rest =>
    rw [body] at h
    by_cases hline : c = '\n'
    · rw [if_pos hline] at h
      cases h
    rw [if_neg hline] at h
    by_cases hquote : c = quote
    · rw [if_pos hquote] at h
      cases h
      exact ⟨[], rest, by rw [hquote]; rfl, rfl⟩
    rw [if_neg hquote] at h
    by_cases hescape : c = '\\'
    · rw [if_pos hescape] at h
      cases hmeant : escape rest with
      | error fault =>
        rw [hmeant] at h
        cases h
      | ok found =>
        obtain ⟨meant, taken⟩ := found
        simp only [hmeant] at h
        obtain ⟨inner, others, hinner, rfl, rfl⟩ := prepend_eq_ok h
        have hless : (rest.drop taken).length < (c :: rest).length := by
          rw [List.length_drop, List.length_cons]
          omega
        obtain ⟨inside, behind, hdrop, rfl⟩ := exists_of_body hinner
        -- The quote stands behind the escape, so the escape ends in the text.
        have htaken : taken < rest.length := by
          by_contra hall
          rw [List.drop_eq_nil_of_le (Nat.le_of_not_lt hall)] at hdrop
          exact absurd hdrop.symm (List.append_ne_nil_of_right_ne_nil inside (by simp))
        refine ⟨c :: (rest.take taken ++ inside), behind, ?_, ?_⟩
        · rw [List.cons_append, List.append_assoc, ← hdrop, List.take_append_drop]
        · rw [List.length_cons, List.length_append, List.length_take_of_le (Nat.le_of_lt htaken)]
          omega
    · rw [if_neg hescape] at h
      obtain ⟨inner, others, hinner, rfl, rfl⟩ := prepend_eq_ok h
      obtain ⟨inside, behind, hrest, rfl⟩ := exists_of_body hinner
      refine ⟨c :: inside, behind, by rw [hrest]; rfl, ?_⟩
      rw [List.length_cons]
      omega
termination_by cs.length

end Literal

namespace Scanned

variable {c : Char} {rest : List Char} {width : Nat}

/-- A block comment goes up to its first end. -/
theorem exists_of_commentWidth? {cs : List Char} (h : commentWidth? cs = some width) :
    ∃ comment behind, cs = comment ++ '*' :: '/' :: behind ∧ ¬['*', '/'] <:+: comment ∧
      width = comment.length + 2 := by
  induction cs generalizing width with
  | nil => cases h
  | cons c rest ih =>
    cases rest with
    | nil => cases h
    | cons d tail =>
      rw [commentWidth?] at h
      by_cases hend : c = '*' ∧ d = '/'
      · rw [if_pos hend] at h
        cases h
        exact ⟨[], tail, by rw [hend.1, hend.2]; rfl, by simp, rfl⟩
      · rw [if_neg hend] at h
        obtain ⟨inner, hinner, rfl⟩ := Option.map_eq_some_iff.mp h
        obtain ⟨comment, behind, hrest, hopen, rfl⟩ := ih hinner
        refine ⟨c :: comment, behind, by rw [hrest]; rfl, fun hinfix => ?_, ?_⟩
        · rcases List.infix_cons_iff.mp hinfix with hstart | hlater
          · -- An end that starts at `c` would have been the first one.
            obtain ⟨others, hothers⟩ := hstart
            cases comment with
            | nil => simp at hothers
            | cons e tail' =>
              simp only [List.cons_append, List.nil_append, List.cons.injEq] at hothers hrest
              exact hend ⟨hothers.1.symm, hrest.1.trans hothers.2.1.symm⟩
          · exact hopen hlater
        · rw [List.length_cons]
          omega

/-- What is passed over is a blank or a comment, a line comment up to the end of its line. -/
theorem gap_of_first (h : first c rest = .gap width) :
    ∃ gap behind, c :: rest = gap ++ behind ∧ width = gap.length ∧
      (Gap gap ∨ ∃ comment, gap = '/' :: '/' :: comment ∧ '\n' ∉ comment ∧
        (behind = [] ∨ ∃ more, behind = '\n' :: more)) := by
  cases starts_of_first h with
  | blank hblank => exact ⟨[c], rest, rfl, rfl, .inl (.blank hblank)⟩
  | line hline =>
    obtain ⟨rfl, hslash⟩ := hline
    obtain ⟨tail, rfl⟩ := List.head?_eq_some_iff.mp hslash
    have hsplit := List.takeWhile_append_dropWhile (p := (· ≠ '\n')) (l := tail)
    have htaken : ('/' :: tail).takeWhile (· ≠ '\n') = '/' :: tail.takeWhile (· ≠ '\n') :=
      List.takeWhile_cons_of_pos rfl
    refine ⟨'/' :: '/' :: tail.takeWhile (· ≠ '\n'), tail.dropWhile (· ≠ '\n'), ?_, ?_,
      .inr ⟨_, rfl, fun hmem => ?_, ?_⟩⟩
    · rw [List.cons_append, List.cons_append, hsplit]
    · rw [htaken, Nat.add_comm 1]
      rfl
    · simpa using List.mem_takeWhile_imp hmem
    · cases hbehind : tail.dropWhile (· ≠ '\n') with
      | nil => exact .inl rfl
      | cons d more =>
        have hend := List.head?_dropWhile_not (· ≠ '\n') tail
        rw [hbehind] at hend
        have hd : d = '\n' := by simpa using hend
        exact .inr ⟨more, by rw [hd]⟩
  | block hblock hend =>
    obtain ⟨rfl, hstar⟩ := hblock
    obtain ⟨tail, rfl⟩ := List.head?_eq_some_iff.mp hstar
    obtain ⟨comment, behind, rfl, hopen, rfl⟩ := exists_of_commentWidth? hend
    refine ⟨_, behind, ?_, ?_, .inl (.block hopen)⟩
    · simp
    · simp only [List.length_cons, List.length_append, List.length_nil]
      omega

/-- What is found is written with the characters it takes. -/
theorem standsAs_of_first {found : Lexeme} (h : first c rest = .lexeme found width) :
    ∃ span behind, c :: rest = span ++ behind ∧ width = span.length ∧ found.StandsAs span := by
  have hrun := Numeral.takeRun_isPrefix (Numeral.isHex (c :: rest)) false (c :: rest)
  cases starts_of_first h with
  | word =>
    obtain ⟨behind, hbehind⟩ := List.takeWhile_prefix isWordChar (l := rest)
    exact ⟨_, behind, congrArg (c :: ·) hbehind.symm, rfl, String.toList_ofList.symm⟩
  | integer | decimal =>
    obtain ⟨behind, hbehind⟩ := hrun
    exact ⟨_, behind, hbehind.symm, rfl, String.toList_ofList.symm⟩
  | literal hquote hbody =>
    obtain ⟨inside, behind, rfl, rfl⟩ := Literal.exists_of_body hbody
    refine ⟨c :: (inside ++ [c]), behind, by simp, ?_, c, inside, hquote, rfl⟩
    simp only [List.length_cons, List.length_append, List.length_nil]
    omega
  | mark => exact ⟨[c], rest, rfl, rfl, rfl⟩

end Scanned

namespace Token

/-- What is read from behind some characters on covers the rest of the text. -/
theorem covers_of_readFrom (before : List Char) {cs : List Char} {tokens : List Token}
    {stop : Position} (h : readFrom (.reached before) cs = .ok (tokens, stop)) :
    Covers before cs tokens := by
  match cs with
  | [] =>
    rw [readFrom_nil] at h
    cases h
    exact .done
  | c :: rest =>
    have hpos := Scanned.width_first_pos c rest
    cases hfirst : Scanned.first c rest with
    | gap width =>
      rw [readFrom_of_gap hfirst] at h
      rw [hfirst, Scanned.width] at hpos
      obtain ⟨gap, behind, htext, rfl, hgap⟩ := Scanned.gap_of_first hfirst
      rw [htext, List.take_left, List.drop_left, Position.reached_after] at h
      have hlength := congrArg List.length htext
      rw [List.length_append] at hlength
      rw [htext]
      rcases hgap with hgap | ⟨comment, rfl, hcomment, rfl | ⟨more, rfl⟩⟩
      · have hless : behind.length < (c :: rest).length := by omega
        exact .gap hgap (covers_of_readFrom (before ++ gap) h)
      · rw [readFrom_nil] at h
        cases h
        rw [List.append_nil]
        exact .unended hcomment
      · -- The end of the line is a blank of its own to the reading, and part of the gap here.
        rw [readFrom_blank rfl, Position.reached_step, List.append_assoc] at h
        have hless : more.length < (c :: rest).length := by
          simp only [List.length_cons] at hlength ⊢
          omega
        have hwhole := Covers.gap (.line hcomment) (covers_of_readFrom _ h)
        simpa using hwhole
    | lexeme found width =>
      rw [readFrom_of_lexeme hfirst] at h
      rw [hfirst, Scanned.width] at hpos
      obtain ⟨span, behind, htext, rfl, hspan⟩ := Scanned.standsAs_of_first hfirst
      rw [htext, List.take_left, List.drop_left, Position.reached_after] at h
      have hless : behind.length < (c :: rest).length := by
        rw [htext, List.length_append]
        omega
      obtain ⟨others, hread, rfl⟩ := map_prepend_eq_ok h
      rw [htext]
      exact .span (List.length_pos_iff.mp hpos) hspan (covers_of_readFrom _ hread)
    | fault found offset =>
      rw [readFrom_of_fault hfirst] at h
      cases h
termination_by cs.length
decreasing_by all_goals exact hless

/-- Each token was found at the start of what the text still holds at its place. -/
theorem exists_first_of_mem {place stop : Position} {cs : List Char} {tokens : List Token}
    (h : readFrom place cs = .ok (tokens, stop)) {token : Token} (htoken : token ∈ tokens) :
    ∃ front c rest width, cs = front ++ c :: rest ∧ token.position = place.after front ∧
      Scanned.first c rest = .lexeme token.lexeme width := by
  induction place, cs using readFrom.induct generalizing tokens with
  | case1 place =>
    rw [readFrom_nil] at h
    cases h
    cases htoken
  | case2 place c rest width hgap ih =>
    rw [readFrom_of_gap hgap] at h
    obtain ⟨front, d, more, taken, hcs, hplace, hfirst⟩ := ih h htoken
    refine ⟨(c :: rest).take width ++ front, d, more, taken, ?_, ?_, hfirst⟩
    · rw [List.append_assoc, ← hcs, List.take_append_drop]
    · rw [hplace, Position.after_append]
  | case3 place c rest found width hlexeme ih =>
    rw [readFrom_of_lexeme hlexeme] at h
    obtain ⟨others, hread, rfl⟩ := map_prepend_eq_ok h
    rcases List.mem_cons.mp htoken with rfl | hothers
    · exact ⟨[], c, rest, width, rfl, rfl, hlexeme⟩
    · obtain ⟨front, d, more, taken, hcs, hplace, hfirst⟩ := ih hread hothers
      refine ⟨(c :: rest).take width ++ front, d, more, taken, ?_, ?_, hfirst⟩
      · rw [List.append_assoc, ← hcs, List.take_append_drop]
      · rw [hplace, Position.after_append]
  | case4 place c rest found offset hfault =>
    rw [readFrom_of_fault hfault] at h
    cases h

/-- A text that is read falls into the characters of its tokens and the gaps around them, each
token at the place behind all that stands in front of it. The text ends behind all its
characters, and the places go up from token to token and to the end. -/
theorem tokens_cover_text {text : String} {tokens : List Token} {stop : Position}
    (h : read text = .ok (tokens, stop)) :
    Covers [] text.toList tokens ∧ stop = .reached text.toList ∧
      (tokens.Pairwise fun a b => a.position.Before b.position) ∧
      ∀ token ∈ tokens, token.position.Before stop := by
  refine ⟨covers_of_readFrom [] h, ?_, (wellRead h).pairwise, before_stop h⟩
  rw [(wellRead h).stop_eq]
  exact Position.reached_after [] text.toList

/-- A comment over three lines, a literal with an escape, and a comment at the very end. -/
theorem tokens_cover_text_comments :
    let text := "a/*\n\n*/ '\\x41b';// end"
    let tokens : List Token :=
      [⟨.word "a", ⟨1, 1⟩⟩, ⟨.literal "Ab", ⟨3, 4⟩⟩, ⟨.mark ';', ⟨3, 11⟩⟩]
    read text = .ok (tokens, ⟨3, 18⟩) ∧
      Covers [] text.toList tokens ∧ ⟨3, 18⟩ = Position.reached text.toList ∧
      (tokens.Pairwise fun a b => a.position.Before b.position) ∧
      ∀ token ∈ tokens, token.position.Before ⟨3, 18⟩ := by
  intro text tokens
  have hread : read text = .ok (tokens, ⟨3, 18⟩) := by decide +kernel
  exact ⟨hread, tokens_cover_text hread⟩

end Token

end ProtoSchema
