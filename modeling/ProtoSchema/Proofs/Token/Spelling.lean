import ProtoSchema.Proofs.Token.Reading

/-!
Lexemes written out. Every lexeme that can stand in a text has a spelling, and a text of such
spellings with single blanks between them is read as the lexemes again. A blank ends whatever
stands before it, so a lexeme is found by its own spelling, whichever lexemes follow.
-/

namespace ProtoSchema

namespace Literal

def escaped (c : Char) : List Char :=
  if c = '\n' then ['\\', 'n']
  else if c = '"' ∨ c = '\\' then ['\\', c]
  else [c]

def escapedBy (quote c : Char) : List Char :=
  if c = '\n' then ['\\', 'n']
  else if c = quote ∨ c = '\\' then ['\\', c]
  else [c]

theorem escapedBy_double : escapedBy '"' = escaped := rfl

def IsQuote (quote : Char) : Prop := quote = '"' ∨ quote = '\x27'

variable {quote : Char}

theorem body_plain {c : Char} (hline : c ≠ '\n') (hquote : c ≠ quote) (hslash : c ≠ '\\')
    (rest : List Char) : body quote (c :: rest) = prepend c 1 (body quote rest) := by
  rw [body, if_neg hline, if_neg hquote, if_neg hslash]

theorem body_letter (hquote : IsQuote quote) {c meant : Char} (h : letterEscape? c = some meant)
    (rest : List Char) : body quote ('\\' :: c :: rest) = prepend meant 2 (body quote rest) := by
  have hslash : '\\' ≠ quote := by rcases hquote with rfl | rfl <;> decide
  rw [body, if_neg (by decide), if_neg hslash, if_pos rfl, escape, h]
  rfl

theorem body_escapedBy (hquote : IsQuote quote) (c : Char) (rest : List Char) :
    body quote (escapedBy quote c ++ rest) =
      prepend c (escapedBy quote c).length (body quote rest) := by
  have hself : letterEscape? quote = some quote := by rcases hquote with rfl | rfl <;> rfl
  unfold escapedBy
  split
  · next hline =>
    subst hline
    exact body_letter hquote rfl rest
  · split
    · next hsign =>
      rcases hsign with rfl | rfl
      · exact body_letter hquote hself rest
      · exact body_letter hquote rfl rest
    · next hline hsign =>
      obtain ⟨hother, hslash⟩ := not_or.mp hsign
      exact body_plain hline hother hslash rest

/-- A string is read up to its closing quote. -/
theorem body_flatMap_escapedBy (hquote : IsQuote quote) (value more : List Char) :
    body quote (value.flatMap (escapedBy quote) ++ quote :: more) =
      .ok (value, (value.flatMap (escapedBy quote)).length + 1) := by
  induction value with
  | nil =>
    have hline : quote ≠ '\n' := by rcases hquote with rfl | rfl <;> decide
    rw [List.flatMap_nil, List.nil_append, body, if_neg hline, if_pos rfl]
    rfl
  | cons c rest ih =>
    rw [List.flatMap_cons, List.append_assoc, body_escapedBy hquote, ih, List.length_append,
      Nat.add_assoc]
    rfl

end Literal

namespace Numeral

theorem takeRun_apart {hex exponent : Bool} {cs more : List Char} (hmore : Apart more)
    (h : takeRun hex exponent cs = cs) : takeRun hex exponent (cs ++ more) = cs := by
  induction cs generalizing exponent with
  | nil =>
    rcases hmore with rfl | ⟨blank, rest, rfl, hblank⟩
    · rfl
    · have hstop : (blank.isAlphanum || blank == '_' || blank == '.' ||
          exponent && (blank == '+' || blank == '-')) = false := by
        simp [Scanned.isAlphanum_of_isBlank hblank, Scanned.ne_of_isBlank hblank (d := '_') rfl,
          Scanned.ne_of_isBlank hblank (d := '.') rfl, Scanned.ne_of_isBlank hblank (d := '+') rfl,
          Scanned.ne_of_isBlank hblank (d := '-') rfl]
      rw [List.nil_append, takeRun, if_neg (Bool.eq_false_iff.mp hstop)]
  | cons c cs ih =>
    rw [takeRun] at h
    split at h
    · next htaken =>
      rw [List.cons_append, takeRun, if_pos htaken, ih (List.cons.inj h).2]
    · cases h

theorem isHex_apart {cs more : List Char} (hmore : Apart more) : isHex (cs ++ more) = isHex cs := by
  rcases hmore with rfl | ⟨blank, rest, rfl, hblank⟩
  · rw [List.append_nil]
  · match cs with
    | [] => simp [isHex, List.isPrefixOf, (Scanned.ne_of_isBlank hblank (d := '0') rfl).symm]
    | [c] =>
      simp [isHex, List.isPrefixOf, (Scanned.ne_of_isBlank hblank (d := 'x') rfl).symm,
        (Scanned.ne_of_isBlank hblank (d := 'X') rfl).symm]
    | c :: d :: others => exact isHex_append (by simp) _

theorem run_apart {cs more : List Char} (hmore : Apart more) (h : run cs = cs) :
    run (cs ++ more) = cs := by
  rw [run, isHex_apart hmore]
  exact takeRun_apart hmore h

theorem takeRun_of_isAlphanum {hex exponent : Bool} {cs : List Char}
    (h : ∀ c ∈ cs, c.isAlphanum = true) : takeRun hex exponent cs = cs := by
  induction cs generalizing exponent with
  | nil => rfl
  | cons c cs ih =>
    have hc := h c List.mem_cons_self
    rw [takeRun, if_pos (by simp [hc]), ih fun d hd => h d (List.mem_cons_of_mem c hd)]

end Numeral

namespace Scanned

def IsNumeral (kind : Numeral.Kind) (written : String) : Prop :=
  ∃ c cs, written = String.ofList (c :: cs) ∧
    (c.isDigit ∨ c = '.' ∧ cs.head?.any Char.isDigit) ∧
    Numeral.run (c :: cs) = c :: cs ∧ Numeral.kind (c :: cs) = kind

variable {c : Char} {cs more : List Char}

theorem first_numeral_apart (hmore : Apart more) (hstart : StartsNumber c cs)
    (hrun : Numeral.run (c :: cs) = c :: cs) : first c (cs ++ more) = numeral (c :: cs) := by
  have hbehind : StartsNumber c (cs ++ more) := by
    refine hstart.imp_right fun ⟨hdot, hdigit⟩ => ⟨hdot, ?_⟩
    cases cs with
    | nil => cases hdigit
    | cons d others => exact hdigit
  rw [first_of_numeral hbehind, numeral, numeral, ← List.cons_append,
    Numeral.run_apart hmore hrun, hrun]

theorem first_literal {quote : Char} (hquote : Literal.IsQuote quote) (value more : List Char) :
    first quote (value.flatMap (Literal.escapedBy quote) ++ quote :: more) =
      .lexeme (.literal (String.ofList value))
        ((value.flatMap (Literal.escapedBy quote)).length + 2) := by
  rw [first_of_quote hquote, literal, Literal.body_flatMap_escapedBy hquote]
  exact congrArg _ (Nat.add_comm 1 _)

theorem first_mark_apart (hmore : Apart more) (hc : c ∈ marks) :
    first c more = .lexeme (.mark c) 1 := by
  have hmarks : (marks.all fun c => !c.isDigit) = true := rfl
  have hdigit : ¬c.isDigit = true := by simpa using List.all_eq_true.mp hmarks c hc
  -- What stands behind the mark is a blank, if anything does.
  have hblank (d : Char) (h : more.head? = some d) : Text.isBlank d = true := by
    rcases hmore with rfl | ⟨blank, rest, rfl, hblank⟩
    · cases h
    · cases h
      exact hblank
  have hplain (d : Char) (hd : Text.isBlank d = false) : ¬(c = '/' ∧ more.head? = some d) :=
    fun h => ne_of_isBlank (hblank d h.2) hd rfl
  have hnumber : ¬StartsNumber c more := by
    rintro (h | ⟨_, h⟩)
    · exact hdigit h
    · obtain ⟨d, hhead, hd⟩ := (Option.any_eq_true _ _).mp h
      exact not_isBlank_of_isDigit hd (hblank d hhead)
  exact (Starts.mark hc (hplain '/' rfl) (hplain '*' rfl) hnumber).first_eq

end Scanned

namespace Lexeme

def Readable : Lexeme → Prop
  | .word name => Scanned.IsWord name
  | .integer written => Scanned.IsNumeral .integer written
  | .decimal written => Scanned.IsNumeral .decimal written
  | .literal _ => True
  | .mark c => c ∈ Scanned.marks

def AllReadable (lexemes : List Lexeme) : Prop := ∀ lexeme ∈ lexemes, lexeme.Readable

@[simp] theorem allReadable_nil : AllReadable [] := List.forall_mem_nil _

@[simp] theorem allReadable_cons {lexeme : Lexeme} {lexemes : List Lexeme} :
    AllReadable (lexeme :: lexemes) ↔ lexeme.Readable ∧ AllReadable lexemes :=
  List.forall_mem_cons

@[simp] theorem allReadable_append {lexemes more : List Lexeme} :
    AllReadable (lexemes ++ more) ↔ AllReadable lexemes ∧ AllReadable more :=
  List.forall_mem_append

@[simp] theorem allReadable_flatMap {ι : Type} {items : List ι} {written : ι → List Lexeme} :
    AllReadable (items.flatMap written) ↔ ∀ x ∈ items, AllReadable (written x) := by
  simp only [AllReadable, List.mem_flatMap]
  constructor
  · intro h x hx lexeme hlexeme
    exact h lexeme ⟨x, hx, hlexeme⟩
  · rintro h lexeme ⟨x, hx, hlexeme⟩
    exact h x hx lexeme hlexeme

@[simp] theorem readable_mark {c : Char} : (Lexeme.mark c).Readable ↔ c ∈ Scanned.marks := Iff.rfl

def spelling : Lexeme → List Char
  | .word s | .integer s | .decimal s => s.toList
  | .literal value => '"' :: (value.toList.flatMap Literal.escaped ++ ['"'])
  | .mark c => [c]

def spaced (lexemes : List Lexeme) : List Char := [' '].intercalate (lexemes.map spelling)

def text (lexemes : List Lexeme) : String := String.ofList (spaced lexemes)

/-- A lexeme is found by its spelling, whatever stands apart behind it. -/
theorem first_spelling {lexeme : Lexeme} {more : List Char} (h : lexeme.Readable)
    (hmore : Apart more) :
    ∃ c cs, lexeme.spelling = c :: cs ∧
      Scanned.first c (cs ++ more) = .lexeme lexeme lexeme.spelling.length := by
  cases lexeme with
  | word name =>
    obtain ⟨c, cs, rfl, hstart, hrest⟩ := h
    refine ⟨c, cs, String.toList_ofList, ?_⟩
    rw [Scanned.first_word (.of_apart hmore) hstart hrest, spelling, String.toList_ofList]
  | integer written =>
    obtain ⟨c, cs, rfl, hstart, hrun, hkind⟩ := h
    refine ⟨c, cs, String.toList_ofList, ?_⟩
    rw [Scanned.first_numeral_apart hmore hstart hrun, Scanned.numeral, hrun]
    simp only [hkind, spelling, String.toList_ofList]
  | decimal written =>
    obtain ⟨c, cs, rfl, hstart, hrun, hkind⟩ := h
    refine ⟨c, cs, String.toList_ofList, ?_⟩
    rw [Scanned.first_numeral_apart hmore hstart hrun, Scanned.numeral, hrun]
    simp only [hkind, spelling, String.toList_ofList]
  | literal value =>
    refine ⟨'"', _, rfl, ?_⟩
    rw [List.append_assoc, List.singleton_append, ← Literal.escapedBy_double,
      Scanned.first_literal (.inl rfl), String.ofList_toList, Literal.escapedBy_double, spelling,
      List.length_cons, List.length_append]
    rfl
  | mark c => exact ⟨c, [], rfl, Scanned.first_mark_apart hmore h⟩

theorem spaced_singleton (lexeme : Lexeme) : spaced [lexeme] = lexeme.spelling :=
  List.intercalate_singleton

theorem spaced_cons_cons (lexeme other : Lexeme) (lexemes : List Lexeme) :
    spaced (lexeme :: other :: lexemes) =
      lexeme.spelling ++ ' ' :: spaced (other :: lexemes) := by
  rw [spaced, List.map_cons, List.map_cons, List.intercalate_cons_cons, List.append_assoc]
  rfl

end Lexeme

namespace Token

open Lexeme (spaced)

/-- What is found at the start of a text is read first. -/
theorem readFrom_found {lexeme : Lexeme} {written more : List Char} (place : Position)
    (h : ∃ c cs, written = c :: cs ∧
      Scanned.first c (cs ++ more) = .lexeme lexeme written.length) :
    readFrom place (written ++ more) =
      (readFrom (place.after written) more).map (prepend ⟨lexeme, place⟩) := by
  obtain ⟨c, cs, rfl, hfirst⟩ := h
  rw [List.cons_append, readFrom_of_lexeme hfirst, ← List.cons_append, List.take_left,
    List.drop_left]

/-- A spelling that stands apart is read first. -/
theorem readFrom_spelling {lexeme : Lexeme} {more : List Char} (place : Position)
    (h : lexeme.Readable) (hmore : Apart more) :
    readFrom place (lexeme.spelling ++ more) =
      (readFrom (place.after lexeme.spelling) more).map (prepend ⟨lexeme, place⟩) :=
  readFrom_found place (Lexeme.first_spelling h hmore)

theorem readFrom_blank {blank : Char} (h : Text.isBlank blank = true) (place : Position)
    (cs : List Char) : readFrom place (blank :: cs) = readFrom (place.step blank) cs :=
  readFrom_of_gap (Scanned.first_blank h cs)

/-- Lexemes with single blanks between them are read as themselves. -/
theorem readFrom_spaced (lexemes : List Lexeme) (h : Lexeme.AllReadable lexemes)
    (place : Position) :
    ∃ tokens stop, readFrom place (spaced lexemes) = .ok (tokens, stop) ∧
      tokens.map (·.lexeme) = lexemes := by
  induction lexemes generalizing place with
  | nil => exact ⟨[], place, readFrom_nil place, rfl⟩
  | cons lexeme others ih =>
    have hlexeme := h lexeme List.mem_cons_self
    have hothers := ih fun other hother => h other (List.mem_cons_of_mem lexeme hother)
    cases others with
    | nil =>
      refine ⟨[⟨lexeme, place⟩], place.after lexeme.spelling, ?_, rfl⟩
      have hnothing : Apart [] := .inl rfl
      have hread := readFrom_spelling place hlexeme hnothing
      rw [List.append_nil, readFrom_nil] at hread
      rw [Lexeme.spaced_singleton, hread]
      rfl
    | cons other rest =>
      obtain ⟨tokens, stop, hread, htokens⟩ := hothers ((place.after lexeme.spelling).step ' ')
      refine ⟨⟨lexeme, place⟩ :: tokens, stop, ?_, ?_⟩
      · rw [Lexeme.spaced_cons_cons, readFrom_spelling place hlexeme (.inr ⟨' ', _, rfl, rfl⟩),
          readFrom_blank rfl, hread]
        rfl
      · rw [List.map_cons, htokens]

/-- The text of readable lexemes is read as these. -/
theorem read_text (lexemes : List Lexeme) (h : Lexeme.AllReadable lexemes) :
    ∃ tokens stop, read (Lexeme.text lexemes) = .ok (tokens, stop) ∧
      tokens.map (·.lexeme) = lexemes := by
  rw [read, Lexeme.text, String.toList_ofList]
  exact readFrom_spaced lexemes h .start

end Token

end ProtoSchema
