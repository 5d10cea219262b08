import ProtoSchema.Proofs.Text.OneLine
import ProtoSchema.Proofs.Token.Pieces

/-!
How tokens and the faults of a text are shown in messages. Words, numbers and marks have no
newline as they stand in the text, and a literal is shown with its characters escaped. Of what
the scanner finds wrong all is told on one line, but for an escape by a newline, which is told
by the newline itself.
-/

namespace ProtoSchema

open Text (OneLine)

variable {Q : String → Prop}

def Lexeme.Legible (Q : String → Prop) : Lexeme → Prop
  | .word s | .integer s | .decimal s => OneLine s
  | .literal value => Q value
  | .mark c => c ≠ '\n'

theorem Lexeme.Legible.oneLine {lexeme : Lexeme} (h : lexeme.Legible Q) :
    OneLine lexeme.described := by
  cases lexeme with
  | word s => exact .inQuotes h
  | integer s => exact .inQuotes h
  | decimal s => exact .inQuotes h
  | literal value => exact .append (by decide) (Text.oneLine_quoted value)
  | mark c =>
    refine .inQuotes ?_
    rw [OneLine, Char.toString_eq_singleton, String.toList_singleton, List.mem_singleton]
    exact Ne.symm h

def SyntaxFault.Legible (Q : String → Prop) (fault : SyntaxFault) : Prop :=
  OneLine fault.message ∨ ∃ name, fault = .unknownDialect name ∧ Q name

namespace SyntaxFault

theorem oneLine_describedToken {found : Option Lexeme}
    (h : ∀ lexeme, found = some lexeme → lexeme.Legible Q) : OneLine (describedToken found) := by
  cases found with
  | none => decide
  | some lexeme => exact (h lexeme rfl).oneLine

theorem legible_expected {wanted : Wanted} {found : Option Lexeme}
    (hwanted : OneLine wanted.described)
    (hfound : ∀ lexeme, found = some lexeme → lexeme.Legible Q) :
    (SyntaxFault.expected wanted found).Legible Q :=
  .inl (.append (.append (.append (by decide) hwanted) (by decide)) (oneLine_describedToken hfound))

theorem legible_integerRange {written : String} (h : OneLine written) :
    (SyntaxFault.integerRange written).Legible Q :=
  .inl (.append (.append (by decide) h) (by decide))

theorem legible_openStatement {found : Option Lexeme}
    (h : ∀ lexeme, found = some lexeme → lexeme.Legible Q) :
    (SyntaxFault.openStatement found).Legible Q :=
  .inl (.append (.append (by decide) (oneLine_describedToken h)) (by decide))

end SyntaxFault

namespace Numeral

theorem newline_notMem_takeRun (hex exponent : Bool) (cs : List Char) :
    '\n' ∉ takeRun hex exponent cs := by
  induction cs generalizing exponent with
  | nil => exact List.not_mem_nil
  | cons c cs ih =>
    rw [takeRun]
    split
    · next htaken =>
      rw [List.mem_cons, not_or]
      refine ⟨?_, ih _⟩
      rintro rfl
      cases exponent with
      | false => exact absurd htaken (by decide)
      | true => exact absurd htaken (by decide)
    · exact List.not_mem_nil

theorem oneLine_run (cs : List Char) : OneLine (String.ofList (run cs)) :=
  Text.oneLine_ofList.mpr (newline_notMem_takeRun _ _ cs)

end Numeral

theorem Scanned.IsWord.oneLine {word : String} (h : Scanned.IsWord word) : OneLine word := by
  obtain ⟨c, cs, rfl, hstart, hrest⟩ := h
  rw [Text.oneLine_ofList]
  intro hmem
  rcases List.mem_cons.mp hmem with rfl | hmem
  · exact absurd hstart (by decide)
  · exact absurd (hrest '\n' hmem) (by decide)

namespace Literal

variable {quote c d : Char} {cs : List Char} {width offset : Nat}

theorem exists_of_later {fault : Fault} (h : fault.later width = .unknownEscape c offset) :
    ∃ inner, fault = .unknownEscape c inner := by
  cases fault with
  | notClosed => cases h
  | noHexDigits inner => cases h
  | unknownEscape found inner =>
    cases h
    exact ⟨inner, rfl⟩

theorem exists_of_prepend {read : Except Fault (List Char × Nat)}
    (h : prepend d width read = .error (.unknownEscape c offset)) :
    ∃ inner, read = .error (.unknownEscape c inner) := by
  cases read with
  | ok found => cases h
  | error fault =>
    obtain ⟨inner, rfl⟩ := exists_of_later (Except.error.inj h)
    exact ⟨inner, rfl⟩

theorem exists_of_escape (h : escape cs = .error (.unknownEscape c offset)) :
    ∃ rest, cs = c :: rest := by
  unfold escape at h
  split at h
  · cases h
  split at h
  · cases h
  split at h
  · cases h
  split at h
  · simp only at h
    split at h <;> cases h
  · cases h
    exact ⟨_, rfl⟩

/-- An escape that is not known is one by a character behind a backslash. -/
theorem infix_of_body {cs : List Char} {offset : Nat}
    (h : body quote cs = .error (.unknownEscape c offset)) : ['\\', c] <:+: cs := by
  match cs with
  | [] =>
    unfold body at h
    cases h
  | d :: rest =>
    unfold body at h
    split at h
    · cases h
    split at h
    · cases h
    split at h
    · next hbackslash =>
      subst hbackslash
      split at h
      · next fault hescape =>
        obtain ⟨inner, rfl⟩ := exists_of_later (Except.error.inj h)
        obtain ⟨more, rfl⟩ := exists_of_escape hescape
        exact (List.prefix_append ['\\', c] more).isInfix
      · next meant width _ =>
        obtain ⟨inner, hrest⟩ := exists_of_prepend h
        exact (infix_of_body hrest).trans
          ((List.drop_suffix width rest).trans (List.suffix_cons _ rest)).isInfix
    · obtain ⟨inner, hrest⟩ := exists_of_prepend h
      exact (infix_of_body hrest).trans (List.suffix_cons d rest).isInfix
termination_by cs.length
decreasing_by
  all_goals
    simp only [List.length_drop, List.length_cons]
    omega

/-- Plain characters are no newlines; only an escape can stand for one. -/
theorem oneLine_decoded {pieces : List (Piece quote)} (h : '\\' ∉ written pieces) :
    OneLine (decoded pieces) := by
  rw [decoded, Text.oneLine_ofList, List.mem_map]
  rintro ⟨piece, hpiece, hmeant⟩
  have hplain : '\\' ∉ piece.written := fun hmem => h (List.mem_flatMap_of_mem hpiece hmem)
  cases piece with
  | plain c _ _ hline => exact hline hmeant
  | sign c meant _ => exact hplain List.mem_cons_self
  | octal digits => exact hplain List.mem_cons_self
  | hexadecimal mark _ digits => exact hplain List.mem_cons_self

end Literal

namespace Scanned

variable {c : Char} {rest : List Char} {width offset : Nat}

/-- What was found is shown on one line. -/
theorem legible_of_first {found : Lexeme} (h : first c rest = .lexeme found width)
    (hliteral : ∀ value, found = .literal value → Q value) : found.Legible Q := by
  cases starts_of_first h with
  | word => exact (isWord_of_first h).oneLine
  | integer | decimal => exact Numeral.oneLine_run _
  | literal => exact hliteral _ rfl
  | mark hmark =>
    rintro rfl
    exact absurd hmark (by decide)

/-- What is wrong is told on one line, or it is an escape that is not known. -/
theorem fault_of_first {found : SyntaxFault} (h : first c rest = .fault found offset) :
    OneLine found.message ∨ ∃ d, found = .invalidEscape d ∧ ['\\', d] <:+: c :: rest := by
  cases starts_of_first h with
  | openBlock | openLiteral | noHexDigits => exact .inl (by decide)
  | badInteger | badDecimal =>
    exact .inl (.append (.append (by decide) (Numeral.oneLine_run _)) (by decide))
  | @unknownEscape d _ _ hbody =>
    exact .inr ⟨d, rfl, (Literal.infix_of_body hbody).trans (List.suffix_cons c rest).isInfix⟩
  | other => exact .inl (.append (by decide) (Text.oneLine_quotedChar c))

end Scanned

namespace Token

variable {place stop : Position} {cs : List Char} {tokens : List Token}

theorem legible_of_readFrom (h : readFrom place cs = .ok (tokens, stop))
    (hliterals : ∀ token ∈ tokens, ∀ value, token.lexeme = .literal value → Q value) :
    ∀ token ∈ tokens, token.lexeme.Legible Q := by
  intro token htoken
  obtain ⟨front, c, rest, width, _, _, hfirst⟩ := exists_first_of_mem h htoken
  exact Scanned.legible_of_first hfirst (hliterals token htoken)

/-- Without a backslash in the text no literal has a newline. -/
theorem oneLine_literal (h : readFrom place cs = .ok (tokens, stop)) (hslash : '\\' ∉ cs) :
    ∀ token ∈ tokens, ∀ value, token.lexeme = .literal value → OneLine value := by
  intro token htoken value hvalue
  obtain ⟨front, c, rest, width, rfl, _, hfirst⟩ := exists_first_of_mem h htoken
  rw [hvalue] at hfirst
  obtain ⟨_, pieces, behind, _, rfl, rfl⟩ := Scanned.exists_pieces_of_first hfirst
  refine Literal.oneLine_decoded fun hmem => hslash ?_
  exact List.mem_append_right _ (List.mem_cons_of_mem _ (List.mem_append_left _ hmem))

/-- The fault of a text that is not read was found at the start of what the text still holds. -/
theorem exists_first_of_error {e : SyntaxError} (h : readFrom place cs = .error e) :
    ∃ front c rest offset, cs = front ++ c :: rest ∧
      Scanned.first c rest = .fault e.fault offset := by
  induction place, cs using readFrom.induct with
  | case1 place =>
    rw [readFrom_nil] at h
    cases h
  | case2 place c rest width hgap ih =>
    rw [readFrom_of_gap hgap] at h
    obtain ⟨front, d, more, offset, hcs, hfirst⟩ := ih h
    refine ⟨(c :: rest).take width ++ front, d, more, offset, ?_, hfirst⟩
    rw [List.append_assoc, ← hcs, List.take_append_drop]
  | case3 place c rest found width hlexeme ih =>
    rw [readFrom_of_lexeme hlexeme] at h
    have hrest : readFrom (place.after ((c :: rest).take width)) ((c :: rest).drop width) =
        .error e := by
      cases hread : readFrom (place.after ((c :: rest).take width)) ((c :: rest).drop width) with
      | ok found =>
        rw [hread] at h
        cases h
      | error found =>
        rw [hread] at h
        exact h
    obtain ⟨front, d, more, offset, hcs, hfirst⟩ := ih hrest
    refine ⟨(c :: rest).take width ++ front, d, more, offset, ?_, hfirst⟩
    rw [List.append_assoc, ← hcs, List.take_append_drop]
  | case4 place c rest found offset hfault =>
    rw [readFrom_of_fault hfault] at h
    cases h
    exact ⟨[], c, rest, offset, rfl, hfault⟩

/-- What is wrong with the text is told on one line, or it is an escape that is not known. -/
theorem fault_of_readFrom {e : SyntaxError} (h : readFrom place cs = .error e) :
    OneLine e.message ∨ ∃ d, e.fault = .invalidEscape d ∧ ['\\', d] <:+: cs := by
  obtain ⟨front, c, rest, offset, rfl, hfirst⟩ := exists_first_of_error h
  refine (Scanned.fault_of_first hfirst).imp_right ?_
  rintro ⟨d, hd, hescape⟩
  exact ⟨d, hd, hescape.trans (List.suffix_append front _).isInfix⟩

end Token

end ProtoSchema
