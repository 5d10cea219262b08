import Mathlib.Data.List.Basic
import ProtoSchema.Proofs.Schema.Blocks
import ProtoSchema.Proofs.Token.Numbers

/-!
Lexemes laid out. Between two lexemes stands a blank, and behind it any mix of blanks and
comments. Such a text is read as its lexemes, whatever the layout: each spelling is read first
because a blank or nothing follows it, and a stretch of layout is passed piece by piece. As the
grammar is read off the tokens, the layout does not change what is wrong with a text either.
-/

namespace ProtoSchema

inductive Gap : List Char → Prop
  | blank {c : Char} (h : Text.isBlank c = true) : Gap [c]
  | line {text : List Char} (h : '\n' ∉ text) : Gap ('/' :: '/' :: (text ++ ['\n']))
  | block {text : List Char} (h : ¬['*', '/'] <:+: text) : Gap ('/' :: '*' :: (text ++ ['*', '/']))

inductive Layout : List Char → Prop
  | nil : Layout []
  | cons {gap rest : List Char} (h : Gap gap) (hrest : Layout rest) : Layout (gap ++ rest)

def Separates (gap : List Char) : Prop :=
  ∃ blank rest, gap = blank :: rest ∧ Text.isBlank blank = true ∧ Layout rest

theorem Separates.layout {gap : List Char} (h : Separates gap) : Layout gap := by
  obtain ⟨blank, rest, rfl, hblank, hrest⟩ := h
  exact .cons (.blank hblank) hrest

theorem Separates.apart {gap : List Char} (h : Separates gap) (more : List Char) :
    Apart (gap ++ more) := by
  obtain ⟨blank, rest, rfl, hblank, hrest⟩ := h
  exact .inr ⟨blank, rest ++ more, rfl, hblank⟩

inductive Lexeme.Spelled : Lexeme → List Char → Prop
  | word {name : String} (h : Scanned.IsWord name) : Spelled (.word name) name.toList
  | integer {n : Nat} {written : String} (h : Numeral.Spells n written.toList)
      (hn : n < UInt64.size) : Spelled (.integer written) written.toList
  | literal {quote : Char} (h : Literal.IsQuote quote) (value : String) :
      Spelled (.literal value)
        (quote :: (value.toList.flatMap (Literal.escapedBy quote) ++ [quote]))
  | mark {c : Char} (h : c ∈ Scanned.marks) : Spelled (.mark c) [c]

inductive Lexeme.Rendered : List Lexeme → List Char → Prop
  | nil : Rendered [] []
  | last {lexeme : Lexeme} {written behind : List Char} (h : lexeme.Spelled written)
      (hbehind : behind = [] ∨ Separates behind) : Rendered [lexeme] (written ++ behind)
  | cons {lexeme : Lexeme} {written gap rest : List Char} {lexemes : List Lexeme}
      (h : lexeme.Spelled written) (hgap : Separates gap) (hrest : Rendered lexemes rest) :
      Rendered (lexeme :: lexemes) (written ++ (gap ++ rest))

def Lexeme.LaidOut (lexemes : List Lexeme) (text : String) : Prop :=
  ∃ before written, text.toList = before ++ written ∧ Layout before ∧ Rendered lexemes written

namespace Scanned

variable {text more : List Char}

theorem commentWidth?_of_not_infix (h : ¬['*', '/'] <:+: text) (more : List Char) :
    commentWidth? (text ++ '*' :: '/' :: more) = some (text.length + 2) := by
  induction text with
  | nil => rfl
  | cons c rest ih =>
    have hrest : ¬['*', '/'] <:+: rest := fun hinner => h (List.infix_cons hinner)
    -- The comment does not end at `c`, for the character behind it is not a slash.
    have hopen (d : Char) (others : List Char)
        (hd : rest ++ '*' :: '/' :: more = d :: others) : ¬(c = '*' ∧ d = '/') := by
      rintro ⟨rfl, rfl⟩
      cases rest with
      | nil => exact absurd (List.cons.inj hd).1 (by decide)
      | cons e tail =>
        cases (List.cons.inj hd).1
        exact h ⟨[], tail, rfl⟩
    obtain ⟨d, others, hd⟩ := List.exists_cons_of_ne_nil
      (List.append_ne_nil_of_right_ne_nil rest (List.cons_ne_nil '*' ('/' :: more)))
    have hinner := ih hrest
    rw [hd] at hinner
    have hlength : 1 + (rest.length + 2) = (c :: rest).length + 2 := by
      rw [List.length_cons]
      omega
    rw [List.cons_append, hd, commentWidth?, if_neg (hopen d others hd), hinner, Option.map_some,
      hlength]

theorem first_line (htext : '\n' ∉ text) (more : List Char) :
    first '/' ('/' :: text ++ '\n' :: more) = .gap ('/' :: '/' :: text).length := by
  have htaken : ('/' :: text ++ '\n' :: more).takeWhile (· ≠ '\n') = '/' :: text := by
    have hplain : ∀ c ∈ '/' :: text, decide (c ≠ '\n') = true := by
      refine List.forall_mem_cons.mpr ⟨rfl, fun c hc => decide_eq_true ?_⟩
      rintro rfl
      exact htext hc
    rw [List.takeWhile_append_of_pos hplain, List.takeWhile_cons_of_neg (by decide),
      List.append_nil]
  rw [(Starts.line ⟨rfl, rfl⟩).first_eq, htaken]
  exact congrArg Scanned.gap (Nat.add_comm 1 _)

theorem first_block (htext : ¬['*', '/'] <:+: text) (more : List Char) :
    first '/' ('*' :: (text ++ ['*', '/']) ++ more) =
      .gap ('/' :: '*' :: (text ++ ['*', '/'])).length := by
  have hend : commentWidth? (('*' :: (text ++ ['*', '/']) ++ more).tail) =
      some (text.length + 2) := by
    rw [List.cons_append, List.tail_cons, List.append_assoc]
    exact commentWidth?_of_not_infix htext more
  rw [(Starts.block ⟨rfl, rfl⟩ hend).first_eq]
  refine congrArg Scanned.gap ?_
  simp only [List.length_append, List.length_cons, List.length_nil]
  omega

/-- A lexeme is found by whatever it is written with, if a blank or nothing stands behind. -/
theorem first_spelled {lexeme : Lexeme} {written : List Char} (h : lexeme.Spelled written)
    (hmore : Apart more) :
    ∃ c cs, written = c :: cs ∧ first c (cs ++ more) = .lexeme lexeme written.length := by
  cases h with
  | @word name h =>
    have hreadable : (Lexeme.word name).Readable := h
    exact Lexeme.first_spelling hreadable hmore
  | @integer n written h hn =>
    have hreadable : (Lexeme.integer written).Readable := h.isNumeral hn
    exact Lexeme.first_spelling hreadable hmore
  | @literal quote h value =>
    refine ⟨quote, _, rfl, ?_⟩
    rw [List.append_assoc, List.singleton_append, first_literal h, String.ofList_toList,
      List.length_cons, List.length_append]
    rfl
  | mark h => exact ⟨_, [], rfl, first_mark_apart hmore h⟩

end Scanned

namespace Token

open Lexeme (Spelled Rendered LaidOut)

variable {written gap rest : List Char} {lexeme : Lexeme} {lexemes : List Lexeme}

theorem readFrom_taken (place : Position) {c : Char} {cs : List Char}
    (h : Scanned.first c (cs ++ rest) = .gap (c :: cs).length) :
    readFrom place (c :: cs ++ rest) = readFrom (place.after (c :: cs)) rest := by
  rw [List.cons_append, readFrom_of_gap h, ← List.cons_append, List.take_left, List.drop_left]

/-- A gap is passed, whatever follows it. -/
theorem readFrom_gap (h : Gap gap) (place : Position) (more : List Char) :
    readFrom place (gap ++ more) = readFrom (place.after gap) more := by
  cases h with
  | blank h => exact readFrom_blank h place more
  | @line text h =>
    -- The comment takes its line but for the end, which is a blank.
    have hsplit : '/' :: '/' :: (text ++ ['\n']) ++ more =
        '/' :: '/' :: text ++ '\n' :: more := by simp
    have hplace : place.after ('/' :: '/' :: (text ++ ['\n'])) =
        (place.after ('/' :: '/' :: text)).step '\n' :=
      Position.after_append place ('/' :: '/' :: text) ['\n']
    rw [hsplit, readFrom_taken place (Scanned.first_line h more), readFrom_blank rfl, hplace]
  | block h => exact readFrom_taken place (Scanned.first_block h more)

theorem readFrom_layout (h : Layout gap) (place : Position) (more : List Char) :
    readFrom place (gap ++ more) = readFrom (place.after gap) more := by
  induction h generalizing place with
  | nil => rfl
  | cons h hrest ih => rw [List.append_assoc, readFrom_gap h, ih, ← Position.after_append]

/-- What a lexeme is written with is read first. -/
theorem readFrom_spelled (place : Position) {more : List Char} (h : lexeme.Spelled written)
    (hmore : Apart more) :
    readFrom place (written ++ more) =
      (readFrom (place.after written) more).map (prepend ⟨lexeme, place⟩) :=
  readFrom_found place (Scanned.first_spelled h hmore)

theorem readFrom_rendered (h : Rendered lexemes written) (place : Position) :
    ∃ tokens, readFrom place written = .ok (tokens, place.after written) ∧
      tokens.map (·.lexeme) = lexemes := by
  induction h generalizing place with
  | nil => exact ⟨[], readFrom_nil place, rfl⟩
  | @last lexeme written behind h hbehind =>
    refine ⟨[⟨lexeme, place⟩], ?_, rfl⟩
    have hlayout : Layout behind ∧ Apart behind := by
      rcases hbehind with rfl | hgap
      · exact ⟨.nil, .inl rfl⟩
      · have hapart := hgap.apart []
        rw [List.append_nil] at hapart
        exact ⟨hgap.layout, hapart⟩
    have hend := readFrom_layout hlayout.1 (place.after written) []
    rw [List.append_nil, readFrom_nil] at hend
    rw [readFrom_spelled place h hlayout.2, hend, Position.after_append]
    rfl
  | @cons lexeme written gap rest lexemes h hgap hrest ih =>
    obtain ⟨tokens, hread, htokens⟩ := ih ((place.after written).after gap)
    refine ⟨⟨lexeme, place⟩ :: tokens, ?_, by rw [List.map_cons, htokens]⟩
    rw [readFrom_spelled place h (hgap.apart rest), readFrom_layout hgap.layout, hread,
      Position.after_append, Position.after_append]
    rfl

theorem read_laidOut {text : String} (h : LaidOut lexemes text) :
    ∃ tokens, read text = .ok (tokens, Position.start.after text.toList) ∧
      tokens.map (·.lexeme) = lexemes := by
  obtain ⟨before, written, htext, hbefore, hwritten⟩ := h
  obtain ⟨tokens, hread, htokens⟩ := readFrom_rendered hwritten (Position.start.after before)
  refine ⟨tokens, ?_, htokens⟩
  rw [read, htext, readFrom_layout hbefore, hread, Position.after_append]

/-- Tokens with the same lexemes are each other's tokens, at moved places. -/
theorem exists_moved {tokens others : List Token} {stop : Position} (last : Position)
    (h : others.map (·.lexeme) = tokens.map (·.lexeme))
    (hpairwise : tokens.Pairwise fun a b => a.position.Before b.position)
    (hstop : ∀ token ∈ tokens, token.position.Before stop) :
    ∃ move : Position → Position, others = tokens.map (Token.moved move) ∧ last = move stop := by
  induction tokens generalizing others with
  | nil => exact ⟨fun _ => last, by simpa using h, rfl⟩
  | cons token tokens ih =>
    obtain ⟨other, others, rfl⟩ : ∃ other behind, others = other :: behind :=
      List.exists_cons_of_ne_nil (by rintro rfl; cases h)
    rw [List.map_cons, List.map_cons, List.cons.injEq] at h
    obtain ⟨hfirst, hpairwise⟩ := List.pairwise_cons.mp hpairwise
    obtain ⟨hbefore, hstop⟩ := List.forall_mem_cons.mp hstop
    obtain ⟨move, rfl, rfl⟩ := ih h.2 hpairwise hstop
    -- The place of the first token is none of the other places.
    have hne (place : Position) (hplace : token.position.Before place) :
        place ≠ token.position := by
      rintro rfl
      exact Position.not_before_self _ hplace
    refine ⟨Function.update move token.position other.position, ?_, ?_⟩
    · rw [List.map_cons, Token.moved, Function.update_self, ← h.1]
      refine congrArg (other :: ·) (List.map_congr_left fun next hnext => ?_)
      rw [Token.moved, Token.moved, Function.update_of_ne (hne _ (hfirst next hnext))]
    · rw [Function.update_of_ne (hne _ hbefore)]

end Token

namespace Schema.File

open Lexeme (LaidOut)

/-- Tokens at other places have the same errors at those places. -/
theorem errorsOf_moved (move : Position → Position) (tokens : List Token) (stop : Position) :
    errorsOf (ofTokens (tokens.map (Token.moved move)) (move stop)) =
      (errorsOf (ofTokens tokens stop)).map (SyntaxError.moved move) := by
  have hties := Bond.ties_moving tokens stop move []
  have hbodies : (Bond.moving stop move []).Bodies tokens.length (Phrase.bodyWithin tokens.length)
      (Phrase.bodyWithin (tokens.map (Token.moved move)).length) :=
    Bond.bodyWithin _ _ (.inl (by rw [List.length_map]))
  obtain ⟨new, htokens, hmoved, _⟩ :=
    (Bond.fileStatements hbodies true Bond.sameStart_empty hties).2.faults
  simp only [Bond.moving, List.append_nil] at htokens hmoved
  rw [errorsOf_ofTokens, errorsOf_ofTokens, htokens, hmoved, List.map_reverse]

end Schema.File

end ProtoSchema
