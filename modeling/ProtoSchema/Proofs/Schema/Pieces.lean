import ProtoSchema.Proofs.Schema.Phrases
import ProtoSchema.Proofs.Schema.Steps
import ProtoSchema.Proofs.Token.Runs

/-!
The tokens of the phrases inside statements. Names, numbers and strings take tokens that end no
statement and open no block. A value behind an equals sign may be an aggregate, whose braces are
no block either; so with its settings a field is a statement as far as its semicolon, and a
group as far as the end of its body.
-/

namespace ProtoSchema

open Schema
open Phrase (numberLimit)

structure Inert (tokens : List Token) : Prop where
  ne_nil : tokens ≠ []
  lexemes : ∀ token ∈ tokens, token.lexeme.IsInert

structure Plain (tokens : List Token) : Prop where
  statement : Statement false tokens
  ends : ∃ front position, tokens = front ++ [⟨.mark ';', position⟩]

def StartsWith (word : String) (tokens : List Token) : Prop :=
  tokens.head?.map (·.lexeme) = some (.word word)

structure Aside (words : List String) (tokens : List Token) : Prop where
  plain : Plain tokens
  starts : tokens.length = 1 ∨ ∃ word ∈ words, StartsWith word tokens

inductive Sign : Bool → List Token → Prop
  | plus : Sign false []
  | minus (position : Position) : Sign true [⟨.mark '-', position⟩]

/-- The lexeme is an integer that a field can have for a number, and the number is that, or less
than zero by as much. -/
def Amounts (lexeme : Lexeme) (negative : Bool) (x : Int) : Prop :=
  ∃ written n, lexeme = .integer written ∧ Numeral.Spells n written.toList ∧ n ≤ numberLimit ∧
    x = if negative then -(n : Int) else n

inductive IntegerTokens (x : Int) : List Token → Prop
  | intro {negative : Bool} {sign : List Token} {literal : Token} (hsign : Sign negative sign)
      (hamounts : Amounts literal.lexeme negative x) : IntegerTokens x (sign ++ [literal])

namespace Inert

variable {tokens more : List Token} {token : Token} {behind : Bool}

theorem singleton (h : token.lexeme.IsInert) : Inert [token] :=
  ⟨List.cons_ne_nil _ _, List.forall_mem_singleton.mpr h⟩

theorem cons (h : token.lexeme.IsInert) (hmore : Inert more) : Inert (token :: more) :=
  ⟨List.cons_ne_nil _ _, List.forall_mem_cons.mpr ⟨h, hmore.lexemes⟩⟩

theorem append (h : Inert tokens) (hmore : Inert more) : Inert (tokens ++ more) :=
  ⟨List.append_ne_nil_of_left_ne_nil h.ne_nil _,
    List.forall_mem_append.mpr ⟨h.lexemes, hmore.lexemes⟩⟩

theorem piece (h : Inert tokens) : Piece behind false tokens := .of_inert h.ne_nil h.lexemes

end Inert

theorem Lexeme.isInert_word (word : String) : Lexeme.IsInert (.word word) := by
  simp [Lexeme.IsInert, Lexeme.IsPlain]

theorem Lexeme.isInert_integer (written : String) : Lexeme.IsInert (.integer written) := by
  simp [Lexeme.IsInert, Lexeme.IsPlain]

theorem StartsWith.eq {word word' : String} {tokens : List Token} (h : StartsWith word tokens)
    (h' : StartsWith word' tokens) : word = word' := by
  cases h.symm.trans h'
  rfl

theorem Plain.aside {word : String} {words : List String} {tokens : List Token}
    (h : Plain tokens) (hstarts : StartsWith word tokens) (hword : word ∈ words) :
    Aside words tokens :=
  ⟨h, .inr ⟨word, hword, hstarts⟩⟩

theorem IntegerTokens.inert {x : Int} {tokens : List Token} (h : IntegerTokens x tokens) :
    Inert tokens := by
  obtain ⟨hsign, written, n, hwritten, _⟩ := h
  have hliteral : Inert [_] := .singleton (hwritten ▸ Lexeme.isInert_integer written)
  cases hsign with
  | plus => exact hliteral
  | minus position => exact .cons (by simp [Lexeme.IsInert, Lexeme.IsPlain]) hliteral

/-- A literal is no minus sign, so the sign in front of it tells which of the tokens it is. -/
theorem Sign.eq_of_append {negative negative' : Bool} {sign sign' back back' : List Token}
    {literal literal' : Token} {written other : String} (h : Sign negative sign)
    (h' : Sign negative' sign') (hwritten : literal.lexeme = .integer written)
    (hother : literal'.lexeme = .integer other)
    (heq : sign ++ literal :: back = sign' ++ literal' :: back') :
    negative' = negative ∧ literal' = literal := by
  cases h with
  | plus =>
    cases h' with
    | plus => exact ⟨rfl, (List.cons.inj heq).1.symm⟩
    | minus place =>
      rw [(List.cons.inj heq).1] at hwritten
      cases hwritten
  | minus place =>
    cases h' with
    | plus =>
      rw [← (List.cons.inj heq).1] at hother
      cases hother
    | minus place' => exact ⟨rfl, (List.cons.inj (List.cons.inj heq).2).1.symm⟩

section Limit

variable {written : String} {n : Nat}

theorem limited_eq_some_iff :
    (Numeral.value? written.toList).filter (· ≤ numberLimit) = some n ↔
      Numeral.Spells n written.toList ∧ n ≤ numberLimit := by
  rw [Option.filter_eq_some_iff, Numeral.value?_eq_some_iff, decide_eq_true_eq]
  have hless (hn : n ≤ numberLimit) : n < UInt64.size := Nat.lt_of_le_of_lt hn (by decide)
  exact ⟨fun h => ⟨h.1.1, h.2⟩, fun h => ⟨⟨h.1, hless h.2⟩, h.2⟩⟩

theorem amounts_of_limited {lexeme : Lexeme} {negative : Bool}
    (hlexeme : lexeme = .integer written)
    (h : (Numeral.value? written.toList).filter (· ≤ numberLimit) = some n) :
    Amounts lexeme negative (if negative then -(n : Int) else n) := by
  obtain ⟨hspells, hlimit⟩ := limited_eq_some_iff.mp h
  exact ⟨written, n, hlexeme, hspells, hlimit, rfl⟩

end Limit

namespace Phrase

variable {t : Tape} {lexeme : Lexeme}

theorem inert_of_bareValue? {found : Option Lexeme} {value : String}
    (h : bareValue? found = some value) : ∃ lexeme, found = some lexeme ∧ lexeme.IsInert := by
  unfold bareValue? at h
  split at h
  · exact ⟨_, rfl, by simp [Lexeme.IsInert, Lexeme.IsPlain]⟩
  · exact ⟨_, rfl, by simp [Lexeme.IsInert, Lexeme.IsPlain]⟩
  · exact ⟨_, rfl, by simp [Lexeme.IsInert, Lexeme.IsPlain]⟩
  · cases h

/-- The parts of a dotted name are words among its tokens. -/
theorem reads_dottedName : Reads (fun taken name => Inert taken ∧
    ∀ part ∈ name, ∃ position, ⟨.word part, position⟩ ∈ taken) dottedName := by
  refine reads_separated _ '.' reads_identifier ?_ ?_
  · rintro _ part ⟨position, rfl⟩
    refine ⟨.singleton (Lexeme.isInert_word part), List.forall_mem_singleton.mpr ?_⟩
    exact ⟨position, List.mem_singleton_self _⟩
  · rintro _ part dot rest parts ⟨position, rfl⟩ ⟨hinert, hwords⟩
    refine ⟨.cons (Lexeme.isInert_word part) (.cons (by simp [Lexeme.IsInert, Lexeme.IsPlain])
      hinert), List.forall_mem_cons.mpr ⟨⟨position, List.mem_cons_self⟩, fun other hother => ?_⟩⟩
    obtain ⟨place, hplace⟩ := hwords other hother
    exact ⟨place, List.mem_cons_of_mem _ (List.mem_cons_of_mem _ hplace)⟩

theorem reads_typeName : Reads (fun taken _ => Inert taken) typeName := by
  refine .take?_bind ?_ ?_
  · refine reads_dottedName.bind_pure fun taken name hname dot => ?_
    exact .cons (by simp [Lexeme.IsInert, Lexeme.IsPlain]) hname.1
  · exact reads_dottedName.bind_pure fun taken name hname => hname.1

theorem reads_optionPart : Reads (fun taken _ => Inert taken) optionPart := by
  refine .take?_bind ?_ (.identifier_bind fun name => .pure fun position =>
    .singleton (Lexeme.isInert_word name))
  refine reads_typeName.bind fun name => .mark_bind (.pure ?_)
  intro close taken htaken opening
  exact .cons (by simp [Lexeme.IsInert, Lexeme.IsPlain])
    (htaken.append (.singleton (by simp [Lexeme.IsInert, Lexeme.IsPlain])))

theorem reads_literal : Reads (fun taken _ => Inert taken) literal := by
  intro t
  rw [literal, on_tape_bind]
  obtain ⟨taken, htaken, hlength, hinert⟩ := leadingLiterals_taken t.ahead
  split
  · exact Reads.expected _ t
  · next hsome =>
    rw [on_skip_bind]
    refine .ok rfl htaken ⟨?_, hinert⟩
    rw [← List.length_pos_iff, hlength, List.length_pos_iff]
    exact hsome

theorem reads_integer : Reads (fun taken x => IntegerTokens x taken) integer := by
  have hsigned {number : Bool → Phrase Int}
      (h : ∀ negative, Reads (fun taken x => ∃ literal, taken = [literal] ∧
        Amounts literal.lexeme negative x) (number negative)) :
      Reads (fun taken x => IntegerTokens x taken) (take? (.mark '-') >>= number) := by
    refine .take?_bind ((h true).imp ?_) ((h false).imp ?_)
    · rintro _ x ⟨literal, rfl, hx⟩ position
      exact .intro (.minus position) hx
    · rintro _ x ⟨literal, rfl, hx⟩
      exact .intro .plus hx
  refine hsigned fun negative t => ?_
  rw [on_look_bind]
  split
  · next written hlook =>
    split
    · next n hn =>
      exact .skip_bind hlook (.pure fun position => ⟨_, rfl, amounts_of_limited rfl hn⟩)
    · exact Reads.place_bind (fun position => .failAt position _) t
  · exact Reads.expected _ t

/-- The tokens of an aggregate are balanced up to the brace that closes it. -/
theorem aggregateRest_taken {depth : Nat} {tokens behind : List Token} {parts : List String}
    (h : aggregateRest depth tokens = some (parts, behind)) :
    ∃ inner stop, tokens = inner ++ ⟨.mark '\x7d', stop⟩ :: behind ∧
      Token.nest depth inner = some 0 := by
  induction tokens generalizing depth parts with
  | nil =>
    unfold aggregateRest at h
    cases h
  | cons token rest ih =>
    have hmore (d : Nat) (h : ((aggregateRest d rest).map fun found =>
        (aggregateText token.lexeme :: found.1, found.2)) = some (parts, behind)) :
        ∃ inner stop, rest = inner ++ ⟨.mark '\x7d', stop⟩ :: behind ∧
          Token.nest d inner = some 0 := by
      obtain ⟨⟨inner, after⟩, hinner, heq⟩ := Option.map_eq_some_iff.mp h
      cases heq
      exact ih hinner
    rcases token.brace_cases with hopen | hclose | hplain
    · simp only [aggregateRest, if_pos hopen] at h
      obtain ⟨inner, stop, rfl, hinner⟩ := hmore _ h
      exact ⟨token :: inner, stop, rfl, by rwa [Token.nest_open hopen]⟩
    · have hopen : token.lexeme ≠ .mark '\x7b' := by simp [hclose]
      simp only [aggregateRest, if_neg hopen, if_pos hclose] at h
      cases depth with
      | zero =>
        cases h
        exact ⟨[], token.position, by rw [List.nil_append, ← hclose], rfl⟩
      | succ depth =>
        obtain ⟨inner, stop, rfl, hinner⟩ := hmore _ h
        exact ⟨token :: inner, stop, rfl, by rwa [Token.nest_close hclose]⟩
    · simp only [aggregateRest, if_neg hplain.1, if_neg hplain.2] at h
      obtain ⟨inner, stop, rfl, hinner⟩ := hmore _ h
      exact ⟨token :: inner, stop, rfl, by rwa [Token.nest_plain hplain]⟩

/-- An aggregate takes its braces and what stands between them. -/
theorem reads_aggregate : Reads (fun taken _ => ∃ inner, Braces inner taken) aggregate := by
  refine .place_bind fun opening => .mark_bind fun t => ?_
  rw [on_tape_bind]
  cases hrest : aggregateRest 0 t.ahead with
  | none => exact .error (List.suffix_refl _)
  | some found =>
    obtain ⟨parts, behind⟩ := found
    obtain ⟨inner, stop, hahead, hinner⟩ := aggregateRest_taken hrest
    have htaken : t.ahead = inner ++ [⟨.mark '\x7d', stop⟩] ++ behind := by simp [hahead]
    exact .ok rfl htaken fun start _ => ⟨inner, .intro start stop hinner⟩

theorem took_signed {sign : Char} (hlook : t.lexeme? 0 = some (.mark sign))
    (hsign : Lexeme.IsInert (.mark sign)) :
    Took t (fun taken _ => Inert taken) ((signed sign).on t) := by
  refine .skip_bind hlook fun t => ?_
  rw [on_look_bind]
  split
  · next value hvalue =>
    obtain ⟨lexeme, hlook, hinert⟩ := inert_of_bareValue? hvalue
    exact .skip_bind hlook (.pure fun position start => .cons hsign (.singleton hinert))
  · exact Reads.expected _ t

theorem reads_constant : Reads (fun taken _ => Piece true false taken) constant := by
  intro t
  rw [constant, on_look_bind]
  split
  · exact (reads_literal.imp fun taken _ h => h.piece) t
  · refine (reads_aggregate.imp ?_) t
    rintro taken _ ⟨inner, hbraces⟩
    exact .value hbraces
  · next hlook =>
    exact (took_signed hlook (by simp [Lexeme.IsInert, Lexeme.IsPlain])).imp
      fun taken _ h => h.piece
  · next hlook =>
    exact (took_signed hlook (by simp [Lexeme.IsInert, Lexeme.IsPlain])).imp
      fun taken _ h => h.piece
  · split
    · next value hvalue =>
      obtain ⟨lexeme, hlook, hinert⟩ := inert_of_bareValue? hvalue
      exact .skip_bind hlook (.pure fun position => .inert hinert .nil)
    · exact Reads.expected _ t

theorem reads_setting : Reads (fun taken _ => ∀ behind, Piece behind false taken) setting := by
  refine .place_bind fun position => ?_
  refine (reads_separated (fun taken _ => Inert taken) '.' reads_optionPart ?_ ?_).bind
    fun name => .mark_bind (reads_constant.bind_pure ?_)
  · exact fun taken part htaken => htaken
  · intro first part dot rest parts hfirst hrest
    exact hfirst.append (.cons (by simp [Lexeme.IsInert, Lexeme.IsPlain]) hrest)
  · intro taken value htaken sign first hfirst _ behind
    exact hfirst.piece.append (.equals htaken)

theorem reads_settings : Reads (fun taken _ => Piece false false taken) settings := by
  refine .take?_bind ?_ (.pure .nil)
  refine (reads_separated (fun taken _ => ∀ behind, Piece behind false taken) ','
    reads_setting ?_ ?_).bind fun found => .mark_bind (.pure ?_)
  · exact fun taken part htaken => htaken
  · intro first part comma rest parts hfirst hrest behind
    exact (hfirst behind).append (.inert (by simp [Lexeme.IsInert, Lexeme.IsPlain]) (hrest false))
  · intro close taken htaken opening
    exact .inert (by simp [Lexeme.IsInert, Lexeme.IsPlain])
      ((htaken false).append (.inert (by simp [Lexeme.IsInert, Lexeme.IsPlain]) .nil))

/-- A piece that a semicolon ends. -/
theorem plain_of_piece {tokens : List Token} {behind : Bool} (h : Piece false behind tokens)
    (position : Position) : Plain (tokens ++ [⟨.mark ';', position⟩]) :=
  ⟨h _ (.semicolon position), tokens, position, rfl⟩

theorem reads_optionStatement :
    Reads (fun taken _ => Plain taken ∧ StartsWith "option" taken) optionStatement := by
  refine .keyword_bind (reads_setting.bind fun found => .mark_bind (.pure ?_))
  intro stop taken htaken start
  exact ⟨plain_of_piece (.inert (Lexeme.isInert_word _) (htaken false)) stop, rfl⟩

/-- What is passed over ends at a semicolon. -/
theorem skippedRest_taken {tokens behind : List Token} (h : skippedRest tokens = (true, behind)) :
    ∃ skipped position, tokens = skipped ++ ⟨.mark ';', position⟩ :: behind ∧
      ∀ mark, Statement mark (skipped ++ [⟨.mark ';', position⟩]) := by
  induction tokens with
  | nil => cases h
  | cons token rest ih =>
    unfold skippedRest at h
    split at h
    · next hend =>
      cases h
      exact ⟨[], token.position, by rw [List.nil_append, ← hend], fun mark => .semicolon _⟩
    · next hend =>
      split at h
      · cases h
      · next hplain =>
        obtain ⟨skipped, position, rfl, hstatement⟩ := ih h
        exact ⟨token :: skipped, position, rfl,
          fun mark => .more (not_or.mp hplain) hend (hstatement _)⟩

theorem took_skippedStatement {word : String} (hlook : t.lexeme? 0 = some (.word word)) :
    Took t (fun taken _ => Plain taken ∧ StartsWith word taken) (skippedStatement.on t) := by
  rw [skippedStatement, on_place_bind, on_look_bind]
  refine .skip_bind hlook fun t => ?_
  rw [on_tape_bind]
  cases hrest : skippedRest t.ahead with
  | mk ended behind =>
    cases ended with
    | false => exact .error (List.suffix_refl _)
    | true =>
      obtain ⟨skipped, stop, hahead, hstatement⟩ := skippedRest_taken hrest
      have htaken : t.ahead = skipped ++ [⟨.mark ';', stop⟩] ++ behind := by simp [hahead]
      have hinert := Lexeme.isInert_word word
      exact .ok rfl htaken fun start =>
        ⟨⟨.more hinert.1 hinert.2.1 (hstatement _), ⟨.word word, start⟩ :: skipped, stop, rfl⟩, rfl⟩

end Phrase

end ProtoSchema
