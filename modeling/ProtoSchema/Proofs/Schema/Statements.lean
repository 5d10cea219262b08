import ProtoSchema.Proofs.Schema.Braces

/-!
Statements in token lists. A statement ends at its first semicolon, or else behind its first
block; what stands in braces behind an equals sign is a value and opens no block. So the tokens
tell where a statement ends, and a block of statements is cut into them in just one way.
-/

namespace ProtoSchema

inductive Braces (inner : List Token) : List Token → Prop
  | intro (start stop : Position) (hinner : Token.Balanced inner) :
      Braces inner (⟨.mark '\x7b', start⟩ :: (inner ++ [⟨.mark '\x7d', stop⟩]))

/-- The tokens are a statement, or the rest of one. The mark tells whether an equals sign stands
right in front of them. -/
inductive Statement : Bool → List Token → Prop
  | semicolon {behindEquals : Bool} (position : Position) :
      Statement behindEquals [⟨.mark ';', position⟩]
  | block {inner block : List Token} (hblock : Braces inner block) : Statement false block
  | value {inner value rest : List Token} (hvalue : Braces inner value)
      (hrest : Statement false rest) : Statement true (value ++ rest)
  | more {behindEquals : Bool} {token : Token} {rest : List Token} (hplain : token.lexeme.IsPlain)
      (hmark : token.lexeme ≠ .mark ';')
      (hrest : Statement (decide (token.lexeme = .mark '=')) rest) :
      Statement behindEquals (token :: rest)

/-- The statement is one of those that the tokens start with. -/
inductive HasStatement : List Token → List Token → Prop
  | first {piece rest : List Token} (hpiece : Statement false piece) :
      HasStatement (piece ++ rest) piece
  | later {piece other rest : List Token} (hother : Statement false other)
      (h : HasStatement rest piece) : HasStatement (other ++ rest) piece

variable {inner inner' tokens more rest piece other : List Token} {behind behind' : Bool}

theorem Statement.hasStatement (h : Statement false piece) : HasStatement piece piece := by
  have hhas : HasStatement (piece ++ []) piece := .first h
  rwa [List.append_nil] at hhas

/-- A balanced stretch in front of a closing brace ends where reading resumes behind a block. -/
theorem Token.Balanced.eq_of_close (h : Token.Balanced inner) (h' : Token.Balanced inner')
    {close close' : Token} (hclose : close.lexeme = .mark '\x7d')
    (hclose' : close'.lexeme = .mark '\x7d')
    (heq : inner ++ close :: tokens = inner' ++ close' :: more) :
    inner = inner' ∧ tokens = more := by
  have hrest : tokens = more := by
    have hresume : ProtoSchema.resume 1 (inner ++ close :: tokens) = tokens := resume_close hclose h
    rw [← hresume, heq, resume_close hclose' h']
  subst hrest
  rw [List.append_cons, List.append_cons inner'] at heq
  exact ⟨(List.append_inj' (List.append_cancel_right heq) rfl).1, rfl⟩

namespace Braces

theorem isInfix (h : Braces inner tokens) : inner <:+: tokens := by
  obtain ⟨start, stop, _⟩ := h
  exact ⟨[⟨.mark '\x7b', start⟩], [⟨.mark '\x7d', stop⟩], rfl⟩

theorem ne_nil (h : Braces inner tokens) : tokens ≠ [] := by
  cases h
  exact List.cons_ne_nil _ _

/-- A block ends at the brace that matches its first. -/
theorem eq_of_append (h : Braces inner tokens) {others after behind : List Token}
    (h' : Braces inner' others) (heq : tokens ++ after = others ++ behind) :
    inner = inner' ∧ tokens = others ∧ after = behind := by
  obtain ⟨start, stop, hinner⟩ := h
  obtain ⟨start', stop', hinner'⟩ := h'
  simp only [List.cons_append, List.append_assoc, List.nil_append, List.cons.injEq] at heq
  obtain ⟨hstart, heq⟩ := heq
  obtain ⟨rfl, rfl⟩ := hinner.eq_of_close hinner' rfl rfl heq
  obtain ⟨hstop, _⟩ := List.cons.inj (List.append_cancel_left heq)
  rw [hstart, hstop]
  exact ⟨rfl, rfl, rfl⟩

theorem inner_eq (h : Braces inner tokens) (h' : Braces inner' tokens) : inner = inner' := by
  have hsame : tokens ++ [] = tokens ++ [] := rfl
  exact (h.eq_of_append h' hsame).1

theorem balanced_self (h : Braces inner tokens) : Token.Balanced tokens := by
  cases h with
  | intro start stop hinner => exact Token.balanced_braces rfl rfl hinner

theorem not_plain (h : Braces inner tokens) {token : Token} {after : List Token}
    (heq : tokens ++ after = token :: rest) : ¬token.lexeme.IsPlain := by
  cases h with
  | intro start stop hinner =>
    rw [← (List.cons.inj heq).1]
    exact fun hplain => hplain.1 rfl

/-- No block is the end of another. -/
theorem eq_nil_of_eq_append (h : Braces inner tokens) {extra others : List Token}
    (h' : Braces inner' others) (heq : tokens = extra ++ others) : extra = [] := by
  obtain ⟨start, stop, hinner⟩ := h
  obtain ⟨start', stop', hinner'⟩ := h'
  cases extra with
  | nil => rfl
  | cons first extra =>
    have hrest : inner ++ [⟨.mark '\x7d', stop⟩] =
        (extra ++ ⟨.mark '\x7b', start'⟩ :: inner') ++ [⟨.mark '\x7d', stop'⟩] := by
      simpa using (List.cons.inj heq).2
    obtain ⟨rfl, _⟩ := List.append_inj' hrest rfl
    -- The brace that starts the shorter block would stay open in the longer one.
    rw [Token.Balanced, Token.nest_append] at hinner
    cases hdepth : Token.nest 0 extra with
    | none =>
      rw [hdepth] at hinner
      cases hinner
    | some depth =>
      have hopen := Token.nest_add hinner' (depth + 1)
      rw [hdepth, Option.bind_some, Token.nest_open rfl, ← Nat.zero_add (depth + 1),
        hopen] at hinner
      simp at hinner

/-- Tokens that end in a block end in just one. -/
theorem eq_of_append_left (h : Braces inner tokens) {front front' others : List Token}
    (h' : Braces inner' others) (heq : front ++ tokens = front' ++ others) : inner = inner' := by
  have hsame {extra : List Token} (hextra : extra = []) (hothers : tokens = extra ++ others) :
      inner = inner' := by
    subst hextra
    rw [hothers] at h
    exact h.inner_eq h'
  rcases List.append_eq_append_iff.mp heq with ⟨extra, _, hothers⟩ | ⟨extra, _, hothers⟩
  · exact hsame (h.eq_nil_of_eq_append h' hothers) hothers
  · have hextra := h'.eq_nil_of_eq_append h hothers
    rw [hextra] at hothers
    exact hsame rfl hothers.symm

end Braces

theorem Lexeme.isPlain_semicolon : Lexeme.IsPlain (.mark ';') := by decide

namespace Statement

theorem ne_nil (h : Statement behind piece) : piece ≠ [] := by
  cases h with
  | semicolon => exact List.cons_ne_nil _ _
  | block hblock => exact hblock.ne_nil
  | value hvalue _ => exact List.append_ne_nil_of_left_ne_nil hvalue.ne_nil _
  | more _ _ _ => exact List.cons_ne_nil _ _

theorem balanced (h : Statement behind piece) : Token.Balanced piece := by
  induction h with
  | semicolon position => exact Token.balanced_singleton ⟨by simp, by simp⟩
  | block hblock => exact hblock.balanced_self
  | value hvalue _ ih => exact Token.balanced_append hvalue.balanced_self ih
  | @more _ token rest hplain _ _ ih =>
    have hfirst : Token.Balanced [token] := Token.balanced_singleton hplain
    exact Token.balanced_append hfirst ih

/-- Where a statement ends does not depend on what stands behind it. -/
theorem eq_of_append (h : Statement behind piece) {after after' : List Token}
    (h' : Statement behind other) (heq : piece ++ after = other ++ after') : piece = other := by
  induction h generalizing other with
  | semicolon position =>
    cases h' with
    | semicolon position' =>
      cases heq
      rfl
    | block hblock => exact absurd Lexeme.isPlain_semicolon (hblock.not_plain heq.symm)
    | value hvalue _ =>
      rw [List.append_assoc] at heq
      exact absurd Lexeme.isPlain_semicolon (hvalue.not_plain heq.symm)
    | more _ hmark _ =>
      cases heq
      exact absurd rfl hmark
  | block hblock =>
    cases h' with
    | semicolon position' => exact absurd Lexeme.isPlain_semicolon (hblock.not_plain heq)
    | block hblock' => exact (hblock.eq_of_append hblock' heq).2.1
    | more hplain _ _ => exact absurd hplain (hblock.not_plain heq)
  | value hvalue _ ih =>
    rw [List.append_assoc] at heq
    cases h' with
    | semicolon position' => exact absurd Lexeme.isPlain_semicolon (hvalue.not_plain heq)
    | value hvalue' hrest' =>
      rw [List.append_assoc] at heq
      obtain ⟨_, rfl, hbehind⟩ := hvalue.eq_of_append hvalue' heq
      rw [ih hrest' hbehind]
    | more hplain _ _ => exact absurd hplain (hvalue.not_plain heq)
  | @more _ token rest hplain hmark _ ih =>
    cases h' with
    | semicolon position' =>
      cases heq
      exact absurd rfl hmark
    | block hblock => exact absurd hplain (hblock.not_plain heq.symm)
    | value hvalue _ =>
      rw [List.append_assoc] at heq
      exact absurd hplain (hvalue.not_plain heq.symm)
    | more _ _ hrest' =>
      simp only [List.cons_append, List.cons.injEq] at heq
      obtain ⟨rfl, hbehind⟩ := heq
      rw [ih hrest' hbehind]

end Statement

/-- The tokens bring a statement from one place to another: with the rest of one behind them
they are the rest of one. The marks tell whether an equals sign stands in front. -/
def Piece (behind behind' : Bool) (tokens : List Token) : Prop :=
  ∀ rest, Statement behind' rest → Statement behind (tokens ++ rest)

def Lexeme.IsInert (lexeme : Lexeme) : Prop :=
  lexeme.IsPlain ∧ lexeme ≠ .mark ';' ∧ lexeme ≠ .mark '='

instance : DecidablePred Lexeme.IsInert := fun _ => inferInstanceAs (Decidable (_ ∧ _))

namespace Piece

theorem nil : Piece behind behind [] := fun _ h => h

theorem append {middle : Bool} (h : Piece behind middle tokens)
    (hmore : Piece middle behind' more) : Piece behind behind' (tokens ++ more) := by
  intro rest hrest
  rw [List.append_assoc]
  exact h _ (hmore _ hrest)

theorem inert {token : Token} (h : token.lexeme.IsInert) (hrest : Piece false behind' tokens) :
    Piece behind behind' (token :: tokens) := by
  intro rest h'
  refine .more h.1 h.2.1 ?_
  rw [decide_eq_false h.2.2]
  exact hrest rest h'

theorem equals {position : Position} (hrest : Piece true behind' tokens) :
    Piece behind behind' (⟨.mark '=', position⟩ :: tokens) := by
  intro rest h'
  exact .more ⟨by simp, by simp⟩ (by simp) (hrest rest h')

theorem value (h : Braces inner tokens) : Piece true false tokens := fun _ hrest => .value h hrest

theorem of_inert (hne : tokens ≠ []) (h : ∀ token ∈ tokens, token.lexeme.IsInert) :
    Piece behind false tokens := by
  induction tokens generalizing behind with
  | nil => exact absurd rfl hne
  | cons token rest ih =>
    obtain ⟨hfirst, hrest⟩ := List.forall_mem_cons.mp h
    cases rest with
    | nil => exact inert hfirst nil
    | cons next others => exact inert hfirst (ih (List.cons_ne_nil _ _) hrest)

end Piece

end ProtoSchema
