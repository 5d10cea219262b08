import ProtoSchema.Schema.Tape

/-!
Going on after an error. A statement that fails has its error put down, and
reading resumes behind its semicolon or behind the block it opened, or at the
brace that closes the block around it. Every statement takes at least one
token, so a block ends.
-/

namespace ProtoSchema

namespace Token

def isMark (token : Token) (c : Char) : Bool := token.lexeme == .mark c

end Token

/-- The tokens behind the end of a broken statement, inside `depth` blocks
opened by it. -/
def resume : Nat → List Token → List Token
  | _, [] => []
  | 0, token :: rest =>
    if token.isMark '\x7d' then token :: rest
    else if token.isMark ';' then rest
    else if token.isMark '\x7b' then resume 1 rest
    else resume 0 rest
  | depth + 1, token :: rest =>
    if token.isMark '\x7b' then resume (depth + 2) rest
    else if token.isMark '\x7d' then
      match depth with
      | 0 => rest
      | depth + 1 => resume (depth + 1) rest
    else resume (depth + 1) rest

namespace Phrase

variable {σ : Type}

/-- Puts the error down and goes to where reading resumes. -/
def carryOn (t : Tape) (e : SyntaxError) : Tape :=
  { t.putDown e with ahead := resume 0 t.ahead }

/-- Runs a statement that extends `s`; a failing one leaves `s` as it was. -/
def attempt (statement : σ → Phrase σ) (s : σ) (t : Tape) : σ × Tape :=
  match (statement s).on t with
  | (.ok s', t') => (s', t')
  | (.error e, t') => (s, carryOn t' e)

/-- Attempts a statement. One that took nothing has a token dropped for it. -/
def settled (statement : σ → Phrase σ) (s : σ) (t : Tape) : σ × Tape :=
  let (s', t') := attempt statement s t
  (s', if t'.ahead.length < t.ahead.length then t' else { t' with ahead := t.ahead.drop 1 })

theorem length_settled (statement : σ → Phrase σ) (s : σ) {t : Tape} (h : t.ahead ≠ []) :
    (settled statement s t).2.ahead.length < t.ahead.length := by
  have hpos : 0 < t.ahead.length := List.length_pos_iff.2 h
  simp only [settled]
  split
  · assumption
  · simp only [List.length_drop]
    omega

/-- The statements of a block whose opening brace has been taken. -/
def statements (block : String) (statement : σ → Phrase σ) (s : σ) (t : Tape) :
    Except SyntaxError σ × Tape :=
  match _ahead : t.ahead with
  | [] => (.error ⟨t.stop, .expected (.closing block) none⟩, t)
  | token :: rest =>
    if token.isMark '\x7d' then (.ok s, { t with ahead := rest })
    else statements block statement (settled statement s t).1 (settled statement s t).2
termination_by t.ahead.length
decreasing_by exact length_settled statement s (by simp [_ahead])

/-- A block in braces. -/
def block (name : String) (statement : σ → Phrase σ) (s : σ) : Phrase σ := do
  mark '\x7b'
  ofFunction (statements name statement s)

end Phrase

end ProtoSchema
