import ProtoSchema.Proofs.Schema.Recovery
import ProtoSchema.Proofs.Schema.Statements

/-!
What a phrase takes when no error is put down. Errors are never taken back, so a reading that
ends without a new one had none on the way, and each of its phrases took a stretch of the
tokens. The statements of a block take its tokens one behind the other, and each of them brings
what was read so far one step on.
-/

namespace ProtoSchema

inductive Steps {σ : Type} (R : List Token → σ → σ → Prop) : List Token → σ → σ → Prop
  | nil (s : σ) : Steps R [] s s
  | cons {piece rest : List Token} {s next last : σ} (hpiece : Statement false piece)
      (hstep : R piece s next) (hrest : Steps R rest next last) : Steps R (piece ++ rest) s last

namespace Steps

variable {σ : Type} {R : List Token → σ → σ → Prop} {tokens piece : List Token} {s last : σ}

theorem balanced (h : Steps R tokens s last) : Token.Balanced tokens := by
  induction h with
  | nil s => rfl
  | cons hpiece _ _ ih => exact Token.balanced_append hpiece.balanced ih

/-- What each step keeps, given the tokens in front of it and its own, the whole run keeps. -/
theorem along {P : List Token → σ → Prop} (hstep : ∀ front piece s next, P front s →
    Statement false piece → R piece s next → P (front ++ piece) next)
    (h : Steps R tokens s last) (front : List Token) (hs : P front s) :
    P (front ++ tokens) last := by
  induction h generalizing front with
  | nil s => rwa [List.append_nil]
  | cons hpiece hfirst _ ih =>
    rw [← List.append_assoc]
    exact ih _ (hstep _ _ _ _ hs hpiece hfirst)

theorem keeps {P : σ → Prop} (hstep : ∀ piece s next, P s → R piece s next → P next)
    (h : Steps R tokens s last) (hs : P s) : P last :=
  h.along (P := fun _ => P) (fun _ piece s next hs _ => hstep piece s next hs) [] hs

/-- What each step keeps within the tokens, the whole run keeps. -/
theorem keepsWithin {P : σ → Prop} {whole : List Token} (hwhole : tokens <:+: whole)
    (hstep : ∀ piece s next, piece <:+: whole → R piece s next → P s → P next)
    (h : Steps R tokens s last) (hs : P s) : P last := by
  induction h with
  | nil s => exact hs
  | @cons piece rest s next last _ hfirst _ ih =>
    have hpiece : piece <:+: whole := (List.prefix_append piece rest).isInfix.trans hwhole
    have hrest : rest <:+: whole := (List.suffix_append piece rest).isInfix.trans hwhole
    exact ih hrest (hstep _ _ _ hpiece hfirst hs)

/-- A statement in front is the one of the first step. -/
theorem exists_of_statement {rest : List Token} (h : Steps R (piece ++ rest) s last)
    (hpiece : Statement false piece) : ∃ next, R piece s next ∧ Steps R rest next last := by
  generalize heq : piece ++ rest = tokens at h
  cases h with
  | nil s => exact absurd (List.append_eq_nil_iff.mp heq).1 hpiece.ne_nil
  | cons hfirst hstep hrest =>
    obtain rfl := hpiece.eq_of_append hfirst heq
    obtain rfl := List.append_cancel_left heq
    exact ⟨_, hstep, hrest⟩

/-- Each statement of the tokens is the one of some step, behind which the run goes on. -/
theorem exists_of_hasStatement (h : Steps R tokens s last)
    (hstatement : HasStatement tokens piece) :
    ∃ back before next, R piece before next ∧ Steps R back next last := by
  induction hstatement generalizing s with
  | first hpiece =>
    obtain ⟨next, hstep, hrest⟩ := h.exists_of_statement hpiece
    exact ⟨_, s, next, hstep, hrest⟩
  | later hother _ ih =>
    obtain ⟨middle, _, hrest⟩ := h.exists_of_statement hother
    exact ih hrest

end Steps

namespace Phrase

variable {α β σ : Type} {P Q : List Token → α → Prop} {Q' : List Token → β → Prop} {p : Phrase α}
  {f : α → Phrase β} {t t' : Tape} {a : α} {lexeme : Lexeme}

/-- Reading from `t` took back no error, and if it gave a value and put down no new error it took
tokens that fit the value. -/
structure Took (t : Tape) (Q : List Token → α → Prop) (r : Except SyntaxError α × Tape) : Prop where
  grows : t.faults <:+ r.2.faults
  taken : ∀ a, r.1 = .ok a → r.2.faults = t.faults →
    ∃ taken, t.ahead = taken ++ r.2.ahead ∧ Q taken a

def Reads (Q : List Token → α → Prop) (p : Phrase α) : Prop := ∀ t, Took t Q (p.on t)

theorem Took.ok {taken : List Token} (hfaults : t'.faults = t.faults)
    (htaken : t.ahead = taken ++ t'.ahead) (hQ : Q taken a) : Took t Q (.ok a, t') := by
  refine ⟨hfaults ▸ List.suffix_refl _, fun b hb _ => ?_⟩
  cases hb
  exact ⟨taken, htaken, hQ⟩

theorem Took.error {e : SyntaxError} (hfaults : t.faults <:+ t'.faults) :
    Took t Q ((.error e, t') : Except SyntaxError α × Tape) :=
  ⟨hfaults, fun a ha => by cases ha⟩

theorem Took.imp {r : Except SyntaxError α × Tape} (h : Took t P r)
    (hQ : ∀ taken a, P taken a → Q taken a) : Took t Q r := by
  refine ⟨h.grows, fun a ha hfaults => ?_⟩
  obtain ⟨taken, htaken, hP⟩ := h.taken a ha hfaults
  exact ⟨taken, htaken, hQ taken a hP⟩

/-- What is read behind a token. -/
theorem Took.behind {r : Except SyntaxError α × Tape} {token : Token} {rest : List Token}
    (hahead : t.ahead = token :: rest)
    (h : Took (t.drop 1) (fun taken a => Q (token :: taken) a) r) : Took t Q r := by
  refine ⟨h.grows, fun a ha hfaults => ?_⟩
  obtain ⟨taken, htaken, hQ⟩ := h.taken a ha hfaults
  refine ⟨token :: taken, ?_, hQ⟩
  rw [List.cons_append, ← htaken, hahead]
  simp [Tape.drop, hahead]

theorem exists_of_lexeme? (h : t.lexeme? 0 = some lexeme) :
    ∃ position rest, t.ahead = ⟨lexeme, position⟩ :: rest := by
  cases hahead : t.ahead with
  | nil => simp [Tape.lexeme?, hahead] at h
  | cons token rest =>
    have hlexeme : token.lexeme = lexeme := by simpa [Tape.lexeme?, hahead] using h
    exact ⟨token.position, rest, by rw [← hlexeme]⟩

theorem Took.bind (hp : Took t P (p.on t))
    (hf : ∀ a, Reads (fun rest b => ∀ first, P first a → Q' (first ++ rest) b) (f a)) :
    Took t Q' ((p >>= f).on t) := by
  refine on_bind_cases (fun a t' hon => ?_) (fun e t' hon => ?_)
  · rw [hon] at hp
    refine ⟨hp.grows.trans (hf a t').grows, fun b hb hfaults => ?_⟩
    have hsame : t'.faults = t.faults :=
      (hp.grows.eq_of_length_le (hfaults ▸ (hf a t').grows.length_le)).symm
    obtain ⟨first, htaken, hP⟩ := hp.taken a rfl hsame
    obtain ⟨rest, hrest, hQ⟩ := (hf a t').taken b hb (hfaults.trans hsame.symm)
    exact ⟨first ++ rest, by rw [htaken, hrest, List.append_assoc], hQ first hP⟩
  · rw [hon] at hp
    exact .error hp.grows

theorem Took.bind_pure {f : α → β} (hp : Took t P (p.on t))
    (hf : ∀ taken a, P taken a → Q' taken (f a)) :
    Took t Q' ((p >>= fun a => Pure.pure (f a)).on t) := by
  refine hp.bind fun a t' => ?_
  have hnone : t'.ahead = [] ++ t'.ahead := rfl
  refine .ok rfl hnone fun first hfirst => ?_
  rw [List.append_nil]
  exact hf first a hfirst

namespace Reads

theorem imp (h : Reads P p) (hQ : ∀ taken a, P taken a → Q taken a) : Reads Q p :=
  fun t => (h t).imp hQ

theorem pure (h : Q [] a) : Reads Q (Pure.pure a : Phrase α) := fun _ => .ok rfl rfl h

theorem failAt (position : Position) (fault : SyntaxFault) :
    Reads Q (Phrase.failAt position fault : Phrase α) := fun _ => .error (List.suffix_refl _)

theorem expected (wanted : Wanted) : Reads Q (Phrase.expected wanted : Phrase α) :=
  fun _ => .error (List.suffix_refl _)

theorem ite {c : Prop} [Decidable c] {q : Phrase α} (hp : c → Reads Q p) (hq : ¬c → Reads Q q) :
    Reads Q (if c then p else q) := by
  split
  · next hc => exact hp hc
  · next hc => exact hq hc

/-- The second phrase takes what stands behind the tokens of the first. -/
theorem bind (hp : Reads P p)
    (hf : ∀ a, Reads (fun rest b => ∀ first, P first a → Q' (first ++ rest) b) (f a)) :
    Reads Q' (p >>= f) := fun t => (hp t).bind hf

/-- A phrase that only puts together what was read. -/
theorem bind_pure {f : α → β} (hp : Reads P p) (hf : ∀ taken a, P taken a → Q' taken (f a)) :
    Reads Q' (p >>= fun a => Pure.pure (f a)) := fun t => (hp t).bind_pure hf

theorem first_bind {f : Option Lexeme → Phrase β}
    (hf : ∀ t : Tape, Took t Q' ((f (t.lexeme? 0)).on t)) : Reads Q' (look 0 >>= f) := hf

/-- The lexeme that was looked at is the one of a token that is taken, if that many are. -/
theorem look_bind {f : Option Lexeme → Phrase β} (k : Nat) (hf : ∀ found,
    Reads (fun taken b => (∀ token, taken[k]? = some token → found = some token.lexeme) →
      Q' taken b) (f found)) : Reads Q' (look k >>= f) := by
  intro t
  rw [on_look_bind]
  refine ⟨(hf _ t).grows, fun b hb hfaults => ?_⟩
  obtain ⟨taken, htaken, hQ⟩ := (hf _ t).taken b hb hfaults
  refine ⟨taken, htaken, hQ fun token htoken => ?_⟩
  rw [Tape.lexeme?, htaken, List.getElem?_append_left (List.getElem?_eq_some_iff.mp htoken).1,
    htoken]
  rfl

/-- The place is the one of the first token that is taken, if any is. -/
theorem place_bind {f : Position → Phrase β} (hf : ∀ position,
    Reads (fun taken b => (∀ token rest, taken = token :: rest → position = token.position) →
      Q' taken b) (f position)) : Reads Q' (place >>= f) := by
  intro t
  rw [on_place_bind]
  refine ⟨(hf _ t).grows, fun b hb hfaults => ?_⟩
  obtain ⟨taken, htaken, hQ⟩ := (hf _ t).taken b hb hfaults
  refine ⟨taken, htaken, hQ ?_⟩
  rintro token rest rfl
  rw [Tape.place, htaken]
  rfl

theorem take?_bind {f : Bool → Phrase β}
    (htrue : Reads (fun taken b => ∀ position, Q' (⟨lexeme, position⟩ :: taken) b) (f true))
    (hfalse : Reads Q' (f false)) : Reads Q' (take? lexeme >>= f) := by
  intro t
  rw [on_bind, on_take?]
  by_cases hlook : t.lexeme? 0 = some lexeme
  · rw [if_pos hlook]
    obtain ⟨position, rest, hahead⟩ := exists_of_lexeme? hlook
    exact .behind hahead ((htrue.imp fun taken b hQ => hQ position) _)
  · rw [if_neg hlook]
    exact hfalse t

theorem behind_one {f : Unit → Phrase β} {p : Phrase Unit}
    (hp : Reads (fun taken _ => ∃ position, taken = [⟨lexeme, position⟩]) p)
    (hf : Reads (fun taken b => ∀ position, Q' (⟨lexeme, position⟩ :: taken) b) (f ())) :
    Reads Q' (p >>= f) := by
  refine hp.bind fun _ => hf.imp fun taken b hQ => ?_
  rintro _ ⟨position, rfl⟩
  exact hQ position

end Reads

/-- Behind a token that was looked at. -/
theorem Took.skip_bind {f : Unit → Phrase β} (hlook : t.lexeme? 0 = some lexeme)
    (hf : Reads (fun taken b => ∀ position, Q' (⟨lexeme, position⟩ :: taken) b) (f ())) :
    Took t Q' ((skip 1 >>= f).on t) := by
  obtain ⟨position, rest, hahead⟩ := exists_of_lexeme? hlook
  rw [on_skip_bind]
  exact .behind hahead ((hf.imp fun taken b hQ => hQ position) _)

/-- Behind two tokens that were looked at. -/
theorem Took.skip_two_bind {f : Unit → Phrase β} {second : Lexeme}
    (hfirst : t.lexeme? 0 = some lexeme) (hsecond : t.lexeme? 1 = some second)
    (hf : Reads (fun taken b => ∀ position place,
      Q' (⟨lexeme, position⟩ :: ⟨second, place⟩ :: taken) b) (f ())) :
    Took t Q' ((skip 2 >>= f).on t) := by
  obtain ⟨position, rest, hahead⟩ := exists_of_lexeme? hfirst
  have hnext : (t.drop 1).lexeme? 0 = some second := by
    rw [← hsecond]
    simp [Tape.lexeme?, Tape.drop]
  obtain ⟨place, others, hbehind⟩ := exists_of_lexeme? hnext
  have hdrop : t.drop 2 = (t.drop 1).drop 1 := by simp [Tape.drop]
  rw [on_skip_bind, hdrop]
  exact .behind hahead (.behind hbehind ((hf.imp fun taken b hQ => hQ position place) _))

theorem reads_mark (c : Char) :
    Reads (fun taken _ => ∃ position, taken = [⟨.mark c, position⟩]) (mark c) :=
  .take?_bind (.pure fun position => ⟨position, rfl⟩) (.expected _)

theorem reads_keyword (word : String) :
    Reads (fun taken _ => ∃ position, taken = [⟨.word word, position⟩]) (keyword word) :=
  .take?_bind (.pure fun position => ⟨position, rfl⟩) (.expected _)

theorem reads_identifier :
    Reads (fun taken name => ∃ position, taken = [⟨.word name, position⟩]) identifier := by
  intro t
  rw [identifier, on_look_bind]
  split
  · next name hlook => exact .skip_bind hlook (.pure fun position => ⟨position, rfl⟩)
  · exact Reads.expected _ t

namespace Reads

theorem mark_bind {f : Unit → Phrase β} {c : Char}
    (hf : Reads (fun taken b => ∀ position, Q' (⟨.mark c, position⟩ :: taken) b) (f ())) :
    Reads Q' (mark c >>= f) :=
  (reads_mark c).behind_one hf

theorem keyword_bind {f : Unit → Phrase β} {word : String}
    (hf : Reads (fun taken b => ∀ position, Q' (⟨.word word, position⟩ :: taken) b) (f ())) :
    Reads Q' (keyword word >>= f) :=
  (reads_keyword word).behind_one hf

theorem identifier_bind {f : String → Phrase β} (hf : ∀ name,
    Reads (fun taken b => ∀ position, Q' (⟨.word name, position⟩ :: taken) b) (f name)) :
    Reads Q' (identifier >>= f) := by
  refine reads_identifier.bind fun name => (hf name).imp fun taken b hQ => ?_
  rintro _ ⟨position, rfl⟩
  exact hQ position

/-- A name with its place. -/
theorem named_bind {f : Position → String → Phrase β} (hf : ∀ position name,
    Reads (fun taken b => Q' (⟨.word name, position⟩ :: taken) b) (f position name)) :
    Reads Q' (place >>= fun position => identifier >>= f position) := by
  refine place_bind fun position => identifier_bind fun name => ?_
  refine (hf position name).imp fun taken b hQ found hplace => ?_
  have hsame : position = found := hplace _ _ rfl
  rwa [← hsame]

end Reads

/-- Items with separators between them, told by what the first item and each further one bring. -/
theorem reads_separated {item : Phrase α} {One : List Token → α → Prop}
    (Many : List Token → List α → Prop) (sep : Char) (hitem : Reads One item)
    (hone : ∀ taken a, One taken a → Many taken [a])
    (hmore : ∀ first a position rest as, One first a → Many rest as →
      Many (first ++ ⟨.mark sep, position⟩ :: rest) (a :: as)) :
    Reads Many (separated sep item) := by
  have hrest (rounds : Nat) : Reads (fun taken as => ∀ first a, One first a →
      Many (first ++ taken) (a :: as)) (moreSeparated sep item rounds) := by
    induction rounds with
    | zero =>
      refine .pure fun first a hfirst => ?_
      rw [List.append_nil]
      exact hone first a hfirst
    | succ rounds ih =>
      refine .take?_bind (hitem.bind fun a => ih.bind fun as => .pure ?_) (.pure ?_)
      · intro more hmany first hfirst position front b hfront
        rw [List.append_nil]
        exact hmore front b position _ _ hfront (hmany first a hfirst)
      · intro first a hfirst
        rw [List.append_nil]
        exact hone first a hfirst
  intro t
  refine hitem.bind (fun a => ?_) t
  intro t'
  rw [on_tape_bind]
  refine (hrest _).bind (fun as => .pure ?_) t'
  intro more hmany first hfirst
  rw [List.append_nil]
  exact hmany first a hfirst

/-- A run of string tokens. -/
theorem leadingLiterals_taken (tokens : List Token) : ∃ taken,
    tokens = taken ++ tokens.drop (leadingLiterals tokens).length ∧
      taken.length = (leadingLiterals tokens).length ∧
      ∀ token ∈ taken, token.lexeme.IsInert := by
  induction tokens with
  | nil => exact ⟨[], rfl, rfl, by simp⟩
  | cons token rest ih =>
    obtain ⟨lexeme, position⟩ := token
    cases lexeme with
    | literal value =>
      obtain ⟨taken, hrest, hlength, hinert⟩ := ih
      refine ⟨⟨.literal value, position⟩ :: taken, ?_, ?_, ?_⟩
      · rw [leadingLiterals, List.length_cons, List.drop_succ_cons, List.cons_append, ← hrest]
      · rw [leadingLiterals, List.length_cons, List.length_cons, hlength]
      · refine List.forall_mem_cons.mpr ⟨?_, hinert⟩
        simp [Lexeme.IsInert, Lexeme.IsPlain]
    | _ => exact ⟨[], rfl, rfl, by simp⟩

section Blocks

variable {R : List Token → σ → σ → Prop} {statement : σ → Phrase σ} {name : String}

/-- Dropping a token puts down nothing. -/
theorem faults_settled (s : σ) (t : Tape) :
    (settled statement s t).2.faults = (attempt statement s t).2.faults := by
  simp only [settled]
  split
  · rfl
  · rfl

theorem grows_settled {s : σ} {Q : List Token → σ → Prop} (h : Reads Q (statement s)) (t : Tape) :
    t.faults <:+ (settled statement s t).2.faults := by
  have hgrows := (h t).grows
  rw [faults_settled, attempt]
  generalize (statement s).on t = r at hgrows ⊢
  obtain ⟨result, t'⟩ := r
  cases result with
  | ok next => exact hgrows
  | error e => exact hgrows.trans (List.suffix_cons e t'.faults)

/-- Without a new error a statement is settled as it was read. -/
theorem on_of_settled {s : σ} {t : Tape}
    (h : Reads (fun piece _ => Statement false piece) (statement s))
    (hfaults : (settled statement s t).2.faults = t.faults) :
    (statement s).on t = (.ok (settled statement s t).1, (settled statement s t).2) := by
  have htook := h t
  cases hon : (statement s).on t with
  | mk result t' =>
    rw [hon] at htook
    rw [faults_settled, attempt, hon] at hfaults
    cases result with
    | ok next =>
      obtain ⟨piece, hahead, hpiece⟩ := htook.taken next rfl hfaults
      have hless : t'.ahead.length < t.ahead.length := by
        rw [hahead, List.length_append]
        exact Nat.lt_add_of_pos_left (List.length_pos_iff.mpr hpiece.ne_nil)
      rw [settled_of_ok hon hless]
    | error e =>
      -- The error that is put down stays.
      have hless : (e :: t'.faults).length ≤ t'.faults.length := by
        have hsame : e :: t'.faults = t.faults := hfaults
        rw [hsame]
        exact htook.grows.length_le
      exact absurd hless (Nat.not_succ_le_self _)

/-- Without a new error a settled statement was taken as a whole. -/
theorem took_settled {s : σ} (h : Reads (fun piece next => Statement false piece ∧ R piece s next)
    (statement s)) (t : Tape) :
    t.faults <:+ (settled statement s t).2.faults ∧
      ((settled statement s t).2.faults = t.faults → ∃ piece, Statement false piece ∧
        t.ahead = piece ++ (settled statement s t).2.ahead ∧
        R piece s (settled statement s t).1) := by
  refine ⟨grows_settled h t, fun hfaults => ?_⟩
  have hon := on_of_settled (h.imp fun _ _ hpiece => hpiece.1) hfaults
  have htook := h t
  rw [hon] at htook
  obtain ⟨piece, hahead, hpiece, hstep⟩ := htook.taken _ rfl hfaults
  exact ⟨piece, hpiece, hahead, hstep⟩

theorem took_statements
    (h : ∀ s, Reads (fun piece next => Statement false piece ∧ R piece s next) (statement s))
    (s : σ) (t : Tape) :
    Took t (fun taken last => ∃ inner stop, taken = inner ++ [⟨.mark '\x7d', stop⟩] ∧
      Steps R inner s last) (statements name statement s t) := by
  by_cases hahead : t.ahead = []
  · rw [statements_of_nil hahead]
    exact .error (List.suffix_refl _)
  obtain ⟨token, rest, hcons⟩ := List.exists_cons_of_ne_nil hahead
  by_cases hclose : token.lexeme = .mark '\x7d'
  · rw [statements_of_close hcons hclose]
    have htaken : t.ahead = [token] ++ rest := hcons
    refine .ok rfl htaken ⟨[], token.position, ?_, .nil s⟩
    rw [List.nil_append, ← hclose]
  · rw [statements_of_open hcons hclose]
    have hless := length_settled statement s hahead
    obtain ⟨hgrows, hsettled⟩ := took_settled (h s) t
    have hend := took_statements h (settled statement s t).1 (settled statement s t).2
    refine ⟨hgrows.trans hend.grows, fun last hlast hfaults => ?_⟩
    have hsame : (settled statement s t).2.faults = t.faults :=
      (hgrows.eq_of_length_le (hfaults ▸ hend.grows.length_le)).symm
    obtain ⟨piece, hpiece, hfirst, hstep⟩ := hsettled hsame
    obtain ⟨_, hothers, inner, stop, rfl, hsteps⟩ :=
      hend.taken last hlast (hfaults.trans hsame.symm)
    refine ⟨piece ++ inner ++ [⟨.mark '\x7d', stop⟩], ?_, piece ++ inner, stop, rfl,
      .cons hpiece hstep hsteps⟩
    rw [hfirst, hothers, List.append_assoc, List.append_assoc, List.append_assoc]
termination_by t.ahead.length

/-- A block takes its braces and the statements between them. -/
theorem reads_block
    (h : ∀ s, Reads (fun piece next => Statement false piece ∧ R piece s next) (statement s))
    (s : σ) : Reads (fun taken last => ∃ inner, Braces inner taken ∧ Steps R inner s last)
      (block name statement s) := by
  refine .mark_bind fun t => ?_
  have htook : Took t _ (statements name statement s t) := took_statements h s t
  refine ⟨htook.grows, fun last hlast hfaults => ?_⟩
  obtain ⟨_, hahead, inner, stop, rfl, hsteps⟩ := htook.taken last hlast hfaults
  exact ⟨_, hahead, fun start => ⟨inner, .intro start stop hsteps.balanced, hsteps⟩⟩

end Blocks

end Phrase

end ProtoSchema
