import ProtoSchema.Proofs.Schema.Recovery
import ProtoSchema.Proofs.Token.Reading

/-!
The order of errors. A phrase never goes back on its tape, and an error that it ends with
stands at the next token or at a place that was noted before, with no error put down since.
So whatever is put down from a place on stands behind that place and in front of the tokens
that are left, later errors not before earlier ones. Statements that are passed over after an
error and blocks in blocks keep this up, as reading only goes on behind what was taken. Each
error that is put down stands for a token that was taken, and so does a brace that opens a
block; hence a block always leaves a token over for an error of its own.
-/

namespace ProtoSchema

theorem Position.not_before_trans {p q r : Position} (h : ¬q.Before p) (hnext : ¬r.Before q) :
    ¬r.Before p :=
  fun hbefore => hnext (Position.before_of_not_before hbefore h)

structure Tape.Standing (Spot : Position → Prop) (t : Tape) : Prop where
  pairwise : t.ahead.Pairwise fun a b => a.position.Before b.position
  before_stop : ∀ token ∈ t.ahead, token.position.Before t.stop
  spots : ∀ token ∈ t.ahead, Spot token.position
  stop : Spot t.stop

namespace Tape.Standing

variable {Spot : Position → Prop} {t u : Tape}

theorem place (h : t.Standing Spot) : Spot t.place := by
  unfold Tape.place
  cases hahead : t.ahead with
  | nil => exact h.stop
  | cons token rest => exact h.spots token (hahead ▸ List.mem_cons_self)

theorem goOn (h : t.Standing Spot) (hsuffix : u.ahead <:+ t.ahead) (hstop : u.stop = t.stop) :
    u.Standing Spot where
  pairwise := h.pairwise.sublist hsuffix.sublist
  before_stop token htoken := hstop ▸ h.before_stop token (hsuffix.subset htoken)
  spots token htoken := h.spots token (hsuffix.subset htoken)
  stop := hstop ▸ h.stop

/-- Reading goes on behind what was taken. -/
theorem not_before (h : t.Standing Spot) (hsuffix : u.ahead <:+ t.ahead)
    (hstop : u.stop = t.stop) : ¬u.place.Before t.place := by
  obtain ⟨taken, htaken⟩ := hsuffix
  cases taken with
  | nil =>
    have hsame : u.place = t.place := by
      rw [List.nil_append] at htaken
      rw [Tape.place, Tape.place, htaken, hstop]
    rw [hsame]
    exact t.place.not_before_self
  | cons token rest =>
    have hplace : t.place = token.position := by rw [Tape.place, ← htaken, List.cons_append]
    have hmem : token ∈ t.ahead := by
      rw [← htaken, List.cons_append]
      exact List.mem_cons_self
    rw [hplace]
    intro hbefore
    refine Position.not_before_self _ (Position.Before.trans hbefore ?_)
    unfold Tape.place
    cases hahead : u.ahead with
    | nil => exact hstop ▸ h.before_stop token hmem
    | cons next others =>
      have hpairwise := h.pairwise
      rw [← htaken, List.cons_append, hahead] at hpairwise
      exact (List.pairwise_cons.mp hpairwise).1 next
        (List.mem_append_right rest List.mem_cons_self)

end Tape.Standing

structure Told (Spot : Position → Prop) (floor place : Position) (errors : List SyntaxError) :
    Prop where
  ordered : errors.Pairwise fun later earlier => ¬later.position.Before earlier.position
  inside : ∀ e ∈ errors, Spot e.position ∧ ¬e.position.Before floor ∧ ¬place.Before e.position

namespace Told

variable {Spot : Position → Prop} {floor place p q : Position} {errors more : List SyntaxError}

theorem nil : Told Spot floor place [] := ⟨.nil, List.forall_mem_nil _⟩

theorem singleton {e : SyntaxError} (hspot : Spot e.position) (hfloor : ¬e.position.Before floor)
    (hplace : ¬place.Before e.position) : Told Spot floor place [e] :=
  ⟨List.pairwise_singleton _ e, List.forall_mem_singleton.mpr ⟨hspot, hfloor, hplace⟩⟩

theorem widen (h : Told Spot p q errors) (hfloor : ¬p.Before floor) (hplace : ¬place.Before q) :
    Told Spot floor place errors :=
  ⟨h.ordered, fun e he =>
    have ⟨hspot, hp, hq⟩ := h.inside e he
    ⟨hspot, Position.not_before_trans hfloor hp, Position.not_before_trans hq hplace⟩⟩

theorem append (h : Told Spot floor p errors) (hmore : Told Spot p place more)
    (hfloor : ¬p.Before floor) (hplace : ¬place.Before p) :
    Told Spot floor place (more ++ errors) := by
  have hearlier := h.widen floor.not_before_self hplace
  have hlater := hmore.widen hfloor place.not_before_self
  refine ⟨List.pairwise_append.mpr ⟨hmore.ordered, h.ordered, ?_⟩,
    List.forall_mem_append.mpr ⟨hlater.inside, hearlier.inside⟩⟩
  intro later hmem earlier hmem'
  exact Position.not_before_trans (h.inside earlier hmem').2.2 (hmore.inside later hmem).2.1

end Told

namespace Phrase

variable {α β σ : Type}

def failure : Except SyntaxError α → List SyntaxError
  | .ok _ => []
  | .error e => [e]

/-- Reading from `t` only went on, and put down the new errors in their order from `floor` on.
An error that it ended with comes last. -/
structure Advance (Spot : Position → Prop) (floor : Position) (t : Tape) (new : List SyntaxError)
    (r : Except SyntaxError α × Tape) : Prop where
  suffix : r.2.ahead <:+ t.ahead
  stop : r.2.stop = t.stop
  faults : r.2.faults = new ++ t.faults
  told : Told Spot floor r.2.place (failure r.1 ++ new)

structure Sparing (spare : Nat) (Spot : Position → Prop) (floor : Position) (t : Tape)
    (new : List SyntaxError) (r : Except SyntaxError α × Tape) : Prop
    extends Advance Spot floor t new r where
  few : new = [] ∨ new.length + r.2.ahead.length + spare ≤ t.ahead.length

def Quiet (Spot : Position → Prop) (floor : Position) (p : Phrase α) : Prop :=
  ∀ t : Tape, t.Standing Spot → ¬t.place.Before floor → Advance Spot floor t [] (p.on t)

def Orderly (Spot : Position → Prop) (floor : Position) (p : Phrase α) : Prop :=
  ∀ t : Tape, t.Standing Spot → ¬t.place.Before floor →
    ∃ new, Sparing 1 Spot floor t new (p.on t)

variable {Spot : Position → Prop} {floor : Position} {t u : Tape} {new more : List SyntaxError}
  {p q : Phrase α} {f : α → Phrase β} {spare : Nat}

namespace Advance

theorem standing {r : Except SyntaxError α × Tape} (h : Advance Spot floor t new r)
    (ht : t.Standing Spot) : r.2.Standing Spot :=
  ht.goOn h.suffix h.stop

theorem not_before {r : Except SyntaxError α × Tape} (h : Advance Spot floor t new r)
    (ht : t.Standing Spot) : ¬r.2.place.Before t.place :=
  ht.not_before h.suffix h.stop

theorem goOn {behind : List Token} (a : α) (hsuffix : behind <:+ t.ahead) :
    Advance Spot floor t [] (.ok a, { t with ahead := behind }) :=
  ⟨hsuffix, rfl, rfl, .nil⟩

/-- Going on behind a phrase that put down no errors. -/
theorem trans_quiet {a : α} {r : Except SyntaxError β × Tape}
    (h : Advance Spot floor t [] (.ok a, u)) (hrest : Advance Spot floor u more r) :
    Advance Spot floor t more r :=
  ⟨hrest.suffix.trans h.suffix, hrest.stop.trans h.stop, by rw [hrest.faults, h.faults]; rfl,
    hrest.told⟩

/-- Going on behind a phrase, with the errors from there on. -/
theorem trans {a : α} {r : Except SyntaxError β × Tape} (ht : t.Standing Spot)
    (hfloor : ¬t.place.Before floor) (h : Advance Spot floor t new (.ok a, u))
    (hrest : Advance Spot u.place u more r) : Advance Spot floor t (more ++ new) r := by
  refine ⟨hrest.suffix.trans h.suffix, hrest.stop.trans h.stop, ?_, ?_⟩
  · rw [hrest.faults, h.faults, List.append_assoc]
  · rw [← List.append_assoc]
    exact Told.append h.told hrest.told (Position.not_before_trans hfloor (h.not_before ht))
      (hrest.not_before (h.standing ht))

/-- The phrase failed, so nothing is read behind it. -/
theorem of_error {e : SyntaxError} {r : Except SyntaxError α × Tape}
    (h : Advance Spot floor t new r) (hr : r.1 = .error e) :
    Advance Spot floor t new ((.error e : Except SyntaxError β), r.2) := by
  obtain ⟨hsuffix, hstop, hfaults, htold⟩ := h
  rw [hr] at htold
  exact ⟨hsuffix, hstop, hfaults, htold⟩

theorem sparing {r : Except SyntaxError α × Tape} (h : Advance Spot floor t [] r) :
    Sparing spare Spot floor t [] r :=
  ⟨h, .inl rfl⟩

end Advance

namespace Sparing

/-- Going on behind a phrase that put down no errors. -/
theorem trans_quiet {a : α} {r : Except SyntaxError β × Tape}
    (h : Advance Spot floor t [] (.ok a, u)) (hrest : Sparing spare Spot floor u more r) :
    Sparing spare Spot floor t more r := by
  refine ⟨h.trans_quiet hrest.toAdvance, hrest.few.imp_right fun hfew => ?_⟩
  exact Nat.le_trans hfew h.suffix.length_le

theorem trans {a : α} {r : Except SyntaxError β × Tape} (ht : t.Standing Spot)
    (hfloor : ¬t.place.Before floor) (h : Sparing spare Spot floor t new (.ok a, u))
    (hrest : Sparing spare Spot u.place u more r) : Sparing spare Spot floor t (more ++ new) r := by
  refine ⟨h.toAdvance.trans ht hfloor hrest.toAdvance, ?_⟩
  have hless : r.2.ahead.length ≤ u.ahead.length := hrest.suffix.length_le
  have hbefore : u.ahead.length ≤ t.ahead.length := h.suffix.length_le
  rcases h.few with rfl | hfew
  · exact hrest.few.imp (by rintro rfl; rfl) fun hmore => by simp only [List.append_nil]; omega
  · right
    simp only at hfew
    rw [List.length_append]
    rcases hrest.few with rfl | hmore
    · simp only [List.length_nil]
      omega
    · omega

theorem of_error {e : SyntaxError} {r : Except SyntaxError α × Tape}
    (h : Sparing spare Spot floor t new r) (hr : r.1 = .error e) :
    Sparing spare Spot floor t new ((.error e : Except SyntaxError β), r.2) :=
  ⟨h.toAdvance.of_error hr, h.few⟩

end Sparing

namespace Quiet

theorem orderly (h : Quiet Spot floor p) : Orderly Spot floor p :=
  fun t ht hfloor => ⟨[], (h t ht hfloor).sparing⟩

theorem pure (a : α) : Quiet Spot floor (Pure.pure a : Phrase α) :=
  fun _ _ _ => .goOn a (List.suffix_refl _)

/-- An error may stand at a place that was noted, or at the next token. -/
theorem failAt (hspot : Spot floor) (fault : SyntaxFault) :
    Quiet Spot floor (Phrase.failAt floor fault : Phrase α) :=
  fun _ _ hfloor => ⟨List.suffix_refl _, rfl, rfl,
    .singleton hspot floor.not_before_self hfloor⟩

theorem bind (hp : Quiet Spot floor p) (hf : ∀ a, Quiet Spot floor (f a)) :
    Quiet Spot floor (p >>= f) := by
  intro t ht hfloor
  have hfirst := hp t ht hfloor
  refine on_bind_cases (P := Advance Spot floor t []) (fun a u hon => ?_) fun e u hon => ?_
  · rw [hon] at hfirst
    have hbehind := Position.not_before_trans hfloor (hfirst.not_before ht)
    exact hfirst.trans_quiet (hf a u (hfirst.standing ht) hbehind)
  · rw [hon] at hfirst
    exact hfirst.of_error rfl

theorem bind_orderly (hp : Quiet Spot floor p) (hf : ∀ a, Orderly Spot floor (f a)) :
    Orderly Spot floor (p >>= f) := by
  intro t ht hfloor
  have hfirst := hp t ht hfloor
  refine on_bind_cases (P := fun r => ∃ new, Sparing 1 Spot floor t new r) (fun a u hon => ?_)
    fun e u hon => ?_
  · rw [hon] at hfirst
    have hbehind := Position.not_before_trans hfloor (hfirst.not_before ht)
    obtain ⟨new, hrest⟩ := hf a u (hfirst.standing ht) hbehind
    exact ⟨new, .trans_quiet hfirst hrest⟩
  · rw [hon] at hfirst
    exact ⟨[], (hfirst.of_error rfl).sparing⟩

/-- From the place on that is noted, errors may stand at it. -/
theorem place_bind {f : Position → Phrase β}
    (h : ∀ position, Spot position → Quiet Spot position (f position)) :
    Quiet Spot floor (Phrase.place >>= f) := by
  intro t ht hfloor
  obtain ⟨hsuffix, hstop, hfaults, htold⟩ := h t.place ht.place t ht t.place.not_before_self
  exact ⟨hsuffix, hstop, hfaults, htold.widen hfloor (Position.not_before_self _)⟩

end Quiet

namespace Orderly

theorem bind (hp : Orderly Spot floor p) (hf : ∀ a floor, Orderly Spot floor (f a)) :
    Orderly Spot floor (p >>= f) := by
  intro t ht hfloor
  obtain ⟨new, hfirst⟩ := hp t ht hfloor
  refine on_bind_cases (P := fun r => ∃ new, Sparing 1 Spot floor t new r) (fun a u hon => ?_)
    fun e u hon => ?_
  · rw [hon] at hfirst
    obtain ⟨more, hrest⟩ := hf a u.place u (hfirst.standing ht) u.place.not_before_self
    exact ⟨more ++ new, hfirst.trans ht hfloor hrest⟩
  · rw [hon] at hfirst
    exact ⟨new, hfirst.of_error rfl⟩

theorem place_bind {f : Position → Phrase β}
    (h : ∀ position, Spot position → Orderly Spot position (f position)) :
    Orderly Spot floor (Phrase.place >>= f) := by
  intro t ht hfloor
  obtain ⟨new, ⟨hsuffix, hstop, hfaults, htold⟩, hfew⟩ :=
    h t.place ht.place t ht t.place.not_before_self
  exact ⟨new, ⟨hsuffix, hstop, hfaults, htold.widen hfloor (Position.not_before_self _)⟩, hfew⟩

end Orderly

section Steps

theorem quiet_look (k : Nat) : Quiet Spot floor (look k) :=
  fun t _ _ => .goOn (t.lexeme? k) (List.suffix_refl _)

theorem quiet_tape : Quiet Spot floor tape :=
  fun t _ _ => .goOn t (List.suffix_refl _)

theorem quiet_skip (k : Nat) : Quiet Spot floor (skip k) :=
  fun t _ _ => .goOn () (List.drop_suffix k t.ahead)

theorem quiet_expected (wanted : Wanted) : Quiet Spot floor (expected wanted : Phrase α) :=
  .place_bind fun _ hspot => (quiet_look 0).bind fun _ => .failAt hspot _

/-- The phrase fails, so nothing behind it matters. -/
theorem quiet_failAt_bind (hspot : Spot floor) (fault : SyntaxFault) :
    Quiet Spot floor ((failAt floor fault : Phrase α) >>= f) := by
  intro t ht hfloor
  rw [on_bind]
  exact (Quiet.failAt (α := β) hspot fault) t ht hfloor

theorem quiet_take? (lexeme : Lexeme) : Quiet Spot floor (take? lexeme) := by
  refine (quiet_look 0).bind fun found => ?_
  split
  · exact (quiet_skip 1).bind fun _ => .pure true
  · exact .pure false

theorem quiet_mark (c : Char) : Quiet Spot floor (mark c) := by
  refine (quiet_take? _).bind fun found => ?_
  cases found with
  | true => exact .pure ()
  | false => exact quiet_expected _

theorem quiet_keyword (name : String) : Quiet Spot floor (keyword name) := by
  refine (quiet_take? _).bind fun found => ?_
  cases found with
  | true => exact .pure ()
  | false => exact quiet_expected _

theorem quiet_identifier : Quiet Spot floor identifier := by
  refine (quiet_look 0).bind fun found => ?_
  split
  · exact (quiet_skip 1).bind fun _ => .pure _
  · exact quiet_expected _

theorem quiet_moreSeparated (sep : Char) (h : Quiet Spot floor p) (rounds : Nat) :
    Quiet Spot floor (moreSeparated sep p rounds) := by
  induction rounds with
  | zero => exact .pure []
  | succ rounds ih =>
    refine (quiet_take? _).bind fun found => ?_
    cases found with
    | true => exact h.bind fun _ => ih.bind fun _ => .pure _
    | false => exact .pure []

theorem quiet_separated (sep : Char) (h : Quiet Spot floor p) :
    Quiet Spot floor (separated sep p) :=
  h.bind fun _ => quiet_tape.bind fun _ => (quiet_moreSeparated sep h _).bind fun _ => .pure _

theorem quiet_literal : Quiet Spot floor literal := by
  refine quiet_tape.bind fun t => ?_
  split
  · exact quiet_expected _
  · exact (quiet_skip _).bind fun _ => .pure _

theorem quiet_integer : Quiet Spot floor integer := by
  refine (quiet_take? _).bind fun negative => (quiet_look 0).bind fun found => ?_
  split
  · split
    · exact (quiet_skip 1).bind fun _ => .pure _
    · exact .place_bind fun _ hspot => .failAt hspot _
  · exact quiet_expected _

end Steps

section Blocks

variable {statement : σ → Phrase σ}

/-- A statement that failed has its error put down as the latest. An error alone may stand where
nothing was taken. -/
theorem advance_attempt (h : ∀ s, Orderly Spot floor (statement s)) (s : σ) (ht : t.Standing Spot)
    (hfloor : ¬t.place.Before floor) :
    ∃ new, Advance Spot floor t new
        ((.ok (attempt statement s t).1 : Except SyntaxError σ), (attempt statement s t).2) ∧
      (new.length ≤ 1 ∨ new.length + (attempt statement s t).2.ahead.length ≤ t.ahead.length) := by
  obtain ⟨new, hread⟩ := h s t ht hfloor
  have hstanding := hread.standing ht
  unfold attempt
  generalize (statement s).on t = r at hread hstanding ⊢
  obtain ⟨result, u⟩ := r
  obtain ⟨⟨hsuffix, hstop, hfaults, htold⟩, hfew⟩ := hread
  cases result with
  | ok s' =>
    refine ⟨new, ⟨hsuffix, hstop, hfaults, htold⟩, hfew.imp (by rintro rfl; simp) fun hless => ?_⟩
    exact Nat.le_of_succ_le hless
  | error e =>
    have hresume := resume_suffix 0 u.ahead
    have hon : ¬(carryOn u e).place.Before u.place :=
      hstanding.not_before (u := carryOn u e) hresume rfl
    refine ⟨e :: new, ⟨hresume.trans hsuffix, hstop, congrArg (e :: ·) hfaults,
      htold.widen floor.not_before_self hon⟩, hfew.imp (by rintro rfl; simp) fun hless => ?_⟩
    have hpassed : (carryOn u e).ahead.length ≤ u.ahead.length := hresume.length_le
    simp only [List.length_cons] at hless ⊢
    omega

theorem sparing_settled (h : ∀ s, Orderly Spot floor (statement s)) (s : σ) (ht : t.Standing Spot)
    (hfloor : ¬t.place.Before floor) (hahead : t.ahead ≠ []) :
    ∃ new, Sparing 0 Spot floor t new
      ((.ok (settled statement s t).1 : Except SyntaxError σ), (settled statement s t).2) := by
  obtain ⟨new, hread, hfew⟩ := advance_attempt h s ht hfloor
  have hstanding := hread.standing ht
  have hless := length_settled statement s hahead
  refine ⟨new, ?_⟩
  unfold settled at hless ⊢
  generalize attempt statement s t = r at hread hstanding hfew hless ⊢
  obtain ⟨s', u⟩ := r
  by_cases htook : u.ahead.length < t.ahead.length
  · simp only [if_pos htook] at hfew ⊢
    exact ⟨hread, .inr (by rcases hfew with hone | hfew <;> simp only <;> omega)⟩
  · simp only [if_neg htook] at hfew hless ⊢
    have hsame : u.ahead = t.ahead := hread.suffix.eq_of_length_le (Nat.le_of_not_lt htook)
    have hdrop : t.ahead.drop 1 <:+ u.ahead := hsame ▸ List.drop_suffix 1 u.ahead
    have hon := hstanding.not_before (u := { u with ahead := t.ahead.drop 1 }) hdrop rfl
    refine ⟨⟨List.drop_suffix 1 t.ahead, hread.stop, hread.faults,
      hread.told.widen floor.not_before_self hon⟩, .inr ?_⟩
    have hpassed := hdrop.length_le
    simp only
    rcases hfew with hone | hfew
    · omega
    · omega

/-- The statements of a block, whose errors come before that of a missing brace. -/
theorem sparing_statements (h : ∀ s floor, Orderly Spot floor (statement s)) (name : String) (s : σ)
    {floor : Position} {t : Tape} (ht : t.Standing Spot) (hfloor : ¬t.place.Before floor) :
    ∃ new, Sparing 0 Spot floor t new (statements name statement s t) := by
  cases hahead : t.ahead with
  | nil =>
    rw [statements_of_nil hahead]
    have hplace : t.place = t.stop := by rw [Tape.place, hahead]
    rw [hplace] at hfloor
    refine ⟨[], ⟨List.suffix_refl _, rfl, rfl, .singleton ht.stop hfloor ?_⟩, .inl rfl⟩
    rw [hplace]
    exact t.stop.not_before_self
  | cons token rest =>
    by_cases hclose : token.lexeme = .mark '\x7d'
    · rw [statements_of_close hahead hclose]
      exact ⟨[], (Advance.goOn s (hahead ▸ List.suffix_cons token rest)).sparing⟩
    · rw [statements_of_open hahead hclose]
      have hne : t.ahead ≠ [] := by simp [hahead]
      obtain ⟨new, hfirst⟩ := sparing_settled (fun s => h s floor) s ht hfloor hne
      have hless := length_settled statement s hne
      obtain ⟨more, hrest⟩ := sparing_statements h name (settled statement s t).1
        (hfirst.standing ht) (Position.not_before_self _)
      exact ⟨more ++ new, hfirst.trans ht hfloor hrest⟩
termination_by t.ahead.length

/-- The opening brace is the token that a block leaves over. -/
theorem orderly_block (h : ∀ s floor, Orderly Spot floor (statement s)) (name : String) (s : σ) :
    Orderly Spot floor (block name statement s) := by
  intro t ht hfloor
  have hmark := quiet_mark '\x7b' t ht hfloor
  rw [on_mark] at hmark
  by_cases hopen : t.lexeme? 0 = some (.mark '\x7b')
  · rw [if_pos hopen] at hmark
    have hbehind := Position.not_before_trans hfloor (hmark.not_before ht)
    obtain ⟨new, hread⟩ := sparing_statements h name s (t := t.drop 1) (hmark.standing ht) hbehind
    have hpos := Bond.length_pos_of_lexeme? hopen
    have hdrop : (t.drop 1).ahead.length = t.ahead.length - 1 := List.length_drop
    rw [on_block hopen]
    exact ⟨new, hmark.trans_quiet hread.toAdvance, hread.few.imp_right fun hfew => by omega⟩
  · rw [if_neg hopen] at hmark
    rw [block, on_bind, on_mark, if_neg hopen]
    exact ⟨[], (hmark.of_error rfl).sparing⟩

end Blocks

end Phrase

end ProtoSchema
