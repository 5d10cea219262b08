import Mathlib.Logic.Function.Iterate
import ProtoSchema.Proofs.Schema.Errors
import ProtoSchema.Proofs.Schema.Nesting
import ProtoSchema.Proofs.Token.Layout

/-!
Progress on any tokens. A statement is guarded: when it fails, its error is put down and reading
resumes behind it, and a token is dropped if nothing was taken in all. As a statement that
succeeds takes something, each guarded statement takes at least one token. So the loops over the
statements of a file and of a block end within as many rounds as there are tokens, the cursor
only goes on, up to the end of the tokens, and there are no more errors than tokens.
-/

namespace ProtoSchema

open Schema

structure Tape.At (tokens : List Token) (cursor : Nat) (t : Tape) : Prop where
  ahead : t.ahead = tokens.drop cursor
  inside : cursor ≤ tokens.length

namespace Tape.At

variable {tokens : List Token} {cursor k : Nat} {t u : Tape}

theorem length_eq (h : t.At tokens cursor) : t.ahead.length = tokens.length - cursor := by
  rw [h.ahead, List.length_drop]

/-- Where at least `k` tokens were taken the cursor went on by as many. -/
theorem goOn (h : t.At tokens cursor) (hsuffix : u.ahead <:+ t.ahead)
    (htakes : u.ahead.length + k ≤ t.ahead.length) :
    ∃ next, cursor + k ≤ next ∧ u.At tokens next := by
  have hlength := h.length_eq
  have hinside := h.inside
  rw [h.ahead] at hsuffix
  have hall := List.suffix_iff_eq_drop.mp (hsuffix.trans (List.drop_suffix cursor tokens))
  exact ⟨tokens.length - u.ahead.length, by omega, hall, Nat.sub_le _ _⟩

end Tape.At

namespace Phrase

variable {σ : Type} {statement : σ → Phrase σ} {s : σ} {t : Tape} {body : BodyReader}

/-- Runs a statement. Behind one that fails reading resumes, and where this takes nothing a
token is dropped. -/
def guarded (statement : σ → Phrase σ) (s : σ) (t : Tape) : σ × Tape :=
  match (statement s).on t with
  | (.ok s', t') => (s', t')
  | (.error e, t') =>
    let behind := carryOn t' e
    (s, if behind.ahead.length = t.ahead.length then behind.drop 1 else behind)

section Guards

/-- A success takes something, so only a failure may have to drop a token. -/
theorem settled_eq_guarded (h : MovesOn 1 (statement s)) (t : Tape) :
    settled statement s t = guarded statement s t := by
  obtain ⟨hsuffix, htakes⟩ := h t
  rw [settled, attempt, guarded]
  generalize (statement s).on t = r at hsuffix htakes ⊢
  obtain ⟨result, t'⟩ := r
  cases result with
  | ok s' =>
    have hless : t'.ahead.length < t.ahead.length := htakes s' rfl
    simp only [if_pos hless]
  | error e =>
    have hbehind : (carryOn t' e).ahead <:+ t.ahead := (resume_suffix 0 t'.ahead).trans hsuffix
    by_cases hsame : (carryOn t' e).ahead.length = t.ahead.length
    · have hleft : (carryOn t' e).ahead = t.ahead := hbehind.eq_of_length hsame
      simp only [hleft, Nat.lt_irrefl, if_false, if_true, Tape.drop]
    · have hless := Nat.lt_of_le_of_ne hbehind.length_le hsame
      simp only [if_neg hsame, if_pos hless]

theorem guarded_suffix (h : MovesOn 1 (statement s)) (t : Tape) :
    (guarded statement s t).2.ahead <:+ t.ahead := by
  have hsuffix := (h t).1
  rw [guarded]
  generalize (statement s).on t = r at hsuffix ⊢
  obtain ⟨result, t'⟩ := r
  cases result with
  | ok s' => exact hsuffix
  | error e =>
    have hbehind : (carryOn t' e).ahead <:+ t.ahead := (resume_suffix 0 t'.ahead).trans hsuffix
    simp only
    split
    · exact (List.drop_suffix 1 _).trans hbehind
    · exact hbehind

/-- Where no closing brace comes first, resuming takes something itself. -/
theorem attempt_eq_guarded (h : MovesOn 1 (statement s)) {token : Token} {rest : List Token}
    (hahead : t.ahead = token :: rest) (hopen : token.lexeme ≠ .mark '\x7d') :
    attempt statement s t = guarded statement s t := by
  have hsuffix := (h t).1
  rw [attempt, guarded]
  generalize (statement s).on t = r at hsuffix ⊢
  obtain ⟨result, t'⟩ := r
  cases result with
  | ok s' => rfl
  | error e =>
    rw [hahead] at hsuffix
    have hless : (carryOn t' e).ahead.length < t.ahead.length := by
      rw [hahead]
      exact resume_length_lt_of_suffix hsuffix hopen
    simp only [if_neg (Nat.ne_of_lt hless)]

/-- At the cursor the statement is settled as a guarded one, and the cursor goes on. -/
def Progresses (tokens : List Token) (statement : σ → Phrase σ) (s : σ) (cursor : Nat)
    (t : Tape) : Prop :=
  settled statement s t = guarded statement s t ∧
    ∃ next, cursor < next ∧ (guarded statement s t).2.At tokens next

theorem MovesOn.progresses (h : MovesOn 1 (statement s)) {tokens : List Token} {cursor : Nat}
    (hcursor : t.At tokens cursor) (hless : cursor < tokens.length) :
    Progresses tokens statement s cursor t := by
  have hlength := hcursor.length_eq
  have hahead : t.ahead ≠ [] := List.length_pos_iff.mp (by omega)
  have htakes := length_settled statement s hahead
  rw [settled_eq_guarded h] at htakes
  obtain ⟨next, hnext, hbehind⟩ := hcursor.goOn (k := 1) (guarded_suffix h t) htakes
  exact ⟨settled_eq_guarded h t, next, hnext, hbehind⟩

end Guards

section Loops

theorem ReadsItems.movesOn (h : ReadsItems statement) (s : σ) : MovesOn 1 (statement s) := by
  refine movesOn_of_alike fun l n hword => ?_
  obtain ⟨S, hrefl, halike⟩ := h.alike hword n
  exact ⟨S, statement s, halike s s (hrefl s)⟩

/-- Of the file only counts whether it has a package. -/
theorem movesOn_fileStatement (depth : Nat) (isFirst : Bool) (file : File) :
    MovesOn 1 (fileStatement (bodyWithin depth) isFirst file) := by
  refine movesOn_of_alike fun l n hword => ?_
  -- The package of `file` may be an empty name, which no text gives: another file stands in.
  let start : File := { File.empty with package := file.package.map fun _ => ["p"] }
  have hstart : l.SameStart start file := by
    refine ⟨Option.isSome_map, ⟨?_, List.forall_mem_nil _, List.forall_mem_nil _,
      List.forall_mem_nil _⟩⟩
    intro name hname
    obtain ⟨_, _, rfl⟩ := Option.map_eq_some_iff.mp hname
    exact ⟨"p", [], rfl, hword _⟩
  exact ⟨_, _, Bond.fileStatement (Bond.bodyWithin depth depth (.inl rfl)) isFirst hstart⟩

theorem movesOn_fileStatement_of_recursive (hbody : body.Recursive) (isFirst : Bool)
    (file : File) : MovesOn 1 (fileStatement body isFirst file) := by
  intro t
  have hagree : BodiesAgree (t.ahead.length - 1) body (bodyWithin (t.ahead.length + 1)) := by
    rw [hbody.eq_bodyOfAnyDepth]
    exact bodiesAgree_bodyOfAnyDepth _ (by omega)
  rw [agree_fileStatement hagree isFirst file t (Nat.le_refl _)]
  exact movesOn_fileStatement _ isFirst file t

/-- The loop over the statements of a file, for at most `rounds` rounds. -/
def fileLoop (body : BodyReader) : Nat → Bool → File → Tape → Option (File × Tape)
  | 0, _, _, _ => none
  | rounds + 1, isFirst, file, t =>
    if t.ahead = [] then some (file, t)
    else
      let read := guarded (fileStatement body isFirst) file t
      fileLoop body rounds false read.1 read.2

theorem fileLoop_eq (h : ∀ isFirst file, MovesOn 1 (fileStatement body isFirst file))
    (rounds : Nat) (isFirst : Bool) (file : File) {t : Tape} (ht : t.ahead.length < rounds) :
    fileLoop body rounds isFirst file t = some (fileStatements body isFirst file t) := by
  induction rounds generalizing isFirst file t with
  | zero => exact absurd ht (Nat.not_lt_zero _)
  | succ rounds ih =>
    rw [fileLoop]
    by_cases hahead : t.ahead = []
    · rw [if_pos hahead, fileStatements_of_nil hahead]
    · have hless := length_settled (fileStatement body isFirst) file hahead
      rw [if_neg hahead, fileStatements_of_ne_nil hahead]
      rw [settled_eq_guarded (h isFirst file)] at hless ⊢
      exact ih false _ (by omega)

theorem ahead_fileStatements (body : BodyReader) (isFirst : Bool) (file : File) (t : Tape) :
    (fileStatements body isFirst file t).2.ahead = [] := by
  by_cases hahead : t.ahead = []
  · rw [fileStatements_of_nil hahead, hahead]
  · have hless := length_settled (fileStatement body isFirst) file hahead
    rw [fileStatements_of_ne_nil hahead]
    exact ahead_fileStatements body false _ _
termination_by t.ahead.length

/-- The loop over the statements of a block, for at most `rounds` rounds. -/
def blockLoop (name : String) (statement : σ → Phrase σ) :
    Nat → σ → Tape → Option (Except SyntaxError σ × Tape)
  | 0, _, _ => none
  | rounds + 1, s, t =>
    if t.lexeme? 0 = some (.mark '\x7d') then some (.ok s, t.drop 1)
    else if t.ahead = [] then some ((expected (.closing name)).on t)
    else
      let read := guarded statement s t
      blockLoop name statement rounds read.1 read.2

theorem blockLoop_eq (h : ∀ s, MovesOn 1 (statement s)) (name : String) (rounds : Nat) (s : σ)
    {t : Tape} (ht : t.ahead.length < rounds) :
    blockLoop name statement rounds s t = some (statements name statement s t) := by
  induction rounds generalizing s t with
  | zero => exact absurd ht (Nat.not_lt_zero _)
  | succ rounds ih =>
    rw [blockLoop]
    cases hahead : t.ahead with
    | nil =>
      have hnone : t.lexeme? 0 = none := by simp [Tape.lexeme?, hahead]
      have hplace : t.place = t.stop := by rw [Tape.place, hahead]
      rw [statements_of_nil hahead, on_expected, hnone, hplace, if_neg (by simp), if_pos rfl]
    | cons token rest =>
      have hlook : t.lexeme? 0 = some token.lexeme := by simp [Tape.lexeme?, hahead]
      by_cases hclose : token.lexeme = .mark '\x7d'
      · have hdrop : t.drop 1 = { t with ahead := rest } := by simp [Tape.drop, hahead]
        rw [statements_of_close hahead hclose, hlook, hclose, if_pos rfl, hdrop]
      · have hless := length_settled statement s (by simp [hahead] : t.ahead ≠ [])
        rw [statements_of_open hahead hclose, hlook, if_neg (by simpa using hclose),
          if_neg (List.cons_ne_nil _ _)]
        rw [settled_eq_guarded (h s)] at hless ⊢
        exact ih _ (by omega)

theorem statements_suffix (h : ∀ s, MovesOn 1 (statement s)) (name : String) (s : σ) (t : Tape) :
    (statements name statement s t).2.ahead <:+ t.ahead := by
  cases hahead : t.ahead with
  | nil =>
    rw [statements_of_nil hahead]
    exact List.suffix_nil.mpr hahead
  | cons token rest =>
    by_cases hclose : token.lexeme = .mark '\x7d'
    · rw [statements_of_close hahead hclose]
      exact List.suffix_cons token rest
    · have hless := length_settled statement s (by simp [hahead] : t.ahead ≠ [])
      have hsettled : (settled statement s t).2.ahead <:+ t.ahead := by
        rw [settled_eq_guarded (h s)]
        exact guarded_suffix (h s) t
      rw [statements_of_open hahead hclose, ← hahead]
      exact (statements_suffix h name _ _).trans hsettled
termination_by t.ahead.length

end Loops

end Phrase

structure Passing where
  depth : Int
  ahead : List Token
  ended : Bool

namespace Passing

variable {p : Passing} {tokens behind : List Token}

def round (p : Passing) : Passing :=
  match p with
  | ⟨_, _, true⟩ => p
  | ⟨depth, [], false⟩ => ⟨depth, [], true⟩
  | ⟨depth, token :: rest, false⟩ =>
    if token.isMark '\x7d' ∧ depth = 0 then ⟨depth, token :: rest, true⟩
    else if token.isMark ';' ∧ depth = 0 then ⟨depth, rest, true⟩
    else if token.isMark '\x7b' then ⟨depth + 1, rest, false⟩
    else if token.isMark '\x7d' then ⟨depth - 1, rest, depth - 1 = 0⟩
    else ⟨depth, rest, false⟩

structure Sound (tokens behind : List Token) (p : Passing) : Prop where
  depth : 0 ≤ p.depth
  suffix : p.ahead <:+ tokens
  resumes : (if p.ended then p.ahead else resume p.depth.toNat p.ahead) = behind

def left (p : Passing) : Nat := if p.ended then 0 else p.ahead.length + 1

theorem sound_start (tokens : List Token) : Sound tokens (resume 0 tokens) ⟨0, tokens, false⟩ :=
  ⟨Int.le_refl 0, List.suffix_refl _, rfl⟩

section Rounds

variable {token : Token} {rest : List Token}

/-- Outside blocks a closing brace is left to the block around the statement. -/
theorem round_outside (hsuffix : token :: rest <:+ tokens) (hrest : rest <:+ tokens)
    (hresumes : resume 0 (token :: rest) = behind) :
    Sound tokens behind (Passing.round ⟨0, token :: rest, false⟩) := by
  unfold resume at hresumes
  simp only [Passing.round]
  split at hresumes
  · next hclose =>
    rw [if_pos ⟨hclose, trivial⟩]
    exact ⟨Int.le_refl 0, hsuffix, hresumes⟩
  · next hclose =>
    rw [if_neg fun h => hclose h.1]
    split at hresumes
    · next hend =>
      rw [if_pos ⟨hend, trivial⟩]
      exact ⟨Int.le_refl 0, hrest, hresumes⟩
    · next hend =>
      rw [if_neg fun h => hend h.1]
      split at hresumes
      · next hopen =>
        rw [if_pos hopen]
        exact ⟨Int.zero_le_ofNat 1, hrest, hresumes⟩
      · next hopen =>
        rw [if_neg hopen, if_neg hclose]
        exact ⟨Int.le_refl 0, hrest, hresumes⟩

/-- Inside blocks only braces count. -/
theorem round_inside {depth : Nat} (hrest : rest <:+ tokens)
    (hresumes : resume (depth + 1) (token :: rest) = behind) :
    Sound tokens behind (Passing.round ⟨(depth + 1 : Nat), token :: rest, false⟩) := by
  have hdepth : ((depth + 1 : Nat) : Int) ≠ 0 := by omega
  unfold resume at hresumes
  simp only [Passing.round, hdepth, and_false, if_false]
  split at hresumes
  · next hopen =>
    rw [if_pos hopen]
    exact ⟨by simp only; omega, hrest, hresumes⟩
  · next hopen =>
    rw [if_neg hopen]
    split at hresumes
    · next hclose =>
      rw [if_pos hclose]
      cases depth with
      | zero => exact ⟨Int.le_refl 0, hrest, hresumes⟩
      | succ depth =>
        have hinner : ((depth + 1 + 1 : Nat) : Int) - 1 = (depth + 1 : Nat) := by omega
        have hopen : ¬((depth + 1 : Nat) : Int) = 0 := by omega
        rw [hinner, decide_eq_false hopen]
        exact ⟨Int.natCast_nonneg _, hrest, hresumes⟩
    · next hclose =>
      rw [if_neg hclose]
      exact ⟨by simp only; omega, hrest, hresumes⟩

end Rounds

/-- A round keeps this up: a brace closes a block only where one is open. -/
theorem Sound.round (h : Sound tokens behind p) : Sound tokens behind p.round := by
  obtain ⟨depth, ahead, ended⟩ := p
  obtain ⟨hdepth, hsuffix, hresumes⟩ := h
  cases ended with
  | true => exact ⟨hdepth, hsuffix, hresumes⟩
  | false =>
    obtain ⟨depth, rfl⟩ := Int.eq_ofNat_of_zero_le hdepth
    simp only [Bool.false_eq_true, if_false, Int.toNat_natCast] at hresumes
    cases ahead with
    | nil =>
      refine ⟨hdepth, hsuffix, Eq.trans ?_ hresumes⟩
      cases depth with
      | zero => rfl
      | succ depth => rfl
    | cons token rest =>
      have hrest : rest <:+ tokens := (List.suffix_cons token rest).trans hsuffix
      cases depth with
      | zero => exact round_outside hsuffix hrest hresumes
      | succ depth => exact round_inside hrest hresumes

theorem left_round (p : Passing) : p.round.left ≤ p.left - 1 := by
  obtain ⟨depth, ahead, ended⟩ := p
  cases ended with
  | true => exact Nat.zero_le _
  | false =>
    cases ahead with
    | nil => exact Nat.zero_le _
    | cons token rest =>
      have hpassed (depth : Int) (ended : Bool) :
          left ⟨depth, rest, ended⟩ ≤ rest.length + 1 := by
        unfold left
        split
        · exact Nat.zero_le _
        · exact Nat.le_refl _
      simp only [Passing.round]
      split
      · exact Nat.zero_le _
      split
      · exact hpassed _ _
      split
      · exact hpassed _ _
      split
      · exact hpassed _ _
      · exact hpassed _ _

def atRound (tokens : List Token) (rounds : Nat) : Passing :=
  Passing.round^[rounds] ⟨0, tokens, false⟩

theorem atRound_succ (tokens : List Token) (rounds : Nat) :
    atRound tokens (rounds + 1) = (atRound tokens rounds).round :=
  Function.iterate_succ_apply' ..

theorem sound_atRound (tokens : List Token) (rounds : Nat) :
    Sound tokens (resume 0 tokens) (atRound tokens rounds) := by
  induction rounds with
  | zero => exact sound_start tokens
  | succ rounds ih =>
    rw [atRound_succ]
    exact ih.round

theorem left_atRound (tokens : List Token) (rounds : Nat) :
    (atRound tokens rounds).left ≤ tokens.length + 1 - rounds := by
  induction rounds with
  | zero => exact Nat.le_refl _
  | succ rounds ih =>
    have hround := left_round (atRound tokens rounds)
    rw [atRound_succ]
    omega

theorem ended_atRound (tokens : List Token) {rounds : Nat} (h : tokens.length < rounds) :
    (atRound tokens rounds).ended = true := by
  have hleft := left_atRound tokens rounds
  unfold left at hleft
  by_contra hopen
  rw [if_neg hopen] at hleft
  omega

end Passing

namespace Token

def numbered (tokens : List Token) : List Token :=
  tokens.mapIdx fun i token => ⟨token.lexeme, ⟨1, i⟩⟩

theorem lexemes_numbered (tokens : List Token) :
    (numbered tokens).map (·.lexeme) = tokens.map (·.lexeme) := by
  refine List.ext_getElem (by simp [numbered]) fun i hi hi' => ?_
  simp [numbered]

theorem pairwise_numbered (tokens : List Token) :
    (numbered tokens).Pairwise fun a b => a.position.Before b.position := by
  refine List.pairwise_iff_getElem.mpr fun i j hi hj hless => ?_
  simp only [numbered, List.getElem_mapIdx]
  exact .inr ⟨rfl, hless⟩

theorem numbered_before_stop (tokens : List Token) :
    ∀ token ∈ numbered tokens, token.position.Before ⟨2, 1⟩ := by
  intro token htoken
  obtain ⟨i, hi, rfl⟩ := List.mem_mapIdx.mp htoken
  exact .inl (Nat.lt_succ_self 1)

end Token

namespace Schema.File

open Phrase

/-- Each error stands for a token, which places have no part in. -/
theorem length_errorsOf_le (tokens : List Token) (stop : Position) :
    (errorsOf (ofTokens tokens stop)).length ≤ tokens.length := by
  -- Errors are counted along their places, so the tokens are put at places that go up.
  let numbered := Token.numbered tokens
  obtain ⟨move, hmoved, hstop⟩ := Token.exists_moved stop (Token.lexemes_numbered tokens).symm
    (Token.pairwise_numbered tokens) (Token.numbered_before_stop tokens)
  have hstanding : (⟨numbered, ⟨2, 1⟩, []⟩ : Tape).Standing fun _ => True :=
    ⟨Token.pairwise_numbered tokens, Token.numbered_before_stop tokens, fun _ _ => trivial, trivial⟩
  obtain ⟨new, hread⟩ := Phrase.sparing_fileStatements (orderly_bodyWithin numbered.length) true
    .empty hstanding (Position.not_before_self _)
  have hfaults := hread.faults
  rw [List.append_nil] at hfaults
  rw [hmoved, hstop, errorsOf_moved, List.length_map, errorsOf_ofTokens, List.length_reverse,
    List.length_map, hfaults]
  rcases hread.few with rfl | hfew
  · exact Nat.zero_le _
  · have htokens : new.length ≤ numbered.length := by
      simp only at hfew
      omega
    exact htokens

/-- Whatever the tokens are, reading a file off them ends and moves on all along. Bodies nest
and items follow each other without a limit of their own, and still the loops over the
statements of a file and of a block end within as many rounds as there are tokens, and one for
the end. Each guarded statement takes the cursor on by a token or more, be it read or passed
over; in a block no token has to be dropped for that. While a statement is passed over, the
depth stays at zero or above. The cursor ends behind the last token at the latest, and the
errors are at most as many as the tokens. -/
theorem reading_ends_and_moves_on (tokens : List Token) (stop : Position) :
    ((∃! body : BodyReader, body.Recursive) ∧
      ∀ body : BodyReader, body.Recursive → ∃ file t,
        fileLoop body (tokens.length + 1) true .empty ⟨tokens, stop, []⟩ = some (file, t) ∧
          fileStatements (bodyWithin tokens.length) true .empty ⟨tokens, stop, []⟩ = (file, t) ∧
          t.At tokens tokens.length) ∧
    (∀ {α : Type} (m : Nat) (item : Phrase α), MovesOn m item →
      ∀ (sep : Char) (rounds : Nat) (t : Tape), t.ahead.length ≤ rounds →
        (moreSeparated sep item rounds).on t = (moreSeparated sep item t.ahead.length).on t) ∧
    (∀ (depth : Nat) (isFirst : Bool) (file : File) (cursor : Nat) (t : Tape),
      t.At tokens cursor → cursor < tokens.length →
        Progresses tokens (fileStatement (bodyWithin depth) isFirst) file cursor t) ∧
    (∀ {σ : Type} (statement : σ → Phrase σ), ReadsItems statement →
      ∀ (name : String) (s : σ) (cursor : Nat) (t : Tape), t.At tokens cursor →
        (blockLoop name statement (tokens.length - cursor + 1) s t =
            some (statements name statement s t) ∧
          ∃ next, cursor ≤ next ∧ (statements name statement s t).2.At tokens next) ∧
        ∀ token, tokens[cursor]? = some token → token.lexeme ≠ .mark '\x7d' →
          Progresses tokens statement s cursor t ∧
            attempt statement s t = guarded statement s t) ∧
    (∀ rounds, 0 ≤ (Passing.atRound tokens rounds).depth ∧
      (Passing.atRound tokens rounds).ahead <:+ tokens ∧
      (tokens.length < rounds → (Passing.atRound tokens rounds).ended = true ∧
        (Passing.atRound tokens rounds).ahead = resume 0 tokens)) ∧
    (errorsOf (ofTokens tokens stop)).length ≤ tokens.length := by
  refine ⟨⟨⟨bodyOfAnyDepth, recursive_bodyOfAnyDepth, fun _ h => h.eq_bodyOfAnyDepth⟩, ?_⟩,
    fun m item hitem sep rounds t ht => ?_, fun depth isFirst file cursor t hcursor hless => ?_,
    fun statement hstatement name s cursor t hcursor => ⟨⟨?_, ?_⟩, ?_⟩, fun rounds => ?_,
    length_errorsOf_le tokens stop⟩
  · intro body hbody
    have hloop := fileLoop_eq (movesOn_fileStatement_of_recursive hbody) (tokens.length + 1) true
      .empty (t := ⟨tokens, stop, []⟩) (Nat.lt_succ_self _)
    have hsame := fileStatements_bodyOfAnyDepth (t := ⟨tokens, stop, []⟩) (Nat.le_refl _) true
      .empty
    have hahead := ahead_fileStatements (bodyWithin tokens.length) true .empty
      ⟨tokens, stop, []⟩
    rw [hbody.eq_bodyOfAnyDepth, hsame] at hloop
    rw [hbody.eq_bodyOfAnyDepth]
    refine ⟨_, _, hloop, rfl, ?_, Nat.le_refl _⟩
    rw [List.drop_length]
    exact hahead
  · exact agree_moreSeparated sep hitem rounds _ ht (Nat.le_refl _) t (Nat.le_refl _)
  · exact (movesOn_fileStatement depth isFirst file).progresses hcursor hless
  · have hlength := hcursor.length_eq
    exact blockLoop_eq hstatement.movesOn name _ s (by omega)
  · have hsuffix := statements_suffix hstatement.movesOn name s t
    exact hcursor.goOn (k := 0) hsuffix hsuffix.length_le
  · intro token htoken hopen
    obtain ⟨hless, rfl⟩ := List.getElem?_eq_some_iff.mp htoken
    have hahead : t.ahead = tokens[cursor] :: tokens.drop (cursor + 1) := by
      rw [hcursor.ahead, List.drop_eq_getElem_cons hless]
    exact ⟨(hstatement.movesOn s).progresses hcursor hless,
      attempt_eq_guarded (hstatement.movesOn s) hahead hopen⟩
  · obtain ⟨hdepth, hsuffix, hresumes⟩ := Passing.sound_atRound tokens rounds
    refine ⟨hdepth, hsuffix, fun hrounds => ?_⟩
    have hended := Passing.ended_atRound tokens hrounds
    rw [if_pos hended] at hresumes
    exact ⟨hended, hresumes⟩

/-- A closing brace outside blocks, where a token has to be dropped, and a mark in an enum. -/
theorem reading_ends_and_moves_on_stray :
    let stray : Token := ⟨.mark '\x7d', ⟨1, 1⟩⟩
    let sign : Token := ⟨.mark '=', ⟨1, 2⟩⟩
    let tokens := [stray, sign]
    let start : Tape := ⟨tokens, ⟨1, 3⟩, []⟩
    let behind : Tape := ⟨[sign], ⟨1, 3⟩, []⟩
    (∃ file t, fileLoop bodyOfAnyDepth 3 true .empty start = some (file, t) ∧
      fileStatements (bodyWithin 2) true .empty start = (file, t) ∧ t.At tokens 2) ∧
    (moreSeparated '.' identifier 5).on start = (moreSeparated '.' identifier 2).on start ∧
    Progresses tokens (fileStatement (bodyWithin 2) true) .empty 0 start ∧
    ((blockLoop "enum" enumStatement 2 ⟨"E", [], [], .start⟩ behind =
        some (statements "enum" enumStatement ⟨"E", [], [], .start⟩ behind) ∧
      ∃ next, 1 ≤ next ∧
        (statements "enum" enumStatement ⟨"E", [], [], .start⟩ behind).2.At tokens next) ∧
      Progresses tokens enumStatement ⟨"E", [], [], .start⟩ 1 behind ∧
      attempt enumStatement ⟨"E", [], [], .start⟩ behind =
        guarded enumStatement ⟨"E", [], [], .start⟩ behind) ∧
    (Passing.atRound tokens 3).ahead = resume 0 tokens := by
  intro stray sign tokens start behind
  obtain ⟨⟨-, hfile⟩, hitems, hstatement, hblock, hpassing, -⟩ :=
    reading_ends_and_moves_on tokens ⟨1, 3⟩
  have hstart : start.At tokens 0 := ⟨rfl, Nat.zero_le _⟩
  have hbehind : behind.At tokens 1 := ⟨rfl, by decide⟩
  have henum := hblock enumStatement .enum "enum" ⟨"E", [], [], .start⟩ 1 behind hbehind
  exact ⟨hfile bodyOfAnyDepth recursive_bodyOfAnyDepth,
    hitems 1 identifier movesOn_identifier '.' 5 start (by decide),
    hstatement 2 true .empty 0 start hstart (by decide),
    ⟨henum.1, henum.2 sign rfl (by decide)⟩, ((hpassing 3).2.2 (by decide)).2⟩

end Schema.File

end ProtoSchema
