import ProtoSchema.Schema.Body

/-!
Braces in token lists. The tokens of a block are those up to the closing brace that matches
its opening one. Whatever passes over tokens as a whole, be it an aggregate, the rest of a
broken statement or a list of plain tokens, passes over a balanced stretch, and so does not
leave the block it started in.
-/

namespace ProtoSchema

def Lexeme.IsPlain (lexeme : Lexeme) : Prop := lexeme ≠ .mark '\x7b' ∧ lexeme ≠ .mark '\x7d'

instance : DecidablePred Lexeme.IsPlain :=
  fun _ => inferInstanceAs (Decidable (_ ∧ _))

namespace Token

theorem isMark_iff {token : Token} {c : Char} :
    token.isMark c = true ↔ token.lexeme = .mark c := by
  simp [isMark]

/-- How many blocks are open behind the tokens when `depth` are open before them; none when
a brace closes more than was opened. -/
def nest : Nat → List Token → Option Nat
  | depth, [] => some depth
  | depth, token :: rest =>
    if token.lexeme = .mark '\x7b' then nest (depth + 1) rest
    else if token.lexeme = .mark '\x7d' then
      if depth = 0 then none else nest (depth - 1) rest
    else nest depth rest

def Balanced (tokens : List Token) : Prop := nest 0 tokens = some 0

instance : DecidablePred Balanced := fun _ => inferInstanceAs (Decidable (_ = _))

variable {token close : Token} {tokens more inner taken behind : List Token} {depth : Nat}

theorem nest_open (h : token.lexeme = .mark '\x7b') (depth : Nat) (tokens : List Token) :
    nest depth (token :: tokens) = nest (depth + 1) tokens := by
  rw [nest, if_pos h]

theorem nest_close (h : token.lexeme = .mark '\x7d') (depth : Nat) (tokens : List Token) :
    nest (depth + 1) (token :: tokens) = nest depth tokens := by
  rw [nest, if_neg (by simp [h]), if_pos h, if_neg depth.succ_ne_zero, Nat.add_sub_cancel]

theorem nest_zero_close (h : token.lexeme = .mark '\x7d') (tokens : List Token) :
    nest 0 (token :: tokens) = none := by
  rw [nest, if_neg (by simp [h]), if_pos h, if_pos rfl]

theorem nest_plain (h : token.lexeme.IsPlain) (depth : Nat) (tokens : List Token) :
    nest depth (token :: tokens) = nest depth tokens := by
  rw [nest, if_neg h.1, if_neg h.2]

/-- A token opens a block, closes one or does neither. -/
theorem brace_cases (token : Token) : token.lexeme = .mark '\x7b' ∨
    token.lexeme = .mark '\x7d' ∨ token.lexeme.IsPlain := by
  by_cases hopen : token.lexeme = .mark '\x7b'
  · exact .inl hopen
  by_cases hclose : token.lexeme = .mark '\x7d'
  · exact .inr (.inl hclose)
  · exact .inr (.inr ⟨hopen, hclose⟩)

theorem nest_append (depth : Nat) (tokens more : List Token) :
    nest depth (tokens ++ more) = (nest depth tokens).bind (nest · more) := by
  induction tokens generalizing depth with
  | nil => rfl
  | cons token rest ih =>
    rcases token.brace_cases with hopen | hclose | hplain
    · rw [List.cons_append, nest_open hopen, nest_open hopen, ih]
    · cases depth with
      | zero => rw [List.cons_append, nest_zero_close hclose, nest_zero_close hclose]; rfl
      | succ depth => rw [List.cons_append, nest_close hclose, nest_close hclose, ih]
    · rw [List.cons_append, nest_plain hplain, nest_plain hplain, ih]

theorem balanced_singleton (h : token.lexeme.IsPlain) : Balanced [token] := by
  rw [Balanced, nest_plain h]
  rfl

theorem nest_add {last : Nat} (h : nest depth tokens = some last) (outer : Nat) :
    nest (depth + outer) tokens = some (last + outer) := by
  induction tokens generalizing depth with
  | nil =>
    cases h
    rfl
  | cons token rest ih =>
    rcases token.brace_cases with hopen | hclose | hplain
    · rw [nest_open hopen] at h ⊢
      rw [show depth + outer + 1 = depth + 1 + outer by omega]
      exact ih h
    · cases depth with
      | zero =>
        rw [nest_zero_close hclose] at h
        cases h
      | succ depth =>
        rw [show depth + 1 + outer = depth + outer + 1 by omega]
        rw [nest_close hclose] at h ⊢
        exact ih h
    · rw [nest_plain hplain] at h ⊢
      exact ih h

theorem balanced_append (h : Balanced tokens) (hmore : Balanced more) :
    Balanced (tokens ++ more) := by
  rw [Balanced, nest_append, h]
  exact hmore

theorem balanced_plain (h : ∀ token ∈ tokens, token.lexeme.IsPlain) : Balanced tokens := by
  induction tokens with
  | nil => rfl
  | cons token rest ih =>
    obtain ⟨hplain, hrest⟩ := List.forall_mem_cons.mp h
    rw [Balanced, nest_plain hplain]
    exact ih hrest

theorem balanced_braces {open_ : Token} (hopen : open_.lexeme = .mark '\x7b')
    (hclose : close.lexeme = .mark '\x7d') (h : Balanced tokens) :
    Balanced (open_ :: tokens ++ [close]) := by
  rw [Balanced, List.cons_append, nest_open hopen, nest_append, nest_add h 1]
  exact nest_close hclose 0 []

/-- Where the tokens close what was open before them, one of their braces closes the last
block of those. -/
theorem exists_close (depth outer : Nat) (h : nest (depth + outer + 1) tokens = some 0) :
    ∃ inner close behind, tokens = inner ++ close :: behind ∧ close.lexeme = .mark '\x7d' ∧
      nest depth inner = some 0 ∧ nest outer behind = some 0 := by
  induction tokens generalizing depth with
  | nil => cases h
  | cons token rest ih =>
    rcases token.brace_cases with hopen | hclose | hplain
    · rw [nest_open hopen, show depth + outer + 1 + 1 = depth + 1 + outer + 1 by omega] at h
      obtain ⟨inner, close, behind, rfl, hclose, hinner, hbehind⟩ := ih _ h
      exact ⟨token :: inner, close, behind, rfl, hclose, by rwa [nest_open hopen], hbehind⟩
    · rw [nest_close hclose] at h
      cases depth with
      | zero => exact ⟨[], token, rest, rfl, hclose, rfl, by rwa [Nat.zero_add] at h⟩
      | succ depth =>
        rw [show depth + 1 + outer = depth + outer + 1 by omega] at h
        obtain ⟨inner, close, behind, rfl, hnext, hinner, hbehind⟩ := ih _ h
        exact ⟨token :: inner, close, behind, rfl, hnext, by rwa [nest_close hclose], hbehind⟩
    · rw [nest_plain hplain] at h
      obtain ⟨inner, close, behind, rfl, hclose, hinner, hbehind⟩ := ih _ h
      exact ⟨token :: inner, close, behind, rfl, hclose, by rwa [nest_plain hplain], hbehind⟩

def Encloses (Spot : Position → Prop) (behind tokens : List Token) : Prop :=
  ∃ inner close, tokens = inner ++ close :: behind ∧ close.lexeme = .mark '\x7d' ∧
    Balanced inner ∧ ∀ token ∈ inner ++ [close], Spot token.position

namespace Encloses

variable {Spot : Position → Prop}

theorem ne_nil (h : Encloses Spot behind tokens) : tokens ≠ [] := by
  obtain ⟨inner, close, rfl, _⟩ := h
  simp

theorem spot (h : Encloses Spot behind (token :: tokens)) : Spot token.position := by
  obtain ⟨inner, close, htokens, _, _, hspots⟩ := h
  cases inner with
  | nil =>
    cases htokens
    exact hspots token (by simp)
  | cons first rest =>
    cases htokens
    exact hspots token (by simp)

/-- A closing brace in a block is that of the block, when those before it have their match. -/
theorem closing (h : Encloses Spot behind (token :: tokens))
    (hclose : token.lexeme = .mark '\x7d') : tokens = behind := by
  obtain ⟨inner, close, htokens, _, hbalanced, _⟩ := h
  cases inner with
  | nil =>
    cases htokens
    rfl
  | cons first rest =>
    cases htokens
    rw [Balanced, nest_zero_close hclose] at hbalanced
    cases hbalanced

/-- A balanced stretch ends before the block does. -/
theorem pass (h : Encloses Spot behind (taken ++ more)) (htaken : Balanced taken) :
    Encloses Spot behind more := by
  obtain ⟨inner, close, htokens, hclose, hbalanced, hspots⟩ := h
  rcases List.append_eq_append_iff.mp htokens with ⟨rest, rfl, hmore⟩ | ⟨rest, htaken_eq, hmore⟩
  · refine ⟨rest, close, hmore, hclose, ?_, ?_⟩
    · rw [Balanced, nest_append, htaken] at hbalanced
      exact hbalanced
    · intro token htoken
      refine hspots token ?_
      rw [List.append_assoc]
      exact List.mem_append_right _ htoken
  · cases rest with
    | nil =>
      rw [List.nil_append] at hmore
      exact ⟨[], close, hmore.symm, hclose, rfl, fun token htoken =>
        hspots token (List.mem_append_right _ htoken)⟩
    | cons first rest =>
      -- Then the stretch would have the closing brace of the block in it.
      rw [List.cons_append, List.cons.injEq] at hmore
      rw [htaken_eq, ← hmore.1, Balanced, nest_append, hbalanced] at htaken
      rw [Option.bind_some, nest_zero_close hclose] at htaken
      cases htaken

theorem pass_plain (h : Encloses Spot behind (token :: tokens)) (hplain : token.lexeme.IsPlain) :
    Encloses Spot behind tokens := by
  have htokens : Encloses Spot behind ([token] ++ tokens) := h
  exact htokens.pass (balanced_singleton hplain)

/-- Behind an opening brace the block of that brace goes on, and behind its end the outer
block does. -/
theorem opening (h : Encloses Spot behind (token :: tokens))
    (hopen : token.lexeme = .mark '\x7b') :
    ∃ rest, Encloses Spot rest tokens ∧ Encloses Spot behind rest := by
  obtain ⟨inner, close, htokens, hclose, hbalanced, hspots⟩ := h
  cases inner with
  | nil =>
    cases htokens
    rw [hopen] at hclose
    cases hclose
  | cons first rest =>
    cases htokens
    rw [Balanced, nest_open hopen] at hbalanced
    obtain ⟨body, last, after, rfl, hlast, hbody, hafter⟩ := exists_close 0 0 hbalanced
    refine ⟨after ++ close :: behind, ⟨body, last, by simp, hlast, hbody, ?_⟩,
      ⟨after, close, rfl, hclose, hafter, ?_⟩⟩
    · intro token htoken
      exact hspots token (by
        rcases List.mem_append.mp htoken with htoken | htoken
        · simp [htoken]
        · simp [List.mem_singleton.mp htoken])
    · intro token htoken
      exact hspots token (by
        rcases List.mem_append.mp htoken with htoken | htoken
        · simp [htoken]
        · simp [List.mem_singleton.mp htoken])

end Encloses

end Token

open Token (Balanced Encloses nest)

variable {close : Token} {inner behind tokens : List Token} {depth : Nat}
  {Spot : Position → Prop}

/-- Inside opened blocks reading resumes behind the brace that closes the last of them. -/
theorem resume_close (hclose : close.lexeme = .mark '\x7d') (h : nest depth inner = some 0) :
    resume (depth + 1) (inner ++ close :: behind) = behind := by
  induction inner generalizing depth with
  | nil =>
    cases h
    simp [resume, Token.isMark_iff, hclose]
  | cons token rest ih =>
    rcases token.brace_cases with hopen | hend | hplain
    · rw [Token.nest_open hopen] at h
      simpa [resume, Token.isMark_iff, hopen] using ih h
    · cases depth with
      | zero =>
        rw [Token.nest_zero_close hend] at h
        cases h
      | succ depth =>
        rw [Token.nest_close hend] at h
        simpa [resume, Token.isMark_iff, hend] using ih h
    · rw [Token.nest_plain hplain] at h
      simpa [resume, Token.isMark_iff, hplain.1, hplain.2] using ih h

/-- A broken statement does not end outside the block it stands in. -/
theorem Token.Encloses.resume (h : Encloses Spot behind tokens) :
    Encloses Spot behind (resume 0 tokens) := by
  induction tokens with
  | nil => exact h
  | cons token rest ih =>
    rcases token.brace_cases with hopen | hclose | hplain
    · obtain ⟨after, ⟨inner, close, rfl, hclose, hinner, _⟩, hafter⟩ := h.opening hopen
      rw [ProtoSchema.resume, if_neg (by simp [Token.isMark_iff, hopen]),
        if_neg (by simp [Token.isMark_iff, hopen]), if_pos (by simp [Token.isMark_iff, hopen]),
        resume_close hclose hinner]
      exact hafter
    · rw [ProtoSchema.resume, if_pos (Token.isMark_iff.mpr hclose)]
      exact h
    · rw [ProtoSchema.resume, if_neg (by simp [Token.isMark_iff, hplain.2])]
      split
      · exact h.pass_plain hplain
      · rw [if_neg (by simp [Token.isMark_iff, hplain.1])]
        exact ih (h.pass_plain hplain)

/-- Inside a block reading resumes at the same token, whatever stands behind all the tokens. -/
theorem Token.Encloses.resume_append (h : Encloses Spot behind tokens) (extra : List Token) :
    ProtoSchema.resume 0 (tokens ++ extra) = ProtoSchema.resume 0 tokens ++ extra := by
  induction tokens with
  | nil => exact absurd rfl h.ne_nil
  | cons token rest ih =>
    rcases token.brace_cases with hopen | hclose | hplain
    · obtain ⟨after, ⟨inner, close, rfl, hclose, hinner, _⟩, _⟩ := h.opening hopen
      have hshort : ProtoSchema.resume 1 (inner ++ close :: after) = after :=
        resume_close hclose hinner
      have hlong : ProtoSchema.resume 1 (inner ++ close :: (after ++ extra)) = after ++ extra :=
        resume_close hclose hinner
      simpa [ProtoSchema.resume, Token.isMark_iff, hopen, hshort] using hlong
    · simp [ProtoSchema.resume, Token.isMark_iff, hclose]
    · have hinner := ih (h.pass_plain hplain)
      simp only [List.cons_append, ProtoSchema.resume, Token.isMark_iff, hplain.1, hplain.2,
        if_false, hinner]
      split
      · rfl
      · rfl

namespace Phrase

/-- An aggregate that ends does so whatever stands behind all the tokens. -/
theorem aggregateRest_append {parts : List String} (h : aggregateRest depth tokens =
    some (parts, behind)) (extra : List Token) :
    aggregateRest depth (tokens ++ extra) = some (parts, behind ++ extra) := by
  induction tokens generalizing depth parts with
  | nil =>
    unfold aggregateRest at h
    cases h
  | cons token rest ih =>
    have hmore (d : Nat) (h : ((aggregateRest d rest).map fun found =>
        (aggregateText token.lexeme :: found.1, found.2)) = some (parts, behind)) :
        ((aggregateRest d (rest ++ extra)).map fun found =>
          (aggregateText token.lexeme :: found.1, found.2)) = some (parts, behind ++ extra) := by
      obtain ⟨⟨inner, after⟩, hinner, heq⟩ := Option.map_eq_some_iff.mp h
      cases heq
      rw [ih hinner]
      rfl
    rw [List.cons_append]
    rcases token.brace_cases with hopen | hclose | hplain
    · simp only [aggregateRest, if_pos hopen] at h ⊢
      exact hmore _ h
    · have hopen : token.lexeme ≠ .mark '\x7b' := by simp [hclose]
      simp only [aggregateRest, if_neg hopen, if_pos hclose] at h ⊢
      cases depth with
      | zero =>
        cases h
        rfl
      | succ depth => exact hmore _ h
    · simp only [aggregateRest, if_neg hplain.1, if_neg hplain.2] at h ⊢
      exact hmore _ h

theorem aggregateRest_close (hclose : close.lexeme = .mark '\x7d')
    (h : nest depth inner = some 0) :
    aggregateRest depth (inner ++ close :: behind) =
      some (inner.map (fun token => aggregateText token.lexeme) ++ ["\x7d"], behind) := by
  induction inner generalizing depth with
  | nil =>
    cases h
    simp [aggregateRest, hclose]
  | cons token rest ih =>
    rcases token.brace_cases with hopen | hend | hplain
    · rw [Token.nest_open hopen] at h
      simp [aggregateRest, hopen, ih h]
    · cases depth with
      | zero =>
        rw [Token.nest_zero_close hend] at h
        cases h
      | succ depth =>
        rw [Token.nest_close hend] at h
        simp [aggregateRest, hend, ih h]
    · rw [Token.nest_plain hplain] at h
      simp [aggregateRest, hplain.1, hplain.2, ih h]

end Phrase

namespace Token.Encloses

/-- An aggregate ends at the brace that closes it. -/
theorem aggregateRest (h : Encloses Spot behind tokens) :
    ∃ parts, Phrase.aggregateRest 0 tokens = some (parts, behind) := by
  obtain ⟨inner, close, rfl, hclose, hinner, _⟩ := h
  exact ⟨_, Phrase.aggregateRest_close hclose hinner⟩

theorem skippedRest (h : Encloses Spot behind tokens) :
    Encloses Spot behind (Phrase.skippedRest tokens).2 := by
  induction tokens with
  | nil => exact h
  | cons token rest ih =>
    unfold Phrase.skippedRest
    split
    · next hend => exact h.pass_plain (by simp [Lexeme.IsPlain, hend])
    · split
      · exact h
      · next hplain => exact ih (h.pass_plain (not_or.mp hplain))

theorem leadingLiterals (h : Encloses Spot behind tokens) :
    Encloses Spot behind (tokens.drop (Phrase.leadingLiterals tokens).length) := by
  induction tokens with
  | nil => exact h
  | cons token rest ih =>
    obtain ⟨lexeme, position⟩ := token
    cases lexeme with
    | literal value =>
      rw [Phrase.leadingLiterals, List.length_cons, List.drop_succ_cons]
      exact ih (h.pass_plain (by simp [Lexeme.IsPlain]))
    | _ => exact h

end Token.Encloses

end ProtoSchema
