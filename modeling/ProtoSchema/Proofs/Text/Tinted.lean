import ProtoSchema.Proofs.Text.OneLine

/-!
Texts with stretches shown in a colour. A stretch stands between an opening and a closing sequence,
and every sequence begins with the escape character. Where the text has no other escape character,
it can be read through its colours: deleting the sequences gives the text itself, and no stretch
opens inside another.
-/

namespace ProtoSchema

namespace Text

def EscapeFree (s : String) : Prop := '\x1b' ∉ s.toList

instance : DecidablePred EscapeFree := fun s => inferInstanceAs (Decidable ('\x1b' ∉ s.toList))

def openings : List (List Char) := ["\x1b[31m".toList, "\x1b[33m".toList]

def closing : List Char := "\x1b[39m".toList

/-- What is left when every opening and every closing sequence is deleted. -/
def uncolored : List Char → List Char
  | '\x1b' :: '[' :: '3' :: '1' :: 'm' :: rest => uncolored rest
  | '\x1b' :: '[' :: '3' :: '3' :: 'm' :: rest => uncolored rest
  | '\x1b' :: '[' :: '3' :: '9' :: 'm' :: rest => uncolored rest
  | c :: rest => c :: uncolored rest
  | [] => []

/-- Every opening sequence is closed before the next one opens. -/
def ClosedInTurn (cs : List Char) : Prop :=
  ∀ before opening after, opening ∈ openings → cs = before ++ opening ++ after →
    ∃ inside rest, after = inside ++ closing ++ rest ∧ ∀ next ∈ openings, ¬ next <:+: inside

inductive Tinted : List Char → List Char → Prop
  | nil : Tinted [] []
  | char {c : Char} {shown text : List Char} (hc : c ≠ '\x1b') (h : Tinted shown text) :
      Tinted (c :: shown) (c :: text)
  | stretch {opening inside shown text : List Char} (hopening : opening ∈ openings)
      (hinside : '\x1b' ∉ inside) (h : Tinted shown text) :
      Tinted (opening ++ (inside ++ (closing ++ shown))) (inside ++ text)

variable {α : Type} {c : Char} {s t sep : String} {xs : List α} {f g : α → String}
variable {cs inside opening sequence next before after shown shown' text text' : List Char}

theorem escapeFree_append : EscapeFree (s ++ t) ↔ EscapeFree s ∧ EscapeFree t := notMem_append

/-! ### Deleting the sequences -/

theorem uncolored_cons (hc : c ≠ '\x1b') (cs : List Char) :
    uncolored (c :: cs) = c :: uncolored cs := by
  simp [uncolored, hc]

theorem uncolored_append (h : '\x1b' ∉ inside) (cs : List Char) :
    uncolored (inside ++ cs) = inside ++ uncolored cs := by
  induction inside with
  | nil => rfl
  | cons c inside ih =>
    obtain ⟨hc, hinside⟩ := List.ne_and_not_mem_of_not_mem_cons h
    rw [List.cons_append, uncolored_cons (Ne.symm hc), ih hinside, List.cons_append]

theorem uncolored_opening (h : opening ∈ openings) (cs : List Char) :
    uncolored (opening ++ cs) = uncolored cs := by
  rcases List.mem_pair.mp h with hred | hyellow
  · rw [hred]
    rfl
  · rw [hyellow]
    rfl

theorem uncolored_closing (cs : List Char) : uncolored (closing ++ cs) = uncolored cs := rfl

/-! ### Where a sequence can stand -/

structure IsSequence (sequence : List Char) : Prop where
  length : sequence.length = 5
  begins : ∃ code, sequence = '\x1b' :: code ∧ '\x1b' ∉ code

theorem isSequence_closing : IsSequence closing := ⟨rfl, "[39m".toList, rfl, by decide⟩

theorem isSequence_of_mem_openings (h : opening ∈ openings) : IsSequence opening := by
  rcases List.mem_pair.mp h with hred | hyellow
  · exact ⟨congrArg List.length hred, "[31m".toList, hred, by decide⟩
  · exact ⟨congrArg List.length hyellow, "[33m".toList, hyellow, by decide⟩

theorem IsSequence.escape_mem (h : IsSequence sequence) : '\x1b' ∈ sequence := by
  obtain ⟨code, hcode, -⟩ := h.begins
  exact hcode ▸ List.mem_cons_self

/-- A sequence that stands somewhere does so behind any text in front that has no escape. -/
theorem IsSequence.behind (hnext : IsSequence next) (hinside : '\x1b' ∉ inside)
    (heq : inside ++ cs = before ++ (next ++ after)) :
    ∃ between, cs = between ++ (next ++ after) := by
  obtain ⟨between, -, hcs⟩ | ⟨between, hsplit, hrest⟩ := List.append_eq_append_iff.mp heq
  · exact ⟨between, hcs⟩
  · obtain ⟨code, hcode, -⟩ := hnext.begins
    cases between with
    | nil => exact ⟨[], hrest.symm⟩
    | cons c between =>
      rw [hcode] at hrest
      have hc : '\x1b' = c := (List.cons.inj hrest).1
      have hmem : c ∈ inside := hsplit ▸ List.mem_append_right before List.mem_cons_self
      exact absurd (hc ▸ hmem) hinside

/-- Where a sequence stands in front, another one is that sequence itself or stands behind it. -/
theorem IsSequence.here_or_behind (hnext : IsSequence next) (h : IsSequence sequence)
    (heq : sequence ++ cs = before ++ (next ++ after)) :
    (sequence = next ∧ cs = after) ∨ ∃ between, cs = between ++ (next ++ after) := by
  cases before with
  | nil => exact .inl (List.append_inj heq (h.length.trans hnext.length.symm))
  | cons c before =>
    obtain ⟨code, hcode, hfree⟩ := h.begins
    rw [hcode] at heq
    exact .inr (hnext.behind hfree (List.cons.inj heq).2)

namespace ClosedInTurn

theorem nil : ClosedInTurn [] := by
  intro before opening after hopening heq
  have hmem : '\x1b' ∈ before ++ opening ++ after :=
    List.mem_append_left _ <|
      List.mem_append_right _ (isSequence_of_mem_openings hopening).escape_mem
  rw [← heq] at hmem
  cases hmem

theorem cons (hc : c ≠ '\x1b') (h : ClosedInTurn cs) : ClosedInTurn (c :: cs) := by
  intro before opening after hopening heq
  have hfree : '\x1b' ∉ [c] := fun hmem => hc (List.mem_singleton.mp hmem).symm
  have hsplit : [c] ++ cs = before ++ (opening ++ after) := by
    rw [List.singleton_append, heq, List.append_assoc]
  obtain ⟨between, hcs⟩ := (isSequence_of_mem_openings hopening).behind hfree hsplit
  rw [← List.append_assoc] at hcs
  exact h between opening after hopening hcs

theorem stretch (hopening : opening ∈ openings) (hinside : '\x1b' ∉ inside)
    (h : ClosedInTurn cs) : ClosedInTurn (opening ++ (inside ++ (closing ++ cs))) := by
  intro before next after hnext heq
  rw [List.append_assoc] at heq
  have hsequence := isSequence_of_mem_openings hnext
  obtain ⟨-, hafter⟩ | ⟨between, hlater⟩ :=
    hsequence.here_or_behind (isSequence_of_mem_openings hopening) heq
  · refine ⟨inside, cs, by rw [← hafter, List.append_assoc], fun other hother hstands => ?_⟩
    exact hinside (hstands.subset (isSequence_of_mem_openings hother).escape_mem)
  · -- It cannot stand in the stretch, and the closing is none that opens, so it comes later.
    obtain ⟨between, hlater⟩ := hsequence.behind hinside hlater
    obtain ⟨hclosing, -⟩ | ⟨between, hcs⟩ := hsequence.here_or_behind isSequence_closing hlater
    · exact absurd (hclosing ▸ hnext) (by decide)
    · rw [← List.append_assoc] at hcs
      exact h between next after hnext hcs

end ClosedInTurn

namespace Tinted

theorem append (h : Tinted shown text) (h' : Tinted shown' text') :
    Tinted (shown ++ shown') (text ++ text') := by
  induction h with
  | nil => exact h'
  | char hc _ ih => exact .char hc ih
  | stretch hopening hinside _ ih =>
    simp only [List.append_assoc]
    exact .stretch hopening hinside ih

/-- A text without the escape character is shown as it is. -/
theorem refl (h : '\x1b' ∉ cs) : Tinted cs cs := by
  induction cs with
  | nil => exact .nil
  | cons c cs ih =>
    obtain ⟨hc, hcs⟩ := List.ne_and_not_mem_of_not_mem_cons h
    exact .char (Ne.symm hc) (ih hcs)

theorem join (h : ∀ x ∈ xs, Tinted (f x).toList (g x).toList) :
    Tinted (String.join (xs.map f)).toList (String.join (xs.map g)).toList := by
  rw [String.toList_join, String.toList_join]
  induction xs with
  | nil => exact .nil
  | cons x xs ih =>
    obtain ⟨hx, hxs⟩ := List.forall_mem_cons.mp h
    exact hx.append (ih hxs)

theorem intercalate (hsep : EscapeFree sep) (h : ∀ x ∈ xs, Tinted (f x).toList (g x).toList) :
    Tinted (sep.intercalate (xs.map f)).toList (sep.intercalate (xs.map g)).toList := by
  rw [String.toList_intercalate, String.toList_intercalate]
  induction xs with
  | nil => exact .nil
  | cons x rest ih =>
    obtain ⟨hx, hrest⟩ := List.forall_mem_cons.mp h
    cases rest with
    | nil => simpa only [List.map_cons, List.map_nil, List.intercalate_singleton] using hx
    | cons y others =>
      simp only [List.map_cons, List.intercalate_cons_cons]
      exact (hx.append (.refl hsep)).append (ih hrest)

theorem uncolored_eq (h : Tinted shown text) : uncolored shown = text := by
  induction h with
  | nil => rfl
  | char hc _ ih => rw [uncolored_cons hc, ih]
  | stretch hopening hinside _ ih =>
    rw [uncolored_opening hopening, uncolored_append hinside, uncolored_closing, ih]

theorem closedInTurn (h : Tinted shown text) : ClosedInTurn shown := by
  induction h with
  | nil => exact .nil
  | char hc _ ih => exact .cons hc ih
  | stretch hopening hinside _ ih => exact .stretch hopening hinside ih

end Tinted

end Text

end ProtoSchema
