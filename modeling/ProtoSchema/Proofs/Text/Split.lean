import Mathlib.Data.List.Basic
import ProtoSchema.Text.Split

/-!
Cutting joined texts. Pieces without the separator that are joined with it are what the joined
text is cut into.
-/

namespace ProtoSchema

namespace Text

theorem splitAt_append_sep (sep : Char) (xs ys : List Char) :
    splitAt sep (xs ++ sep :: ys) = splitAt sep xs ++ splitAt sep ys := by
  induction xs with
  | nil => simp [splitAt]
  | cons c cs ih =>
    by_cases hc : c = sep
    · simp [splitAt, hc, ih]
    · rw [List.cons_append, splitAt, if_neg hc, ih, splitAt, if_neg hc]
      cases hpieces : splitAt sep cs with
      | nil => exact absurd hpieces (splitAt_ne_nil sep cs)
      | cons piece pieces => rfl

theorem splitAt_of_notMem {sep : Char} {xs : List Char} (h : sep ∉ xs) :
    splitAt sep xs = [xs] := by
  induction xs with
  | nil => rfl
  | cons c cs ih =>
    obtain ⟨hc, hcs⟩ := List.ne_and_not_mem_of_not_mem_cons h
    rw [splitAt, if_neg (Ne.symm hc), ih hcs]

theorem splitAt_intercalate (sep : Char) {pieces : List (List Char)} (hne : pieces ≠ [])
    (h : ∀ piece ∈ pieces, sep ∉ piece) : splitAt sep ([sep].intercalate pieces) = pieces := by
  induction pieces with
  | nil => exact absurd rfl hne
  | cons first rest ih =>
    obtain ⟨hfirst, hrest⟩ := List.forall_mem_cons.mp h
    cases rest with
    | nil => rw [List.intercalate_singleton, splitAt_of_notMem hfirst]
    | cons second others =>
      rw [List.intercalate_cons_cons, List.append_assoc, List.singleton_append,
        splitAt_append_sep, splitAt_of_notMem hfirst, ih (List.cons_ne_nil _ _) hrest]
      rfl

/-- A joined text has only what the separator and the pieces have. -/
theorem mem_sep_or_piece {sep : List Char} {c : Char} {pieces : List (List Char)}
    (h : c ∈ sep.intercalate pieces) : c ∈ sep ∨ ∃ piece ∈ pieces, c ∈ piece := by
  induction pieces with
  | nil => cases h
  | cons first rest ih =>
    cases rest with
    | nil =>
      rw [List.intercalate_singleton] at h
      exact .inr ⟨first, List.mem_cons_self, h⟩
    | cons second others =>
      rw [List.intercalate_cons_cons, List.append_assoc, List.mem_append, List.mem_append] at h
      obtain hfirst | hsep | hrest := h
      · exact .inr ⟨first, List.mem_cons_self, hfirst⟩
      · exact .inl hsep
      · obtain hsep | ⟨piece, hpiece, hmem⟩ := ih hrest
        · exact .inl hsep
        · exact .inr ⟨piece, List.mem_cons_of_mem _ hpiece, hmem⟩

theorem mem_of_mem_intercalate {sep c : Char} {pieces : List (List Char)}
    (h : c ∈ [sep].intercalate pieces) (hc : c ≠ sep) : ∃ piece ∈ pieces, c ∈ piece :=
  (mem_sep_or_piece h).resolve_left fun hsep => hc (List.mem_singleton.mp hsep)

/-- Every piece stands as a whole in the joined text. -/
theorem infix_intercalate (sep : List Char) {pieces : List (List Char)} {piece : List Char}
    (hpiece : piece ∈ pieces) : piece <:+: sep.intercalate pieces := by
  induction pieces with
  | nil => cases hpiece
  | cons first rest ih =>
    cases rest with
    | nil =>
      rw [List.intercalate_singleton]
      exact List.mem_singleton.mp hpiece ▸ List.infix_rfl
    | cons second others =>
      rw [List.intercalate_cons_cons]
      rcases List.mem_cons.mp hpiece with hfirst | hrest
      · rw [hfirst, List.append_assoc]
        exact (List.prefix_append _ _).isInfix
      · exact (ih hrest).trans (List.suffix_append _ _).isInfix

theorem mem_intercalate {sep c : Char} {pieces : List (List Char)} {piece : List Char}
    (hpiece : piece ∈ pieces) (hc : c ∈ piece) : c ∈ [sep].intercalate pieces :=
  (infix_intercalate [sep] hpiece).subset hc

theorem dropLeading?_eq_some_iff {head s rest : String} :
    dropLeading? head s = some rest ↔ s = head ++ rest := by
  rw [dropLeading?]
  constructor
  · intro h
    split at h
    · next hprefix =>
      cases h
      obtain ⟨more, hmore⟩ := List.isPrefixOf_iff_prefix.mp hprefix
      rw [← hmore, List.drop_left, ← String.toList_inj, String.toList_append,
        String.toList_ofList, hmore]
    · cases h
  · rintro rfl
    rw [String.toList_append, if_pos (List.isPrefixOf_iff_prefix.mpr (List.prefix_append _ _)),
      List.drop_left, String.ofList_toList]

theorem dropLeading?_eq_none_iff {head s : String} :
    dropLeading? head s = none ↔ ∀ rest, s ≠ head ++ rest := by
  rw [Option.eq_none_iff_forall_ne_some]
  exact forall_congr' fun rest => dropLeading?_eq_some_iff.not

end Text

end ProtoSchema
