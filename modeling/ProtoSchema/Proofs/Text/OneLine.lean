import ProtoSchema.Proofs.Text.Split
import ProtoSchema.Text.Glyph

/-!
Texts of one line. A text that is put together has no newline when its parts have none. Numbers
have none, and neither has what is shown between quotes with its characters escaped.
-/

namespace ProtoSchema

namespace Text

def OneLine (s : String) : Prop := '\n' ∉ s.toList

instance : DecidablePred OneLine := fun s => inferInstanceAs (Decidable ('\n' ∉ s.toList))

variable {s t sep : String} {c : Char} {cs : List Char} {parts : List String}

theorem notMem_append : c ∉ (s ++ t).toList ↔ c ∉ s.toList ∧ c ∉ t.toList := by
  rw [String.toList_append, List.mem_append, not_or]

/-- A number in base ten has digits only. -/
theorem notMem_toString (hc : c.isDigit = false) (n : Nat) : c ∉ (toString n).toList := by
  intro hmem
  rw [Nat.toString_eq_ofList_toDigits, String.toList_ofList] at hmem
  have hdigit : c.isDigit = true := Nat.isDigit_of_mem_toDigits (by decide) (by decide) hmem
  rw [hc] at hdigit
  cases hdigit

theorem oneLine_append : OneLine (s ++ t) ↔ OneLine s ∧ OneLine t := notMem_append

theorem oneLine_ofList : OneLine (String.ofList cs) ↔ '\n' ∉ cs := by
  rw [OneLine, String.toList_ofList]

namespace OneLine

theorem append (hs : OneLine s) (ht : OneLine t) : OneLine (s ++ t) := oneLine_append.mpr ⟨hs, ht⟩

/-- What stands between two double quotes. -/
theorem inQuotes (h : OneLine s) : OneLine ("\"" ++ s ++ "\"") :=
  .append (.append (by decide) h) (by decide)

theorem intercalate (hsep : OneLine sep) (hparts : ∀ part ∈ parts, OneLine part) :
    OneLine (sep.intercalate parts) := by
  intro hmem
  rw [String.toList_intercalate] at hmem
  obtain hmark | ⟨piece, hpiece, hmark⟩ := mem_sep_or_piece hmem
  · exact hsep hmark
  · obtain ⟨part, hpart, hchars⟩ := List.mem_map.mp hpiece
    exact hparts part hpart (hchars ▸ hmark)

theorem join (hparts : ∀ part ∈ parts, OneLine part) : OneLine (String.join parts) := by
  rw [OneLine, String.toList_join, List.mem_flatMap]
  rintro ⟨part, hpart, hmem⟩
  exact hparts part hpart hmem

end OneLine

/-- A text in small letters has no newline either. -/
theorem oneLine_map_toLower (h : OneLine s) : OneLine (s.map Char.toLower) := by
  have hlower (c : Char) (hc : c.toLower = '\n') : c = '\n' := by
    unfold Char.toLower at hc
    split at hc
    · next hbounds =>
      have hmost : c.val.toNat ≤ 90 := UInt32.le_iff_toNat_le.mp hbounds.2
      have hsum := congrArg UInt32.toNat (congrArg Char.val hc)
      rw [UInt32.toNat_add] at hsum
      have hten : (c.val.toNat + 32) % 2 ^ 32 = 10 := hsum
      omega
    · exact hc
  rw [OneLine, String.toList_map, List.mem_map]
  rintro ⟨c, hmem, hc⟩
  exact h (hlower c hc ▸ hmem)

theorem newline_notMem_toDigits {base : Nat} (hbase : 1 < base) (n : Nat) :
    '\n' ∉ Nat.toDigits base n := by
  have hdigit (d : Nat) : d.digitChar ≠ '\n' := Nat.digitChar_ne '\n' rfl
  induction n using Nat.strongRecOn with
  | ind n ih =>
    rw [Nat.toDigits_eq_if hbase]
    split
    · exact fun hmem => hdigit n (List.mem_singleton.mp hmem).symm
    · next hlarge =>
      have hless : n / base < n := Nat.div_lt_self (by omega) hbase
      rw [List.mem_append, List.mem_singleton, not_or]
      exact ⟨ih _ hless, (hdigit _).symm⟩

/-- A newline is escaped, and no other character becomes one. -/
theorem newline_notMem_escapeChar (mark c : Char) :
    '\n' ∉ escapeChar mark c := by
  unfold escapeChar
  split
  · decide
  split
  · decide
  split
  · decide
  split
  · decide
  next hnewline _ =>
  split
  · simp [Ne.symm hnewline]
  split
  · simp [newline_notMem_toDigits]
  · simpa using Ne.symm hnewline

theorem oneLine_quoted (s : String) : OneLine (quoted s) := by
  rw [quoted, oneLine_ofList]
  simp [newline_notMem_escapeChar]

theorem oneLine_quotedChar (c : Char) : OneLine (quotedChar c) := by
  rw [quotedChar, oneLine_ofList]
  simp [newline_notMem_escapeChar]

end Text

end ProtoSchema
