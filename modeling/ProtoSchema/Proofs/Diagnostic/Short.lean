import ProtoSchema.Diagnostic.Report
import ProtoSchema.Proofs.Text.OneLine

/-!
The short style of a report. Each diagnostic is written out with a newline behind it, errors first
and then warnings. So a report has as many newlines as diagnostics, and those within their texts:
it has one line for each just when no path and no message has a newline.
-/

namespace ProtoSchema

open Text (OneLine)

namespace Diagnostic

structure OneLine (d : Diagnostic) : Prop where
  path : Text.OneLine d.path.text
  message : Text.OneLine d.message

/-- Behind the path a location has only colons and digits. -/
theorem notMem_location_iff {d : Diagnostic} {c : Char} (hcolon : c ∉ ":".toList)
    (hdigit : c.isDigit = false) : c ∉ d.location.toList ↔ c ∉ d.path.text.toList := by
  unfold location
  split
  · have hnumber := Text.notMem_toString hdigit
    simp only [Text.notMem_append, hnumber, hcolon, not_false_eq_true, and_true]
  · exact Iff.rfl

theorem oneLine_described_iff {d : Diagnostic} : Text.OneLine d.described ↔ d.OneLine := by
  have hlocation : Text.OneLine d.location ↔ Text.OneLine d.path.text :=
    notMem_location_iff (by decide) rfl
  have hseverity : Text.OneLine d.severity.text := by
    cases d.severity <;> decide
  have hcolon : Text.OneLine ": " := by decide
  simp only [described, Text.oneLine_append, hlocation, hseverity, hcolon, and_true]
  exact ⟨fun h => ⟨h.1, h.2⟩, fun h => ⟨h.path, h.message⟩⟩

end Diagnostic

namespace Report

variable {ds : List Diagnostic}

theorem ordered_perm (ds : List Diagnostic) : (ordered ds).Perm ds :=
  List.filter_append_perm _ ds

theorem formatBare_brief (ds : List Diagnostic) : formatBare .brief ds =
    String.join ((ordered ds).map fun d => d.described ++ "\n") := rfl

/-- A newline for each diagnostic, and those in their texts. -/
theorem count_formatBare_brief (ds : List Diagnostic) :
    (formatBare .brief ds).toList.count '\n' =
      ds.length + (ds.flatMap (·.described.toList)).count '\n' := by
  have hjoined (ds : List Diagnostic) :
      (String.join (ds.map fun d => d.described ++ "\n")).toList.count '\n' =
        ds.length + (ds.flatMap (·.described.toList)).count '\n' := by
    induction ds with
    | nil => rfl
    | cons d rest ih =>
      rw [String.toList_join] at ih ⊢
      rw [List.map_cons, List.flatMap_cons, List.count_append, ih, String.toList_append,
        List.count_append, List.flatMap_cons, List.count_append, List.length_cons]
      have hone : "\n".toList.count '\n' = 1 := rfl
      omega
  have hperm := ordered_perm ds
  rw [formatBare_brief, hjoined, hperm.length_eq, (hperm.flatMap_right _).count_eq]

theorem count_eq_length_iff : (formatBare .brief ds).toList.count '\n' = ds.length ↔
    ∀ d ∈ ds, d.OneLine := by
  rw [count_formatBare_brief, Nat.add_eq_left, List.count_eq_zero, List.mem_flatMap]
  simp only [not_exists, not_and]
  exact forall₂_congr fun d _ => Diagnostic.oneLine_described_iff

/-- The lines of the report are the diagnostics, each as one line, and nothing stands behind the
last newline. -/
theorem splitAt_formatBare_brief (h : ∀ d ∈ ds, d.OneLine) :
    Text.splitAt '\n' (formatBare .brief ds).toList =
      (ordered ds).map (·.described.toList) ++ [[]] := by
  have hjoined (ds : List Diagnostic) (h : ∀ d ∈ ds, d.OneLine) :
      Text.splitAt '\n' (String.join (ds.map fun d => d.described ++ "\n")).toList =
        ds.map (·.described.toList) ++ [[]] := by
    induction ds with
    | nil => rfl
    | cons d rest ih =>
      obtain ⟨hd, hrest⟩ := List.forall_mem_cons.mp h
      have hline := Text.splitAt_of_notMem (Diagnostic.oneLine_described_iff.mpr hd)
      have hmore := ih hrest
      rw [String.toList_join] at hmore ⊢
      rw [List.map_cons, List.flatMap_cons, String.toList_append, List.append_assoc]
      refine (Text.splitAt_append_sep '\n' _ _).trans ?_
      rw [hline]
      exact congrArg (d.described.toList :: ·) hmore
  exact hjoined _ fun d hd => h d ((ordered_perm ds).mem_iff.mp hd)

end Report

end ProtoSchema
