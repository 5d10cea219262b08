import ProtoSchema.Proofs.Diagnostic.Short
import ProtoSchema.Proofs.Text.Tinted

/-!
Colours in a report. Every piece of a report is put together from texts that stand as they are and
texts that are painted, and no width is taken from a painted text. So a coloured report is the
report without colours with some stretches shown in a colour, one behind the other. In it the label
of each diagnostic stands in the colour of its severity.
-/

namespace ProtoSchema

open Text (Tinted ClosedInTurn openings closing uncolored)

namespace Diagnostic

theorem escapeFree_location {d : Diagnostic} (h : Text.EscapeFree d.path.text) :
    Text.EscapeFree d.location :=
  (notMem_location_iff (by decide) rfl).mpr h

end Diagnostic

namespace Report

/-- Neither the path nor the message nor the line of source that is shown has an escape
character. -/
structure EscapeFree (sources : VirtualPath → Option String) (d : Diagnostic) : Prop where
  path : Text.EscapeFree d.path.text
  message : Text.EscapeFree d.message
  line : ∀ line ∈ sourceLine? sources d, Text.EscapeFree line

def Tints (piece : ReportOptions → String) : Prop :=
  ∀ options : ReportOptions, Tinted (piece { options with colored := true }).toList
    (piece { options with colored := false }).toList

variable {sources : VirtualPath → Option String}
variable {d : Diagnostic} {ds : List Diagnostic} {text margin line : String}
variable {first second : ReportOptions → String}

namespace Tints

theorem const (h : Text.EscapeFree text) : Tints fun _ => text := fun _ => .refl h

theorem append (hfirst : Tints first) (hsecond : Tints second) :
    Tints fun options => first options ++ second options := by
  intro options
  rw [String.toList_append, String.toList_append]
  exact (hfirst options).append (hsecond options)

end Tints

theorem colorCode_mem_openings (severity : Severity) :
    (colorCode severity).toList ∈ openings := by
  cases severity with
  | error => exact List.mem_cons_self
  | warning => exact List.mem_cons_of_mem _ List.mem_cons_self

theorem paint_colored (options : ReportOptions) (severity : Severity) (text : String) :
    paint { options with colored := true } severity text =
      colorCode severity ++ text ++ colorEnd := rfl

theorem paint_uncolored (options : ReportOptions) (severity : Severity) (text : String) :
    paint { options with colored := false } severity text = text := rfl

theorem tints_paint (severity : Severity) (h : Text.EscapeFree text) :
    Tints fun options => paint options severity text := by
  intro options
  have hstretch := Tinted.stretch (colorCode_mem_openings severity) h .nil
  simp only [List.append_nil, ← List.append_assoc] at hstretch
  simp only [paint_colored, paint_uncolored, String.toList_append]
  exact hstretch

theorem tints_label (d : Diagnostic) : Tints fun options => label options d := by
  have hseverity : Text.EscapeFree d.severity.text := by
    cases d.severity <;> decide
  have hkind : Text.EscapeFree d.kind.text := by
    cases d.kind <;> decide
  intro options
  by_cases hkinds : options.kinds = true
  · have hlabel : Text.EscapeFree (d.severity.text ++ "[" ++ d.kind.text ++ "]") := by
      have hopen : Text.EscapeFree "[" := by decide
      have hclose : Text.EscapeFree "]" := by decide
      simp only [Text.escapeFree_append, hseverity, hkind, hopen, hclose, and_true]
    simpa only [label, if_pos hkinds] using tints_paint d.severity hlabel options
  · simpa only [label, if_neg hkinds] using tints_paint d.severity hseverity options

theorem tints_short (h : EscapeFree sources d) : Tints fun options => short options d := by
  have hlocation : Tints fun _ => d.location := .const (Diagnostic.escapeFree_location h.path)
  have hcolon : Tints fun _ => ": " := .const (by decide)
  have hnewline : Tints fun _ => "\n" := .const (by decide)
  have hlabelled := (hlocation.append hcolon).append (tints_label d)
  exact ((hlabelled.append hcolon).append (.const h.message)).append hnewline

theorem escapeFree_spaces (n : Nat) : Text.EscapeFree (spaces n) := by
  intro hmem
  rw [spaces, String.toList_ofList] at hmem
  exact absurd (List.eq_of_mem_replicate hmem) (by decide)

theorem tints_snippet (d : Diagnostic) (hmargin : Text.EscapeFree margin)
    (hline : Text.EscapeFree line) : Tints fun options => snippet options d margin line := by
  have hspace : Tints fun _ => " " := .const (by decide)
  have hnewline : Tints fun _ => "\n" := .const (by decide)
  have hbar : Tints fun options => paint options d.severity "│" :=
    tints_paint d.severity (by decide)
  have hcaret : Tints fun options => paint options d.severity "^" :=
    tints_paint d.severity (by decide)
  have hnumber := tints_paint d.severity (Text.notMem_toString rfl d.position.line)
  have hruled := ((Tints.const hmargin).append hspace).append hbar
  have hnumbered := (((hruled.append hnewline).append hnumber).append hspace).append hbar
  have hquoted := ((hnumbered.append hspace).append (.const hline)).append hnewline
  have hindent : Tints fun _ => spaces (d.position.column - 1) := .const (escapeFree_spaces _)
  have hbelow := (((hquoted.append (.const hmargin)).append hspace).append hbar).append hspace
  exact ((hbelow.append hindent).append hcaret).append hnewline

theorem tints_rich (h : EscapeFree sources d) :
    Tints fun options => rich options sources d := by
  have hcolon : Tints fun _ => ": " := .const (by decide)
  have hspace : Tints fun _ => " " := .const (by decide)
  have hnewline : Tints fun _ => "\n" := .const (by decide)
  have hlocation : Tints fun _ => d.location := .const (Diagnostic.escapeFree_location h.path)
  -- The margin has the width of the number as it is without colours.
  have hmargin := escapeFree_spaces (toString d.position.line).length
  have hcorner : Tints fun options => paint options d.severity "┌─" :=
    tints_paint d.severity (by decide)
  have hheader := (((tints_label d).append hcolon).append (.const h.message)).append hnewline
  have hruled := ((hheader.append (.const hmargin)).append hspace).append hcorner
  have hplace := ((hruled.append hspace).append hlocation).append hnewline
  cases hsource : sourceLine? sources d with
  | none =>
    have hnothing : Tints fun _ => "" := .const (by decide)
    simpa only [rich, hsource] using hplace.append hnothing
  | some line =>
    have hsnippet := tints_snippet d hmargin (h.line line hsource)
    simpa only [rich, hsource] using hplace.append hsnippet

theorem tints_format (h : ∀ d ∈ ds, EscapeFree sources d) :
    Tints fun options => format options sources ds := by
  have hordered : ∀ d ∈ ordered ds, EscapeFree sources d :=
    fun d hd => h d ((ordered_perm ds).mem_iff.mp hd)
  intro options
  cases hstyle : options.style with
  | short =>
    simp only [format]
    exact .join fun d hd => tints_short (hordered d hd) options
  | rich =>
    simp only [format]
    exact .intercalate (by decide) fun d hd => tints_rich (hordered d hd) options

theorem label_infix_format (options : ReportOptions) (sources : VirtualPath → Option String)
    (hd : d ∈ ds) : (label options d).toList <:+: (format options sources ds).toList := by
  have hmem : d ∈ ordered ds := (ordered_perm ds).mem_iff.mpr hd
  cases hstyle : options.style with
  | short =>
    have hlabel : (label options d).toList <:+: (short options d).toList := by
      simp only [short, String.toList_append, List.append_assoc]
      exact List.infix_append_of_infix_right (List.infix_append' _ _ _)
    have hshort : (short options d).toList ∈ ((ordered ds).map (short options)).map String.toList :=
      List.mem_map_of_mem (List.mem_map_of_mem hmem)
    simp only [format, hstyle, String.toList_join, List.flatMap_def]
    exact hlabel.trans (List.infix_of_mem_flatten hshort)
  | rich =>
    have hlabel : (label options d).toList <:+: (rich options sources d).toList := by
      simp only [rich, String.toList_append, List.append_assoc]
      exact (List.prefix_append _ _).isInfix
    have hrich : (rich options sources d).toList ∈
        ((ordered ds).map (rich options sources)).map String.toList :=
      List.mem_map_of_mem (List.mem_map_of_mem hmem)
    simp only [format, hstyle, String.toList_intercalate]
    exact hlabel.trans (Text.infix_intercalate _ hrich)

/-- Where no path, no message and no line of source that is shown has an escape character, the
colours of a report can be deleted, which leaves the report without colours, and each is closed
before the next one opens. The label of each diagnostic is shown in the colour of its severity. -/
theorem color_never_changes_text (options : ReportOptions)
    (sources : VirtualPath → Option String) (ds : List Diagnostic)
    (h : ∀ d ∈ ds, EscapeFree sources d) :
    uncolored (format { options with colored := true } sources ds).toList =
        (format { options with colored := false } sources ds).toList ∧
      ClosedInTurn (format { options with colored := true } sources ds).toList ∧
      ∀ d ∈ ds, (colorCode d.severity ++ label { options with colored := false } d ++
        colorEnd).toList <:+: (format { options with colored := true } sources ds).toList := by
  have htinted := tints_format h options
  exact ⟨htinted.uncolored_eq, htinted.closedInTurn, fun d hd =>
    label_infix_format { options with colored := true } sources hd⟩

/-- A warning about the file as a whole, and an error that is shown with its line. -/
theorem color_never_changes_text_mixed :
    ∃ (sources : VirtualPath → Option String) (ds : List Diagnostic),
      (∀ d ∈ ds, EscapeFree sources d) ∧
      format .colorful sources ds =
        "\x1b[31merror[syntax-error]\x1b[39m: expected a name\n" ++
          "   \x1b[31m┌─\x1b[39m a.proto:10:9\n" ++
          "   \x1b[31m│\x1b[39m\n" ++
          "\x1b[31m10\x1b[39m \x1b[31m│\x1b[39m message = 1\n" ++
          "   \x1b[31m│\x1b[39m         \x1b[31m^\x1b[39m\n\n" ++
          "\x1b[33mwarning[bind-failure]\x1b[39m: unused\n" ++
          "  \x1b[33m┌─\x1b[39m a.proto\n" ∧
      uncolored (format .colorful sources ds).toList = (format .plain sources ds).toList ∧
      ClosedInTurn (format .colorful sources ds).toList := by
  let a : VirtualPath := ⟨⟨false, ["a.proto"], by decide⟩, by decide⟩
  let sources : VirtualPath → Option String := fun _ => some "\n\n\n\n\n\n\n\n\nmessage = 1"
  let warning : Diagnostic := ⟨a, ⟨0, 0⟩, .warning, .bindFailure, "unused"⟩
  let error : Diagnostic := ⟨a, ⟨10, 9⟩, .error, .syntaxError, "expected a name"⟩
  have hfree : ∀ d ∈ [warning, error], EscapeFree sources d := List.forall_mem_cons.mpr
    ⟨⟨by decide, by decide, by decide⟩,
      List.forall_mem_singleton.mpr ⟨by decide, by decide, by decide +kernel⟩⟩
  obtain ⟨hdeleted, hclosed, -⟩ := color_never_changes_text .plain sources [warning, error] hfree
  exact ⟨sources, [warning, error], hfree, by decide +kernel, hdeleted, hclosed⟩

end Report

end ProtoSchema
