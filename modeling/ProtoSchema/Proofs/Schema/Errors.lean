import ProtoSchema.Proofs.Schema.Blocks
import ProtoSchema.Proofs.Schema.Order

/-!
Syntax errors in the order of the text. The phrases of the grammar are gone through one by one:
most put down no errors and can only fail, and those that hold blocks put theirs down in order.
Hence the errors of a file stand in order, each at a token of the text or at its end.
-/

namespace ProtoSchema

namespace Phrase

open Schema

variable {α : Type} {Spot : Position → Prop} {floor : Position}

section Settings

theorem quiet_dottedName : Quiet Spot floor dottedName :=
  quiet_separated '.' quiet_identifier

theorem quiet_typeName : Quiet Spot floor typeName :=
  (quiet_take? _).bind fun _ => quiet_dottedName.bind fun _ => .pure _

theorem quiet_optionPart : Quiet Spot floor optionPart := by
  refine (quiet_take? _).bind fun found => ?_
  cases found with
  | true => exact quiet_typeName.bind fun _ => (quiet_mark _).bind fun _ => .pure _
  | false => exact quiet_identifier.bind fun _ => .pure _

/-- An aggregate that never ends is at fault where it started. -/
theorem quiet_aggregate : Quiet Spot floor aggregate := by
  refine .place_bind fun opening hspot => (quiet_mark _).bind fun _ t ht hfloor => ?_
  rw [on_tape_bind]
  cases hrest : aggregateRest 0 t.ahead with
  | some found => exact .goOn _ (aggregateRest_suffix hrest)
  | none =>
    have hend := ht.not_before (u := { t with ahead := [] }) List.nil_suffix rfl
    exact ⟨List.nil_suffix, rfl, rfl, .singleton hspot opening.not_before_self
      (Position.not_before_trans hfloor hend)⟩

theorem quiet_signed (sign : Char) : Quiet Spot floor (signed sign) := by
  refine (quiet_skip 1).bind fun _ => (quiet_look 0).bind fun found => ?_
  split
  · exact (quiet_skip 1).bind fun _ => .pure _
  · exact quiet_expected _

theorem quiet_constant : Quiet Spot floor constant := by
  refine (quiet_look 0).bind fun found => ?_
  split
  · exact quiet_literal
  · exact quiet_aggregate
  · exact quiet_signed '-'
  · exact quiet_signed '+'
  · split
    · exact (quiet_skip 1).bind fun _ => .pure _
    · exact quiet_expected _

theorem quiet_setting : Quiet Spot floor setting :=
  .place_bind fun _ _ => (quiet_separated '.' quiet_optionPart).bind fun _ =>
    (quiet_mark _).bind fun _ => quiet_constant.bind fun _ => .pure _

theorem quiet_settings : Quiet Spot floor settings := by
  refine (quiet_take? _).bind fun found => ?_
  cases found with
  | true =>
    exact (quiet_separated ',' quiet_setting).bind fun _ => (quiet_mark _).bind fun _ => .pure _
  | false => exact .pure _

theorem quiet_optionStatement : Quiet Spot floor optionStatement :=
  (quiet_keyword _).bind fun _ => quiet_setting.bind fun _ => (quiet_mark _).bind fun _ => .pure _

/-- A statement that is passed over and never ends is at fault where it started. -/
theorem quiet_skippedStatement : Quiet Spot floor skippedStatement := by
  refine .place_bind fun position hspot => (quiet_look 0).bind fun start =>
    (quiet_skip 1).bind fun _ t ht hfloor => ?_
  rw [on_tape_bind]
  have hsuffix := skippedRest_suffix t.ahead
  generalize skippedRest t.ahead = rest at hsuffix ⊢
  obtain ⟨ended, behind⟩ := rest
  cases ended with
  | true => exact .goOn () hsuffix
  | false =>
    have hend := ht.not_before (u := { t with ahead := behind }) hsuffix rfl
    exact ⟨hsuffix, rfl, rfl, .singleton hspot position.not_before_self
      (Position.not_before_trans hfloor hend)⟩

end Settings

section Bodies

def OrderlyBodies (Spot : Position → Prop) (body : BodyReader) : Prop :=
  ∀ name parent floor, Orderly Spot floor (body name parent)

variable {body : BodyReader}

theorem quiet_label? : Quiet Spot floor label? := by
  refine (quiet_look 1).bind fun next => ?_
  split
  · exact .pure _
  · refine (quiet_look 0).bind fun found => ?_
    split
    · exact .pure _
    · exact .pure _
    · exact .pure _
    · exact .pure _

theorem quiet_fieldType : Quiet Spot floor fieldType := by
  refine (quiet_look 0).bind fun found => (quiet_look 1).bind fun next => ?_
  split
  · exact (quiet_skip 2).bind fun _ => quiet_typeName.bind fun _ => (quiet_mark _).bind fun _ =>
      quiet_typeName.bind fun _ => (quiet_mark _).bind fun _ => .pure _
  · exact quiet_typeName.bind fun _ => .pure _

theorem quiet_plainField (label : Option Label) (oneof : Option Nat) :
    Quiet Spot floor (plainField label oneof) :=
  .place_bind fun _ _ => quiet_fieldType.bind fun _ => .place_bind fun _ _ =>
    quiet_identifier.bind fun _ => (quiet_mark _).bind fun _ => quiet_integer.bind fun _ =>
      quiet_settings.bind fun _ => (quiet_mark _).bind fun _ => .pure _

theorem orderly_group (hbody : OrderlyBodies Spot body) (label : Option Label)
    (oneof : Option Nat) : Orderly Spot floor (group body label oneof) := by
  refine (quiet_keyword _).bind_orderly fun _ => .place_bind fun position hspot => ?_
  refine quiet_identifier.bind_orderly fun name => ?_
  split
  · refine (quiet_mark _).bind_orderly fun _ => quiet_integer.bind_orderly fun _ =>
      quiet_settings.bind_orderly fun _ => ?_
    exact (hbody _ _ _).bind fun _ _ => (Quiet.pure _).orderly
  · exact (quiet_failAt_bind hspot _).orderly

theorem quiet_isGroup : Quiet Spot floor isGroup := by
  refine (quiet_look 0).bind fun found => (quiet_look 2).bind fun second => ?_
  split
  · exact (quiet_look 1).bind fun _ => .pure _
  · exact .pure _

theorem orderly_unlabelled (hbody : OrderlyBodies Spot body) (label : Option Label)
    (oneof : Option Nat) : Orderly Spot floor (unlabelled body label oneof) := by
  refine quiet_isGroup.bind_orderly fun isGroup => ?_
  split
  · exact (orderly_group hbody label oneof).bind fun _ _ => (Quiet.pure _).orderly
  · exact ((quiet_plainField label oneof).bind fun _ => .pure _).orderly

theorem orderly_field (hbody : OrderlyBodies Spot body) (oneof : Option Nat) :
    Orderly Spot floor (field body oneof) := by
  refine quiet_label?.bind_orderly fun label => ?_
  split
  · split
    · exact (Quiet.place_bind fun _ hspot => quiet_failAt_bind hspot _).orderly
    · exact (quiet_skip 1).bind_orderly fun _ => orderly_unlabelled hbody label oneof
  · exact orderly_unlabelled hbody label oneof

theorem orderly_fieldOf (hbody : OrderlyBodies Spot body) (oneof : Option Nat) (parent : Message) :
    Orderly Spot floor (fieldOf body oneof parent) :=
  (orderly_field hbody oneof).bind fun _ _ => (Quiet.pure _).orderly

theorem orderly_oneofStatement (hbody : OrderlyBodies Spot body) (index : Nat) (parent : Message) :
    Orderly Spot floor (oneofStatement body index parent) := by
  refine (quiet_take? _).bind_orderly fun found => ?_
  cases found with
  | true => exact (Quiet.pure _).orderly
  | false =>
    refine (quiet_look 0).bind_orderly fun found => ?_
    split
    · exact (quiet_optionStatement.bind fun _ => .pure _).orderly
    · exact orderly_fieldOf hbody (some index) parent

theorem orderly_oneof (hbody : OrderlyBodies Spot body) (parent : Message) :
    Orderly Spot floor (oneof body parent) :=
  (quiet_keyword _).bind_orderly fun _ => .place_bind fun _ _ =>
    quiet_identifier.bind_orderly fun _ =>
      orderly_block (fun s _ => orderly_oneofStatement hbody _ s) "oneof" _

theorem quiet_enumValue : Quiet Spot floor enumValue :=
  .place_bind fun _ _ => quiet_identifier.bind fun _ => (quiet_mark _).bind fun _ =>
    quiet_integer.bind fun _ => quiet_settings.bind fun _ => (quiet_mark _).bind fun _ => .pure _

theorem quiet_enumStatement (enum : Enum) : Quiet Spot floor (enumStatement enum) := by
  refine (quiet_take? _).bind fun found => ?_
  cases found with
  | true => exact .pure _
  | false =>
    refine (quiet_look 0).bind fun found => ?_
    split
    · exact quiet_optionStatement.bind fun _ => .pure _
    · exact quiet_skippedStatement.bind fun _ => .pure _
    · exact quiet_enumValue.bind fun _ => .pure _

theorem orderly_enum : Orderly Spot floor enum :=
  (quiet_keyword _).bind_orderly fun _ => .place_bind fun _ _ =>
    quiet_identifier.bind_orderly fun _ =>
      orderly_block (fun s _ => (quiet_enumStatement s).orderly) "enum" _

theorem orderly_extendStatement (hbody : OrderlyBodies Spot body) (extend : Extend) :
    Orderly Spot floor (extendStatement body extend) := by
  refine (quiet_take? _).bind_orderly fun found => ?_
  cases found with
  | true => exact (Quiet.pure _).orderly
  | false => exact (orderly_field hbody none).bind fun _ _ => (Quiet.pure _).orderly

theorem orderly_extend (hbody : OrderlyBodies Spot body) : Orderly Spot floor (extend body) :=
  (quiet_keyword _).bind_orderly fun _ => .place_bind fun _ _ =>
    quiet_typeName.bind_orderly fun _ =>
      orderly_block (fun s _ => orderly_extendStatement hbody s) "extend" _

theorem orderly_message (hbody : OrderlyBodies Spot body) : Orderly Spot floor (message body) :=
  (quiet_keyword _).bind_orderly fun _ => .place_bind fun _ _ =>
    quiet_identifier.bind_orderly fun _ => hbody _ _ _

theorem quiet_startsField : Quiet Spot floor startsField :=
  (quiet_look 1).bind fun _ => (quiet_look 2).bind fun _ => .pure _

theorem orderly_messageStatement (hbody : OrderlyBodies Spot body) (parent : Message) :
    Orderly Spot floor (messageStatement body parent) := by
  refine (quiet_take? _).bind_orderly fun found => ?_
  cases found with
  | true => exact (Quiet.pure _).orderly
  | false =>
    refine (quiet_look 0).bind_orderly fun found => quiet_startsField.bind_orderly fun starts => ?_
    split
    · exact (orderly_message hbody).bind fun _ _ => (Quiet.pure _).orderly
    · exact orderly_enum.bind fun _ _ => (Quiet.pure _).orderly
    · exact (orderly_extend hbody).bind fun _ _ => (Quiet.pure _).orderly
    · exact orderly_oneof hbody parent
    · exact (quiet_optionStatement.bind fun _ => .pure _).orderly
    · exact (quiet_skippedStatement.bind fun _ => .pure _).orderly
    · exact (quiet_skippedStatement.bind fun _ => .pure _).orderly
    · exact orderly_fieldOf hbody none parent

/-- Bodies keep their errors in order to any depth. -/
theorem orderly_bodyWithin (depth : Nat) : OrderlyBodies Spot (bodyWithin depth) := by
  induction depth with
  | zero => exact fun _ _ _ => (Quiet.place_bind fun _ hspot => .failAt hspot _).orderly
  | succ depth ih =>
    exact fun name parent _ => orderly_block (fun s _ => orderly_messageStatement ih s) name parent

end Bodies

section Services

theorem quiet_streamedType : Quiet Spot floor streamedType := by
  have htyped (streams : Bool) : Quiet Spot floor
      (do
        let position ← place
        let name ← typeName
        mark ')'
        return (streams, name, position)) :=
    .place_bind fun _ _ => quiet_typeName.bind fun _ => (quiet_mark _).bind fun _ => .pure _
  refine (quiet_mark _).bind fun _ => (quiet_look 1).bind fun next =>
    (quiet_look 0).bind fun found => ?_
  generalize decide (found = some (.word "stream") ∧ next ≠ some (.mark ')') ∧
    next ≠ some (.mark '.')) = streams
  cases streams with
  | true => exact (quiet_skip 1).bind fun _ => htyped true
  | false => exact htyped false

theorem quiet_methodStatement (options : List OptionSetting) :
    Quiet Spot floor (methodStatement options) := by
  refine (quiet_take? _).bind fun found => ?_
  cases found with
  | true => exact .pure _
  | false => exact quiet_optionStatement.bind fun _ => .pure _

theorem orderly_method : Orderly Spot floor method := by
  refine (quiet_keyword _).bind_orderly fun _ => .place_bind fun position _ => ?_
  refine quiet_identifier.bind_orderly fun name => quiet_streamedType.bind_orderly fun input => ?_
  refine (quiet_keyword _).bind_orderly fun _ => quiet_streamedType.bind_orderly fun output => ?_
  refine (quiet_look 0).bind_orderly fun found => ?_
  split
  · exact (orderly_block (fun s _ => (quiet_methodStatement s).orderly) "rpc" []).bind
      fun _ _ => (Quiet.pure _).orderly
  · exact ((quiet_mark _).bind fun _ => (Quiet.pure _).bind fun _ => .pure _).orderly

theorem orderly_serviceStatement (service : Service) :
    Orderly Spot floor (serviceStatement service) := by
  refine (quiet_take? _).bind_orderly fun found => ?_
  cases found with
  | true => exact (Quiet.pure _).orderly
  | false =>
    refine (quiet_look 0).bind_orderly fun found => ?_
    split
    · exact (quiet_optionStatement.bind fun _ => .pure _).orderly
    · exact orderly_method.bind fun _ _ => (Quiet.pure _).orderly
    · exact (quiet_expected _).orderly

theorem orderly_service : Orderly Spot floor service :=
  (quiet_keyword _).bind_orderly fun _ => .place_bind fun _ _ =>
    quiet_identifier.bind_orderly fun _ =>
      orderly_block (fun s _ => orderly_serviceStatement s) "service" _

end Services

section Files

variable {body : BodyReader}

/-- A name that is no dialect is at fault where it stands. -/
theorem quiet_dialectStatement (isFirst : Bool) (word : String) (file : File) :
    Quiet Spot floor (dialectStatement isFirst word file) := by
  cases isFirst with
  | false => exact .place_bind fun _ hspot => quiet_failAt_bind hspot _
  | true =>
    refine (quiet_skip 1).bind fun _ => (quiet_mark _).bind fun _ => .place_bind fun _ hspot => ?_
    refine quiet_literal.bind fun name => ?_
    split
    · exact .failAt hspot _
    · exact (quiet_mark _).bind fun _ => .pure _

theorem quiet_packageStatement (file : File) : Quiet Spot floor (packageStatement file) := by
  have hrest : Quiet Spot floor
      (do
        keyword "package"
        let name ← dottedName
        mark ';'
        return { file with package := some name }) :=
    (quiet_keyword _).bind fun _ => quiet_dottedName.bind fun _ => (quiet_mark _).bind fun _ =>
      .pure _
  unfold packageStatement
  split
  · exact .place_bind fun _ hspot => quiet_failAt_bind hspot _
  · exact hrest

theorem quiet_importKind : Quiet Spot floor importKind := by
  refine (quiet_take? _).bind fun found => ?_
  cases found with
  | true => exact .pure _
  | false =>
    refine (quiet_take? _).bind fun found => ?_
    cases found with
    | true => exact .pure _
    | false => exact .pure _

theorem quiet_importStatement (file : File) : Quiet Spot floor (importStatement file) :=
  .place_bind fun _ _ => (quiet_keyword _).bind fun _ => quiet_importKind.bind fun _ =>
    quiet_literal.bind fun _ => (quiet_mark _).bind fun _ => .pure _

theorem orderly_fileStatement (hbody : OrderlyBodies Spot body) (isFirst : Bool) (file : File) :
    Orderly Spot floor (fileStatement body isFirst file) := by
  refine (quiet_take? _).bind_orderly fun found => ?_
  cases found with
  | true => exact (Quiet.pure _).orderly
  | false =>
    refine (quiet_look 0).bind_orderly fun found => ?_
    split
    · exact (quiet_dialectStatement isFirst "syntax" file).orderly
    · exact (quiet_dialectStatement isFirst "edition" file).orderly
    · exact (quiet_packageStatement file).orderly
    · exact (quiet_importStatement file).orderly
    · exact (quiet_optionStatement.bind fun _ => .pure _).orderly
    · exact (orderly_message hbody).bind fun _ _ => (Quiet.pure _).orderly
    · exact orderly_enum.bind fun _ _ => (Quiet.pure _).orderly
    · exact orderly_service.bind fun _ _ => (Quiet.pure _).orderly
    · exact (orderly_extend hbody).bind fun _ _ => (Quiet.pure _).orderly
    · exact (quiet_expected _).orderly

theorem sparing_fileStatements (hbody : OrderlyBodies Spot body) (isFirst : Bool) (file : File)
    {floor : Position} {t : Tape} (ht : t.Standing Spot) (hfloor : ¬t.place.Before floor) :
    ∃ new, Sparing 0 Spot floor t new
      ((.ok (fileStatements body isFirst file t).1 : Except SyntaxError File),
        (fileStatements body isFirst file t).2) := by
  by_cases hahead : t.ahead = []
  · rw [fileStatements_of_nil hahead]
    exact ⟨[], (Advance.goOn file (List.suffix_refl _)).sparing⟩
  · rw [fileStatements_of_ne_nil hahead]
    obtain ⟨new, hfirst⟩ :=
      sparing_settled (fun s => orderly_fileStatement hbody isFirst s) file ht hfloor hahead
    have hless := length_settled (fileStatement body isFirst) file hahead
    obtain ⟨more, hrest⟩ := sparing_fileStatements hbody false
      (settled (fileStatement body isFirst) file t).1 (hfirst.standing ht)
      (Position.not_before_self _)
    exact ⟨more ++ new, hfirst.trans ht hfloor hrest⟩
termination_by t.ahead.length

end Files

end Phrase

namespace Token

variable {place : Position} {cs : List Char}

/-- What follows the first characters is read at the place behind them. -/
theorem exists_prefix_of_drop {p : Position} (width : Nat)
    (h : ∃ before, before <+: cs.drop width ∧ p = (place.after (cs.take width)).after before) :
    ∃ before, before <+: cs ∧ p = place.after before := by
  obtain ⟨before, hbefore, rfl⟩ := h
  refine ⟨cs.take width ++ before, ?_, (Position.after_append _ _ _).symm⟩
  have happend := (List.prefix_append_right_inj (cs.take width)).mpr hbefore
  rwa [List.take_append_drop] at happend

/-- A text is at fault behind some of its characters. -/
theorem exists_prefix_of_readFrom {e : SyntaxError} (h : readFrom place cs = .error e) :
    ∃ before, before <+: cs ∧ e.position = place.after before := by
  induction place, cs using readFrom.induct with
  | case1 place =>
    rw [readFrom_nil] at h
    cases h
  | case2 place c rest width hgap ih =>
    rw [readFrom_of_gap hgap] at h
    exact exists_prefix_of_drop width (ih h)
  | case3 place c rest found width hlexeme ih =>
    rw [readFrom_of_lexeme hlexeme] at h
    refine exists_prefix_of_drop width (ih ?_)
    cases hread : readFrom (place.after ((c :: rest).take width)) ((c :: rest).drop width) with
    | error other =>
      rw [hread] at h
      cases h
      rfl
    | ok read =>
      rw [hread] at h
      cases h
  | case4 place c rest found offset hfault =>
    rw [readFrom_of_fault hfault] at h
    cases h
    exact ⟨(c :: rest).take offset, List.take_prefix offset _, rfl⟩

end Token

namespace Schema.File

open Phrase (orderly_bodyWithin)

/-- The errors of tokens that stand in order. -/
theorem told_errorsOf {tokens : List Token} {stop : Position}
    (hpairwise : tokens.Pairwise fun a b => a.position.Before b.position)
    (hstop : ∀ token ∈ tokens, token.position.Before stop) :
    (errorsOf (ofTokens tokens stop)).Pairwise (fun a b => ¬b.position.Before a.position) ∧
      ∀ e ∈ errorsOf (ofTokens tokens stop),
        (∃ token ∈ tokens, e.position = token.position) ∨ e.position = stop := by
  let Spot (p : Position) : Prop := (∃ token ∈ tokens, p = token.position) ∨ p = stop
  have hstanding : (⟨tokens, stop, []⟩ : Tape).Standing Spot :=
    ⟨hpairwise, hstop, fun token htoken => .inl ⟨token, htoken, rfl⟩, .inr rfl⟩
  obtain ⟨new, hread⟩ := Phrase.sparing_fileStatements (orderly_bodyWithin tokens.length) true
    .empty hstanding (Position.not_before_self _)
  have hfaults := hread.faults
  rw [List.append_nil] at hfaults
  rw [errorsOf_ofTokens, hfaults]
  refine ⟨List.pairwise_reverse.mpr hread.told.ordered, fun e he => ?_⟩
  exact (hread.told.inside e (List.mem_reverse.mp he)).1

/-- A text that is rejected has errors, and these stand in the order of the text: each at a
token of the text or at its end, or a single one at a place in a text that has no tokens. -/
theorem syntax_errors_in_order {text : String} {errors : List SyntaxError}
    (h : File.read text = .error errors) :
    errors ≠ [] ∧ errors.Pairwise (fun a b => ¬b.position.Before a.position) ∧
      ((∃ tokens stop, Token.read text = .ok (tokens, stop) ∧ ∀ e ∈ errors,
          (∃ token ∈ tokens, e.position = token.position) ∨ e.position = stop) ∨
        ∃ e before, Token.read text = .error e ∧ errors = [e] ∧ before <+: text.toList ∧
          e.position = Position.start.after before) := by
  unfold File.read at h
  cases hread : Token.read text with
  | error e =>
    rw [hread] at h
    cases h
    obtain ⟨before, hbefore, hposition⟩ := Token.exists_prefix_of_readFrom hread
    exact ⟨List.cons_ne_nil e [], List.pairwise_singleton _ e,
      .inr ⟨e, before, rfl, rfl, hbefore, hposition⟩⟩
  | ok found =>
    obtain ⟨tokens, stop⟩ := found
    rw [hread] at h
    obtain ⟨hordered, hspots⟩ := told_errorsOf (Token.wellRead hread).pairwise
      (Token.before_stop hread)
    have herrors : errorsOf (ofTokens tokens stop) = errors := congrArg errorsOf h
    rw [herrors] at hordered hspots
    refine ⟨?_, hordered, .inl ⟨tokens, stop, rfl, hspots⟩⟩
    rintro rfl
    simp only [ofTokens] at h
    split at h
    · cases h
    · next hfaults => exact hfaults (List.reverse_eq_nil_iff.mp (Except.error.inj h))

/-- A label and a group name at fault inside a oneof, an aggregate that never ends, and behind
it the two blocks that are not closed either. -/
theorem syntax_errors_in_order_nested :
    let text :=
      "message M \x7b oneof o \x7b\n optional A b = 1;\n group c = 2;\n A d = 3 [e = \x7b f"
    ∃ errors, File.read text = .error errors ∧
      errors.map (·.position) = [⟨2, 2⟩, ⟨3, 8⟩, ⟨4, 15⟩, ⟨4, 18⟩, ⟨4, 18⟩] ∧
      errors ≠ [] ∧ errors.Pairwise (fun a b => ¬b.position.Before a.position) ∧
        ((∃ tokens stop, Token.read text = .ok (tokens, stop) ∧ ∀ e ∈ errors,
            (∃ token ∈ tokens, e.position = token.position) ∨ e.position = stop) ∨
          ∃ e before, Token.read text = .error e ∧ errors = [e] ∧ before <+: text.toList ∧
            e.position = Position.start.after before) := by
  intro text
  have hplaces : (errorsOf (File.read text)).map (·.position) =
      [⟨2, 2⟩, ⟨3, 8⟩, ⟨4, 15⟩, ⟨4, 18⟩, ⟨4, 18⟩] := by decide +kernel
  cases hread : File.read text with
  | ok file =>
    rw [hread] at hplaces
    cases hplaces
  | error errors =>
    rw [hread] at hplaces
    exact ⟨errors, rfl, hplaces, syntax_errors_in_order hread⟩

end Schema.File

end ProtoSchema
