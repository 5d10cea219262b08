import ProtoSchema.Proofs.Schema.Files
import ProtoSchema.Proofs.Schema.Worded
import ProtoSchema.Proofs.Token.Legible

/-!
What the reading of a schema takes over from its tokens into names and into errors. Where all
tokens ahead can be shown on one line, the names that are read have no newline and every error
is told on one line, unless it blames the name of a dialect: that name is a literal, as the path
of an import is, and is put together from the literals of the text.
-/

namespace ProtoSchema

open Text (OneLine)

/-! The words have no newline. -/

abbrev TypeName.Legible (name : TypeName) : Prop := name.Worded OneLine

namespace Schema

abbrev FieldType.Legible (type : FieldType) : Prop := type.Worded OneLine

abbrev Field.Legible (field : Field) : Prop := field.Worded OneLine

abbrev Enum.Legible (enum : Enum) : Prop := enum.Worded OneLine

abbrev Method.Legible (method : Method) : Prop := method.Worded OneLine

abbrev Service.Legible (service : Service) : Prop := service.Worded OneLine

abbrev Message.Legible (message : Message) : Prop := message.Worded OneLine

abbrev ExtendBlock.Legible (block : Extend) : Prop := ExtendBlock.Worded OneLine block

structure File.Legible (Q : String → Prop) (file : File) : Prop extends
    File.Worded OneLine file where
  imports : ∀ statement ∈ file.imports, Q statement.path

end Schema

structure Tape.Legible (Q : String → Prop) (t : Tape) : Prop where
  ahead : ∀ token ∈ t.ahead, token.lexeme.Legible Q
  faults : ∀ e ∈ t.faults, e.fault.Legible Q

namespace Tape.Legible

variable {Q : String → Prop} {t : Tape}

theorem goOn {rest : List Token} (h : t.Legible Q) (hrest : rest <:+ t.ahead) :
    Tape.Legible Q { t with ahead := rest } :=
  ⟨fun token hmem => h.ahead token (hrest.subset hmem), h.faults⟩

theorem lexeme? {k : Nat} {lexeme : Lexeme} (h : t.Legible Q) (hlook : t.lexeme? k = some lexeme) :
    lexeme.Legible Q := by
  obtain ⟨token, htoken, rfl⟩ := Option.map_eq_some_iff.mp hlook
  exact h.ahead token (List.mem_of_getElem? htoken)

theorem putDown {e : SyntaxError} (h : t.Legible Q) (he : e.fault.Legible Q) :
    (t.putDown e).Legible Q :=
  ⟨h.ahead, List.forall_mem_cons.mpr ⟨he, h.faults⟩⟩

end Tape.Legible

namespace Phrase

variable {α β σ : Type}

structure Spoken (Q : String → Prop) (R : α → Prop) (r : Except SyntaxError α × Tape) : Prop where
  tape : r.2.Legible Q
  value : ∀ a, r.1 = .ok a → R a
  error : ∀ e, r.1 = .error e → e.fault.Legible Q

def Tells (Q : String → Prop) (R : α → Prop) (p : Phrase α) : Prop :=
  ∀ t : Tape, t.Legible Q → Spoken Q R (p.on t)

def Unasked (_ : α) : Prop := True

variable {Q : String → Prop} {R R' : α → Prop} {S : β → Prop} {p : Phrase α} {f : α → Phrase β}
  {t t' : Tape} {a : α}

theorem Spoken.ok (ht : t.Legible Q) (ha : R a) : Spoken Q R (.ok a, t) :=
  ⟨ht, by rintro _ ⟨⟩; exact ha, nofun⟩

theorem Spoken.failed {e : SyntaxError} (ht : t.Legible Q) (he : e.fault.Legible Q) :
    Spoken Q R ((.error e, t) : Except SyntaxError α × Tape) :=
  ⟨ht, nofun, by rintro _ ⟨⟩; exact he⟩

namespace Tells

theorem imp (h : Tells Q R p) (hR : ∀ a, R a → R' a) : Tells Q R' p := fun t ht =>
  have hspoken := h t ht
  ⟨hspoken.tape, fun a ha => hR a (hspoken.value a ha), hspoken.error⟩

theorem any (h : Tells Q R p) : Tells Q Unasked p := h.imp fun _ _ => trivial

theorem pure (ha : R a) : Tells Q R (Pure.pure a : Phrase α) := fun _ ht => .ok ht ha

theorem failAt (position : Position) {fault : SyntaxFault} (h : fault.Legible Q) :
    Tells Q R (Phrase.failAt position fault : Phrase α) := fun _ ht => .failed ht h

/-- The phrase fails, so nothing behind it matters. -/
theorem failAt_bind (position : Position) {fault : SyntaxFault} (h : fault.Legible Q) :
    Tells Q S ((Phrase.failAt position fault : Phrase α) >>= f) := by
  intro t ht
  rw [on_bind]
  exact .failed ht h

theorem bind (hp : Tells Q R p) (hf : ∀ a, R a → Tells Q S (f a)) : Tells Q S (p >>= f) := by
  intro t ht
  have hspoken := hp t ht
  refine on_bind_cases (P := Spoken Q S) (fun a t' hon => ?_) fun e t' hon => ?_
  · rw [hon] at hspoken
    exact hf a (hspoken.value a rfl) t' hspoken.tape
  · rw [hon] at hspoken
    exact .failed hspoken.tape (hspoken.error e rfl)

/-- A phrase that only puts together what was read. -/
theorem bind_pure {g : α → β} (hp : Tells Q R p) (hg : ∀ a, R a → S (g a)) :
    Tells Q S (p >>= fun a => Pure.pure (g a)) :=
  hp.bind fun a ha => .pure (hg a ha)

theorem skip (k : Nat) : Tells Q Unasked (Phrase.skip k) := fun t ht =>
  .ok (ht.goOn (List.drop_suffix k t.ahead)) trivial

theorem place : Tells Q Unasked Phrase.place := fun _ ht => .ok ht trivial

theorem look (k : Nat) : Tells Q (fun found => ∀ lexeme, found = some lexeme → lexeme.Legible Q)
    (Phrase.look k) := fun _ ht => .ok ht fun _ hlook => ht.lexeme? hlook

theorem tape : Tells Q (Tape.Legible Q) Phrase.tape := fun _ ht => .ok ht ht

theorem expected {wanted : Wanted} (h : OneLine wanted.described) :
    Tells Q R (Phrase.expected wanted : Phrase α) :=
  place.bind fun position _ => (look 0).bind fun _ hfound =>
    .failAt position (SyntaxFault.legible_expected h hfound)

theorem take? (lexeme : Lexeme) : Tells Q Unasked (Phrase.take? lexeme) := by
  refine (look 0).bind fun found _ => ?_
  split
  · exact (skip 1).bind_pure fun _ _ => trivial
  · exact .pure trivial

theorem mark {c : Char} (h : OneLine (Wanted.mark c).described) :
    Tells Q Unasked (Phrase.mark c) := by
  refine (take? _).bind fun found _ => ?_
  cases found with
  | true => exact .pure trivial
  | false => exact expected h

theorem keyword {name : String} (h : OneLine name) : Tells Q Unasked (Phrase.keyword name) := by
  refine (take? _).bind fun found _ => ?_
  cases found with
  | true => exact .pure trivial
  | false => exact expected (.inQuotes h)

theorem identifier : Tells Q OneLine Phrase.identifier := by
  refine (look 0).bind fun found hfound => ?_
  split
  · exact (skip 1).bind_pure fun _ _ => hfound _ rfl
  · exact expected (by decide)

theorem moreSeparated (sep : Char) (h : Tells Q R p) (rounds : Nat) :
    Tells Q (fun as => ∀ a ∈ as, R a) (Phrase.moreSeparated sep p rounds) := by
  induction rounds with
  | zero => exact .pure (List.forall_mem_nil _)
  | succ rounds ih =>
    refine (take? _).bind fun found _ => ?_
    cases found with
    | true =>
      exact h.bind fun a ha => ih.bind_pure fun as has => List.forall_mem_cons.mpr ⟨ha, has⟩
    | false => exact .pure (List.forall_mem_nil _)

theorem separated (sep : Char) (h : Tells Q R p) :
    Tells Q (fun as => ∀ a ∈ as, R a) (Phrase.separated sep p) :=
  h.bind fun _ ha => tape.bind fun _ _ =>
    (moreSeparated sep h _).bind_pure fun _ has => List.forall_mem_cons.mpr ⟨ha, has⟩

theorem integer : Tells Q Unasked Phrase.integer := by
  refine (take? _).bind fun negative _ => (look 0).bind fun found hfound => ?_
  split
  · split
    · exact (skip 1).bind_pure fun _ _ => trivial
    · exact place.bind fun position _ =>
        .failAt position (SyntaxFault.legible_integerRange (hfound _ rfl))
  · exact expected (by decide)

end Tells

def Joins (Q : String → Prop) : Prop :=
  ∀ values : List String, (∀ value ∈ values, Q value) → Q (String.join values)

theorem leadingLiterals_of_legible {tokens : List Token}
    (h : ∀ token ∈ tokens, token.lexeme.Legible Q) : ∀ value ∈ leadingLiterals tokens, Q value := by
  induction tokens with
  | nil => exact List.forall_mem_nil _
  | cons token rest ih =>
    obtain ⟨lexeme, position⟩ := token
    obtain ⟨hfirst, hrest⟩ := List.forall_mem_cons.mp h
    cases lexeme with
    | literal value => exact List.forall_mem_cons.mpr ⟨hfirst, ih hrest⟩
    | _ => exact List.forall_mem_nil _

theorem Tells.literal (hQ : Joins Q) : Tells Q Q Phrase.literal := by
  refine tape.bind fun t ht => ?_
  split
  · exact expected (by decide)
  · exact (skip _).bind_pure fun _ _ => hQ _ (leadingLiterals_of_legible ht.ahead)

section Blocks

variable {R : σ → Prop} {statement : σ → Phrase σ} {s : σ}

theorem settled_of_tells (h : Tells Q R (statement s)) (hs : R s) (ht : t.Legible Q) :
    R (settled statement s t).1 ∧ (settled statement s t).2.Legible Q := by
  have hattempt : R (attempt statement s t).1 ∧ (attempt statement s t).2.Legible Q := by
    have hspoken := h t ht
    unfold attempt
    generalize (statement s).on t = r at hspoken ⊢
    obtain ⟨result, u⟩ := r
    cases result with
    | ok s' => exact ⟨hspoken.value s' rfl, hspoken.tape⟩
    | error e =>
      exact ⟨hs, (hspoken.tape.putDown (hspoken.error e rfl)).goOn (resume_suffix 0 u.ahead)⟩
  obtain ⟨hvalue, htape⟩ := hattempt
  unfold settled
  generalize attempt statement s t = r at hvalue htape ⊢
  obtain ⟨s', u⟩ := r
  refine ⟨hvalue, ?_⟩
  simp only
  split
  · exact htape
  · exact ⟨(ht.goOn (List.drop_suffix 1 t.ahead)).ahead, htape.faults⟩

theorem spoken_statements (h : ∀ s, R s → Tells Q R (statement s)) {name : String}
    (hname : OneLine (Wanted.closing name).described) {s : σ} {t : Tape} (hs : R s)
    (ht : t.Legible Q) : Spoken Q R (statements name statement s t) := by
  cases hahead : t.ahead with
  | nil =>
    rw [statements_of_nil hahead]
    exact .failed ht (SyntaxFault.legible_expected hname nofun)
  | cons token rest =>
    by_cases hclose : token.lexeme = .mark '\x7d'
    · rw [statements_of_close hahead hclose]
      exact .ok (ht.goOn (hahead ▸ List.suffix_cons token rest)) hs
    · rw [statements_of_open hahead hclose]
      have hless := length_settled statement s (t := t) (by simp [hahead])
      obtain ⟨hvalue, htape⟩ := settled_of_tells (h s hs) hs ht
      exact spoken_statements h hname hvalue htape
termination_by t.ahead.length

theorem Tells.block (h : ∀ s, R s → Tells Q R (statement s)) {name : String}
    (hname : OneLine (Wanted.closing name).described) (hs : R s) :
    Tells Q R (Phrase.block name statement s) :=
  (mark (by decide)).bind fun _ _ _ ht => spoken_statements h hname hs ht

end Blocks

end Phrase

end ProtoSchema
