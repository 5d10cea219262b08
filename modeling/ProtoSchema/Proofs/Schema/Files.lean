import ProtoSchema.Proofs.Schema.Phrases
import ProtoSchema.Proofs.Token.Reading
import ProtoSchema.Schema.Reading

/-!
Files side by side. The statements of two files read alike when the files agree on having a
package, since nothing else of what was read counts for what follows. A file that was read
has words of its text for the names that its full names start with.
-/

namespace ProtoSchema

structure Schema.File.Named (Word : String → Prop) (file : Schema.File) : Prop where
  package : ∀ name, file.package = some name → ∃ first rest, name = first :: rest ∧ Word first
  messages : ∀ message ∈ file.messages, Word message.name
  enums : ∀ enum ∈ file.enums, Word enum.name
  groups : ∀ block ∈ file.extendBlocks, ∀ message ∈ block.groups, Word message.name

namespace Phrase

variable {body : BodyReader} {isFirst : Bool} {file file' : Schema.File} {t t' : Tape}

theorem fileStatements_of_nil (h : t.ahead = []) :
    fileStatements body isFirst file t = (file, t) := by
  rw [fileStatements, dif_pos h]

theorem fileStatements_of_ne_nil (h : t.ahead ≠ []) :
    fileStatements body isFirst file t =
      fileStatements body false (settled (fileStatement body isFirst) file t).1
        (settled (fileStatement body isFirst) file t).2 := by
  rw [fileStatements, dif_neg h]

/-- Behind a statement of the file that succeeds reading goes on. -/
theorem fileStatements_of_ok (h : (fileStatement body isFirst file).on t = (.ok file', t'))
    (hless : t'.ahead.length < t.ahead.length) :
    fileStatements body isFirst file t = fileStatements body false file' t' := by
  have hne : t.ahead ≠ [] := List.length_pos_iff.mp (Nat.zero_lt_of_lt hless)
  rw [fileStatements_of_ne_nil hne, settled_of_ok h hless]

end Phrase

namespace Bond

open Schema

variable {l : Bond} {n m : Nat} {c : Option (List Token)} {t u : Tape} {file file' : File}
  {body body' : Phrase.BodyReader}

def SameStart (l : Bond) (a b : File) : Prop :=
  a.package.isSome = b.package.isSome ∧ a.Named l.Word

theorem dialectStatement (isFirst : Bool) (word : String) (hfiles : l.SameStart file file')
    (hties : l.Ties n c t u) (hlook : ∃ found, t.lexeme? 0 = some (.word found)) :
    l.Outcome n c 1 l.SameStart t ((Phrase.dialectStatement isFirst word file).on t)
      ((Phrase.dialectStatement isFirst word file').on u) := by
  obtain ⟨found, hlook⟩ := hlook
  cases isFirst with
  | false => exact .of_alike hties (Alike.place.bind fun _ _ hspot => .failAt_bind hspot _)
  | true =>
    refine .skip_bind hties hlook (by simp [Lexeme.IsPlain]) ?_
    refine (Alike.mark (by decide)).bind fun _ _ _ => Alike.place.bind fun _ _ hspot => ?_
    refine Alike.literal.bind fun name _ hname => ?_
    subst hname
    split
    · exact .failAt hspot _
    · next dialect hdialect =>
      exact (Alike.mark (by decide)).bind fun _ _ _ => .pure ⟨hfiles.1, { hfiles.2 with }⟩

theorem packageStatement (hfiles : l.SameStart file file') :
    l.Alike n 1 l.SameStart (Phrase.packageStatement file) (Phrase.packageStatement file') := by
  obtain ⟨hpackage, hnamed⟩ := hfiles
  have hrest : l.Alike n 1 l.SameStart
      (do
        Phrase.keyword "package"
        let name ← Phrase.dottedName
        Phrase.mark ';'
        return { file with package := some name })
      (do
        Phrase.keyword "package"
        let name ← Phrase.dottedName
        Phrase.mark ';'
        return { file' with package := some name }) := by
    refine (Alike.keyword _).bind fun _ _ _ => dottedName.bind fun name name' hname => ?_
    refine (Alike.mark (by decide)).bind fun _ _ _ => .pure ⟨rfl, { hnamed with package := ?_ }⟩
    rintro _ ⟨⟩
    obtain ⟨hne, hwords⟩ := hname
    cases hwords with
    | nil => exact absurd rfl hne
    | cons hfirst _ => exact ⟨_, _, rfl, hfirst.2⟩
  unfold Phrase.packageStatement
  rw [hpackage]
  exact .ite Iff.rfl (fun _ => Alike.place.bind fun _ _ hspot => .failAt_bind hspot _)
    fun _ => hrest

theorem importKind : l.Alike n 0 Any Phrase.importKind Phrase.importKind :=
  .take? (by decide) (.pure trivial) (.take? (by decide) (.pure trivial) (.pure trivial))

theorem importStatement (hfiles : l.SameStart file file') :
    l.Alike n 1 l.SameStart (Phrase.importStatement file) (Phrase.importStatement file') :=
  Alike.place.bind fun _ _ _ => (Alike.keyword _).bind fun _ _ _ =>
    importKind.bind fun _ _ _ => Alike.literal.bind fun _ _ _ =>
      (Alike.mark (by decide)).bind fun _ _ _ => .pure ⟨hfiles.1, { hfiles.2 with }⟩

theorem fileStatement (hbody : l.Bodies n body body') (isFirst : Bool)
    (hfiles : l.SameStart file file') :
    l.Alike n 1 l.SameStart (Phrase.fileStatement body isFirst file)
      (Phrase.fileStatement body' isFirst file') := by
  have hinner := hbody.mono (Nat.sub_le n 1)
  refine .take? (by decide) (.pure hfiles) (.first_bind fun c t u hties => ?_)
  obtain ⟨hpackage, hnamed⟩ := hfiles
  split
  · next hlook => exact dialectStatement isFirst _ ⟨hpackage, hnamed⟩ hties ⟨_, hlook⟩
  · next hlook => exact dialectStatement isFirst _ ⟨hpackage, hnamed⟩ hties ⟨_, hlook⟩
  · exact .of_alike hties (packageStatement ⟨hpackage, hnamed⟩)
  · exact .of_alike hties (importStatement ⟨hpackage, hnamed⟩)
  · exact .of_alike hties (optionStatement.bind fun _ _ _ => .pure ⟨hpackage, { hnamed with }⟩)
  · refine .of_alike hties ((message hbody).bind fun _ _ hname =>
      .pure ⟨hpackage, { hnamed with messages := ?_ }⟩)
    exact List.forall_mem_append.mpr ⟨hnamed.messages, List.forall_mem_singleton.mpr hname.2⟩
  · refine .of_alike hties (enum.bind fun _ _ hname =>
      .pure ⟨hpackage, { hnamed with enums := ?_ }⟩)
    exact List.forall_mem_append.mpr ⟨hnamed.enums, List.forall_mem_singleton.mpr hname.2⟩
  · exact .of_alike hties (service.bind fun _ _ _ => .pure ⟨hpackage, { hnamed with }⟩)
  · refine .of_alike hties ((extend hinner).bind fun _ _ hgroups =>
      .pure ⟨hpackage, { hnamed with groups := ?_ }⟩)
    exact List.forall_mem_append.mpr ⟨hnamed.groups, List.forall_mem_singleton.mpr hgroups.2⟩
  · exact .of_alike hties (.expected _)

theorem fileStatements (hbody : l.Bodies n body body') (isFirst : Bool) {file file' : File}
    {t u : Tape} (hfiles : l.SameStart file file') (hties : l.Ties n none t u) :
    l.SameStart (Phrase.fileStatements body isFirst file t).1
        (Phrase.fileStatements body' isFirst file' u).1 ∧
      l.Ties n none (Phrase.fileStatements body isFirst file t).2
        (Phrase.fileStatements body' isFirst file' u).2 := by
  by_cases hahead : t.ahead = []
  · rw [Phrase.fileStatements_of_nil hahead, Phrase.fileStatements_of_nil (hties.nil hahead)]
    exact ⟨hfiles, hties⟩
  · obtain ⟨token, rest, hcons⟩ := List.exists_cons_of_ne_nil hahead
    have hu : u.ahead ≠ [] := by
      rw [hties.cons hcons]
      exact List.cons_ne_nil _ _
    rw [Phrase.fileStatements_of_ne_nil hahead, Phrase.fileStatements_of_ne_nil hu]
    have hsettled := settled (fileStatement hbody isFirst hfiles) hfiles hties (.inl rfl)
    have hless := Phrase.length_settled (Phrase.fileStatement body isFirst) file hahead
    exact fileStatements hbody false hsettled.states hsettled.ties
termination_by t.ahead.length

end Bond

/-- Nothing in the empty file has a name. -/
theorem Bond.sameStart_empty {l : Bond} : l.SameStart .empty .empty := by
  refine ⟨rfl, ⟨?_, by simp [Schema.File.empty], by simp [Schema.File.empty],
    by simp [Schema.File.empty]⟩⟩
  intro name hname
  cases hname

theorem Bond.carried_self {l : Bond} (hmove : l.move = id) (hextra : l.extra = [])
    {tokens : List Token} : l.carried tokens = tokens := by
  have hsame : Token.moved l.move = id := by
    rw [hmove]
    rfl
  rw [carried, hsame, List.map_id, hextra, List.append_nil]

/-- A tape may be read alongside itself. -/
theorem Bond.ties_self {l : Bond} {t : Tape} (hstop : l.stop = t.stop) (hlast : l.last = t.stop)
    (hmove : l.move = id)
    (hearlier : l.earlier = t.faults) (hothers : l.others = t.faults) (hextra : l.extra = [])
    (hwords : ∀ token ∈ t.ahead, ∀ word, token.lexeme = .word word → l.Word word)
    {c : Option (List Token)} (haround : l.Around c t.ahead) : l.Ties t.ahead.length c t t := by
  refine ⟨⟨?_, ⟨hstop.symm, hlast.symm⟩, hwords, ⟨[], ?_, ?_, by simp⟩, Nat.le_refl _⟩, haround⟩
  · exact (carried_self hmove hextra).symm
  · rw [hearlier, List.nil_append]
  · rw [hothers, List.map_nil, List.nil_append]

def Bond.moving (stop : Position) (move : Position → Position) (others : List SyntaxError) :
    Bond where
  stop := stop
  last := move stop
  move := move
  Spot _ := True
  Word _ := True
  earlier := []
  others := others

theorem Bond.ties_moving (tokens : List Token) (stop : Position) (move : Position → Position)
    (others : List SyntaxError) :
    (Bond.moving stop move others).Ties tokens.length none ⟨tokens, stop, []⟩
      ⟨tokens.map (Token.moved move), move stop, others⟩ := by
  refine ⟨⟨(List.append_nil _).symm, ⟨rfl, rfl⟩, fun _ _ _ _ => trivial, ⟨[], rfl, rfl, by simp⟩,
    Nat.le_refl _⟩, fun _ => trivial, rfl, rfl⟩

/-- A file that was read has words for its names. -/
theorem Schema.File.named_of_read {text : String} {file : Schema.File}
    (h : Schema.File.read text = .ok file) : file.Named Scanned.IsWord := by
  unfold Schema.File.read at h
  cases hread : Token.read text with
  | error e =>
    rw [hread] at h
    cases h
  | ok found =>
    obtain ⟨tokens, stop⟩ := found
    rw [hread] at h
    let l : Bond := { Bond.moving stop id [] with Word := Scanned.IsWord }
    let t : Tape := ⟨tokens, stop, []⟩
    have hties : l.Ties tokens.length none t t :=
      Bond.ties_self (l := l) (t := t) (c := none) rfl rfl rfl rfl rfl rfl
        (Token.wellRead hread).words ⟨fun _ => trivial, rfl, rfl⟩
    have hbodies : l.Bodies tokens.length _ _ :=
      Bond.bodyWithin tokens.length tokens.length (.inl rfl)
    have hfiles := Bond.fileStatements hbodies true Bond.sameStart_empty hties
    simp only [ofTokens] at h
    split at h
    · cases h
      exact hfiles.1.2
    · cases h

end ProtoSchema
