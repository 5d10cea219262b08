import ProtoSchema.Proofs.Schema.Written
import ProtoSchema.Proofs.Token.Spelling

/-!
Texts put together from pieces. A piece is cut into its lexemes from any place on and whatever
follows it, so pieces may be put one behind the other. A lexeme with a blank behind it is such
a piece, and so is a dotted name as it is usually written: its words end at the dots, with no
blanks between them.
-/

namespace ProtoSchema.Token

open Scanned (Ended)

variable {cs more : List Char} {lexemes others : List Lexeme}

def CutsInto (cs : List Char) (lexemes : List Lexeme) : Prop :=
  ∀ place, ∃ tokens, Cuts place cs tokens ∧ tokens.map (·.lexeme) = lexemes

theorem CutsInto.append (h : CutsInto cs lexemes) (hmore : CutsInto more others) :
    CutsInto (cs ++ more) (lexemes ++ others) := by
  intro place
  obtain ⟨tokens, hcuts, rfl⟩ := h place
  obtain ⟨behind, hbehind, rfl⟩ := hmore (place.after cs)
  exact ⟨tokens ++ behind, hcuts.append hbehind, List.map_append⟩

/-- A lexeme goes in front of a piece that its spelling does not go on into. -/
theorem CutsInto.lexeme_append {lexeme : Lexeme} {written : List Char}
    (h : ∀ others, ∃ c rest, written = c :: rest ∧
      Scanned.first c (rest ++ (more ++ others)) = .lexeme lexeme written.length)
    (hmore : CutsInto more lexemes) : CutsInto (written ++ more) (lexeme :: lexemes) := by
  intro place
  obtain ⟨tokens, hcuts, rfl⟩ := hmore (place.after written)
  refine ⟨⟨lexeme, place⟩ :: tokens, fun others => ?_, rfl⟩
  rw [List.append_assoc, readFrom_found place (h others), hcuts, Position.after_append,
    map_prepend_behind]

theorem cutsInto_blank : CutsInto [' '] [] :=
  fun place => ⟨[], cuts_blank place, rfl⟩

theorem cutsInto_spelling {lexeme : Lexeme} (h : lexeme.Readable) :
    CutsInto (lexeme.spelling ++ [' ']) [lexeme] := by
  refine CutsInto.lexeme_append (fun others => ?_) cutsInto_blank
  exact Lexeme.first_spelling h (.inr ⟨' ', others, rfl, rfl⟩)

theorem cutsInto_mark {c : Char} (h : c ∈ Scanned.marks) : CutsInto [c, ' '] [.mark c] :=
  cutsInto_spelling (Lexeme.readable_mark.mpr h)

theorem cutsInto_keyword (word : String) (h : Scanned.isWord word = true) :
    CutsInto (word.toList ++ [' ']) [.word word] :=
  cutsInto_spelling (Written.readable_keyword h)

theorem cutsInto_close : CutsInto ['\x7d'] [.mark '\x7d'] :=
  fun place => ⟨_, cuts_brace place (.inr rfl), rfl⟩

/-- A word may end at what does not go on with it. -/
theorem CutsInto.word_append {word : String} (hword : Scanned.IsWord word)
    (hmore : CutsInto more lexemes) (hended : ∀ others, Ended (more ++ others)) :
    CutsInto (word.toList ++ more) (.word word :: lexemes) := by
  refine CutsInto.lexeme_append (fun others => ?_) hmore
  obtain ⟨c, rest, rfl, hstart, hrest⟩ := hword
  refine ⟨c, rest, String.toList_ofList, ?_⟩
  rw [Scanned.first_word (hended others) hstart hrest, String.toList_ofList]

/-- A dot in front of a word is a mark and starts no number. -/
theorem first_dot {word : String} (hword : Scanned.IsWord word) (more : List Char) :
    Scanned.first '.' (word.toList ++ more) = .lexeme (.mark '.') 1 := by
  obtain ⟨c, rest, rfl, hstart, _⟩ := hword
  have hdigit : ¬c.isDigit = true := fun h => (Scanned.plain_of_isDigit h).2.2 hstart
  have hnumber : ¬Scanned.StartsNumber '.' (c :: (rest ++ more)) := by
    rintro (hdot | ⟨_, hnext⟩)
    · exact absurd hdot (by decide)
    · exact hdigit hnext
  rw [String.toList_ofList, List.cons_append]
  exact (Scanned.Starts.mark (by decide) (fun h => absurd h.1 (by decide))
    (fun h => absurd h.1 (by decide)) hnumber).first_eq

end Token

namespace Written

open Token (CutsInto)

def Name.chars (name : Name) : List Char :=
  name.first.text.toList ++ name.rest.flatMap fun x => '.' :: x.text.toList

theorem Name.toList_text (name : Name) : name.parts.text.toList = name.chars := by
  obtain ⟨first, rest⟩ := name
  rw [DottedName.text, String.toList_intercalate]
  induction rest generalizing first with
  | nil => simp [Name.parts, Name.chars]
  | cons second rest ih =>
    have hrest := ih second
    simp only [Name.parts, Name.chars, List.map_cons] at hrest ⊢
    rw [List.intercalate_cons_cons, hrest]
    simp

theorem Name.dot_cutsInto {name : Name} (h : CutsInto (name.chars ++ [' ']) name.lexemes) :
    CutsInto ('.' :: (name.chars ++ [' '])) (.mark '.' :: name.lexemes) := by
  change CutsInto (['.'] ++ (name.chars ++ [' '])) (.mark '.' :: name.lexemes)
  refine CutsInto.lexeme_append (fun others => ⟨'.', [], rfl, ?_⟩) h
  have hdot := Token.first_dot name.first.isWord
    ((name.rest.flatMap fun x => '.' :: x.text.toList) ++ [' '] ++ others)
  simpa [Name.chars] using hdot

/-- A dotted name with a blank behind it. -/
theorem Name.cutsInto (name : Name) : CutsInto (name.chars ++ [' ']) name.lexemes := by
  obtain ⟨first, rest⟩ := name
  induction rest generalizing first with
  | nil =>
    have hword := Token.cutsInto_blank.word_append first.isWord fun others d hd => by
      cases hd
      rfl
    simpa [Name.chars, Name.lexemes] using hword
  | cons second rest ih =>
    have hwhole := (dot_cutsInto (ih second)).word_append first.isWord fun others d hd => by
      cases hd
      rfl
    simpa [Name.chars, Name.lexemes] using hwhole

theorem Reference.toList_text (type : Reference) :
    type.typeName.text.toList = (if type.absolute then ['.'] else []) ++ type.name.chars := by
  obtain ⟨absolute, name⟩ := type
  rw [← name.toList_text]
  cases absolute with
  | true => simp [Reference.typeName, TypeName.text]
  | false => simp [Reference.typeName, TypeName.text]

/-- The name of a type as it is written, with a blank behind it. -/
theorem Reference.cutsInto (type : Reference) :
    CutsInto (type.typeName.text.toList ++ [' ']) type.lexemes := by
  rw [type.toList_text]
  obtain ⟨absolute, name⟩ := type
  cases absolute with
  | false => exact name.cutsInto
  | true => exact Name.dot_cutsInto name.cutsInto

end Written

end ProtoSchema
