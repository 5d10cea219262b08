import ProtoSchema.Proofs.Schema.RoundTrip
import ProtoSchema.Proofs.Token.Joining

/-!
Methods written out and read back. A method has a type on either side, perhaps of a stream.
Tokens do not tell whether blanks stand between them, so a stream of an absolute name is
written with the tokens of a relative name that starts with the word `stream`, and it is read
as that name. Everything else is read back as it was written, names that start with `stream`
included.
-/

namespace ProtoSchema

namespace Written

open Phrase (Takes)
open Token (CutsInto)

structure Side where
  streams : Bool
  type : Reference

namespace Side

def lexemes (side : Side) : List Lexeme :=
  .mark '(' :: ((if side.streams then [.word "stream"] else []) ++
    (side.type.lexemes ++ [.mark ')']))

def text (side : Side) : String :=
  "( " ++ (if side.streams then "stream " else "") ++ side.type.typeName.text ++ " )"

/-- The side that is read where this one is written. -/
def readAs (side : Side) : Side :=
  if side.streams ∧ side.type.absolute then
    ⟨false, false, ⟨"stream", by decide⟩, side.type.name.first :: side.type.name.rest⟩
  else side

theorem lexemes_readAs (side : Side) : side.readAs.lexemes = side.lexemes := by
  obtain ⟨streams, absolute, name⟩ := side
  unfold readAs
  split
  · next h =>
    obtain ⟨rfl, rfl⟩ := h
    simp [lexemes, Reference.lexemes, Name.lexemes]
  · rfl

theorem relative_readAs (side : Side) (h : side.readAs.streams = true) :
    side.readAs.type.absolute = false := by
  unfold readAs at h ⊢
  split
  · rfl
  · next hplain =>
    rw [if_neg hplain] at h
    simpa [h] using hplain

theorem cutsInto (side : Side) : CutsInto (side.text.toList ++ [' ']) side.lexemes := by
  have hopen := Token.cutsInto_mark (c := '(') (by decide)
  have hclose := Token.cutsInto_mark (c := ')') (by decide)
  have htype := side.type.cutsInto.append hclose
  have hstream := Token.cutsInto_keyword "stream" (by decide)
  obtain ⟨streams, type⟩ := side
  cases streams with
  | false => simpa [text, lexemes] using hopen.append htype
  | true => simpa [text, lexemes] using hopen.append (hstream.append htype)

end Side

section Phrases

variable {more : List Lexeme}

def Agrees (side : Side) (found : Bool × TypeName × Position) : Prop :=
  found.1 = side.streams ∧ found.2.1 = side.type.typeName

theorem takes_streamedType_of_relative (side : Side)
    (h : side.streams = true → side.type.absolute = false) :
    Phrase.streamedType.Takes side.lexemes more (Agrees side) := by
  have htyped (streams : Bool) :
      (do
        let position ← Phrase.place
        let name ← Phrase.typeName
        Phrase.mark ')'
        return (streams, name, position) : Phrase (Bool × TypeName × Position)).Takes
          (side.type.lexemes ++ [Lexeme.mark ')']) more (Agrees ⟨streams, side.type⟩) := by
    apply Takes.place_bind
    intro position
    apply Takes.bind (takes_typeName side.type (by simp))
    intro name hname
    apply Takes.mark_bind
    exact .pure ⟨rfl, hname⟩
  obtain ⟨streams, absolute, first, rest⟩ := side
  unfold Phrase.streamedType Side.lexemes
  apply Takes.mark_bind
  apply Takes.look_bind
  apply Takes.look_bind
  cases streams with
  | true =>
    cases h rfl
    exact Takes.skip_bind [.word "stream"] (htyped true)
  | false =>
    -- Behind the word `stream`, where it is the type, comes a dot or the parenthesis.
    have hplain : ¬((Reference.lexemes ⟨absolute, first, rest⟩ ++ [Lexeme.mark ')'] ++ more)[0]? =
          some (Lexeme.word "stream") ∧
        (Reference.lexemes ⟨absolute, first, rest⟩ ++ [Lexeme.mark ')'] ++ more)[1]? ≠
          some (Lexeme.mark ')') ∧
        (Reference.lexemes ⟨absolute, first, rest⟩ ++ [Lexeme.mark ')'] ++ more)[1]? ≠
          some (Lexeme.mark '.')) := by
      cases absolute with
      | true => simp [Reference.lexemes]
      | false => cases rest <;> simp [Reference.lexemes, Name.lexemes]
    simp only [Bool.false_eq_true, if_false, List.nil_append, decide_eq_false hplain]
    exact htyped false

/-- The lexemes of a side are taken as the side that they are read as. -/
theorem takes_streamedType (side : Side) :
    Phrase.streamedType.Takes side.lexemes more (Agrees side.readAs) := by
  rw [← side.lexemes_readAs]
  exact takes_streamedType_of_relative side.readAs side.relative_readAs

def methodLexemes (name : Identifier) (input output : Side) : List Lexeme :=
  .word "rpc" :: .word name.text ::
    (input.lexemes ++ .word "returns" :: (output.lexemes ++ [.mark ';']))

def methodOf (name : Identifier) (input output : Side) : Schema.Method :=
  ⟨name.text, input.type.typeName, .none, input.streams, output.type.typeName, .none,
    output.streams, [], .none⟩

theorem takes_method (name : Identifier) (input output : Side) :
    Phrase.method.Takes (methodLexemes name input output) more
      (fun found => found.unplaced = methodOf name input.readAs output.readAs) := by
  unfold Phrase.method methodLexemes
  apply Takes.keyword_bind
  apply Takes.place_bind
  intro position
  apply Takes.identifier_bind
  apply Takes.bind (takes_streamedType input)
  intro readInput hinput
  apply Takes.keyword_bind
  apply Takes.bind (takes_streamedType output)
  intro readOutput houtput
  apply Takes.look_bind
  rw [if_neg (by simp)]
  apply Takes.mark_bind
  apply Takes.pure
  simp only [Schema.Method.unplaced, methodOf, hinput.1, hinput.2, houtput.1, houtput.2]
  rfl

def serviceOf (service : Identifier) (method : Schema.Method) : Schema.Service :=
  ⟨service.text, [method], [], .none⟩

theorem takes_service (service name : Identifier) (input output : Side) :
    Phrase.service.Takes
      (.word "service" :: .word service.text :: braced (methodLexemes name input output)) more
      (fun found => found.unplaced =
        serviceOf service (methodOf name input.readAs output.readAs)) := by
  have hstatement (s : Schema.Service) (behind : List Lexeme) :
      (Phrase.serviceStatement s).Takes (methodLexemes name input output) behind
        (fun found => found.unplaced = { s.unplaced with
          methods := s.unplaced.methods ++ [methodOf name input.readAs output.readAs] }) := by
    unfold Phrase.serviceStatement
    apply Takes.not_take?_bind (by simp [methodLexemes])
    apply Takes.look_bind
    apply Takes.bind_last (takes_method name input output)
    intro found hfound
    apply Takes.pure
    simp [Schema.Service.unplaced, hfound]
  unfold Phrase.service
  apply Takes.keyword_bind
  apply Takes.place_bind
  intro position
  apply Takes.identifier_bind
  let methods := [methodOf name input.readAs output.readAs]
  have hlexemes : methods.flatMap (fun _ => methodLexemes name input output) =
      methodLexemes name input output := List.flatMap_singleton ..
  rw [braced, ← hlexemes]
  apply Takes.imp (Phrase.takes_block Schema.Service.unplaced
    (fun s method => { s with methods := s.methods ++ [method] })
    (fun _ => methodLexemes name input output) "service" methods
    (fun method hmethod s behind => by
      rw [List.mem_singleton.mp hmethod]
      exact hstatement s behind)
    (fun _ _ => ⟨_, _, rfl, by simp⟩) ⟨service.text, [], [], position⟩)
  intro found hfound
  rw [hfound]
  rfl

end Phrases

def methodText (service name : Identifier) (input output : Side) : String :=
  "service " ++ service.text ++ " \x7b rpc " ++ name.text ++ " " ++ input.text ++ " returns " ++
    output.text ++ " ; \x7d"

example : methodText ⟨"S", by decide⟩ ⟨"N", by decide⟩
    ⟨true, false, ⟨"a", by decide⟩, [⟨"T", by decide⟩]⟩ ⟨false, true, ⟨"U", by decide⟩, []⟩ =
    "service S \x7b rpc N ( stream a.T ) returns ( .U ) ; \x7d" := by
  rfl

theorem cutsInto_methodText (service name : Identifier) (input output : Side) :
    CutsInto (methodText service name input output).toList
      (.word "service" :: .word service.text :: braced (methodLexemes name input output)) := by
  have hend := (Token.cutsInto_mark (c := ';') (by decide)).append Token.cutsInto_close
  have hreturns := (Token.cutsInto_keyword "returns" (by decide)).append
    (output.cutsInto.append hend)
  have hmethod := (Token.cutsInto_keyword "rpc" (by decide)).append
    ((Token.cutsInto_spelling name.readable).append (input.cutsInto.append hreturns))
  have hservice := (Token.cutsInto_keyword "service" (by decide)).append
    ((Token.cutsInto_spelling service.readable).append
      ((Token.cutsInto_mark (c := '\x7b') (by decide)).append hmethod))
  unfold methodText
  simpa [methodLexemes, braced, Lexeme.spelling] using hservice

/-- A method that is written out is read back as the only one of its service: with its name,
and with the types and the streams of its sides. A stream of an absolute name is lost, being
read as a relative name that starts with `stream`. -/
theorem methods_read_back (service name : Identifier) (input output : Side) :
    ∃ found : Schema.Service,
      Schema.File.read (methodText service name input output) =
          .ok { Schema.File.empty with services := [found] } ∧
        found.unplaced = serviceOf service (methodOf name input.readAs output.readAs) := by
  obtain ⟨tokens, hcuts, htokens⟩ := cutsInto_methodText service name input output .start
  have hread := hcuts []
  rw [List.append_nil, Token.readFrom_nil] at hread
  have hstatement :
      (Phrase.fileStatement (Phrase.bodyWithin tokens.length) true .empty).Takes
        (.word "service" :: .word service.text :: braced (methodLexemes name input output)) []
        (fun file => ∃ found : Schema.Service,
          file = { Schema.File.empty with services := [found] } ∧
            found.unplaced = serviceOf service (methodOf name input.readAs output.readAs)) := by
    unfold Phrase.fileStatement
    apply Takes.not_take?_bind (by simp)
    apply Takes.look_bind
    apply Takes.bind_last (takes_service service name input output)
    intro found hfound
    exact .pure ⟨found, rfl, hfound⟩
  obtain ⟨file, hfile, found, rfl, hfound⟩ := ofTokens_of_takes htokens (by simp) hstatement
  refine ⟨found, ?_, hfound⟩
  rw [Schema.File.read, Token.read, hread]
  simp only [Token.behind, List.append_nil]
  exact hfile

/-- Not every method comes back as it was written, even where no name starts with `stream`. -/
theorem stream_of_absolute_name_lost :
    ¬∀ (service name : Identifier) (input output : Side),
      input.type.name.first.text ≠ "stream" → output.type.name.first.text ≠ "stream" →
        ∃ found : Schema.Service,
          Schema.File.read (methodText service name input output) =
              .ok { Schema.File.empty with services := [found] } ∧
            found.unplaced = serviceOf service (methodOf name input output) := by
  intro h
  obtain ⟨found, hread, hfound⟩ := h ⟨"S", by decide⟩ ⟨"N", by decide⟩
    ⟨true, true, ⟨"pkg", by decide⟩, [⟨"Type", by decide⟩]⟩
    ⟨false, false, ⟨"Out", by decide⟩, []⟩ (by decide) (by decide)
  have htext : methodText ⟨"S", by decide⟩ ⟨"N", by decide⟩
      ⟨true, true, ⟨"pkg", by decide⟩, [⟨"Type", by decide⟩]⟩
      ⟨false, false, ⟨"Out", by decide⟩, []⟩ =
      "service S \x7b rpc N ( stream .pkg.Type ) returns ( Out ) ; \x7d" := by rfl
  have hcode : (Schema.File.read
        "service S \x7b rpc N ( stream .pkg.Type ) returns ( Out ) ; \x7d").toOption.map
      (fun file => file.services.map fun service => service.methods.map (·.clientStreams)) =
        some [[false]] := by decide +kernel
  rw [← htext, hread] at hcode
  have hstreams : found.methods.map (·.clientStreams) = [false] := by
    simpa [Except.toOption] using hcode
  have hclaimed := congrArg (fun service => service.methods.map (·.clientStreams)) hfound
  have hsame : found.unplaced.methods.map (·.clientStreams) =
      found.methods.map (·.clientStreams) := by
    simp [Schema.Service.unplaced, Schema.Method.unplaced]
  rw [hsame, hstreams] at hclaimed
  exact absurd hclaimed (by decide)

end Written

end ProtoSchema
