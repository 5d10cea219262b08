import ProtoSchema.Schema.Body
import ProtoSchema.Token.Reading

/-!
Reading a schema file. The statements of a file are read one after the other,
each error is put down where it was found, and a file with errors gives all of
them in the order of the text.
-/

namespace ProtoSchema.Phrase

open Schema

/-- The dialect that a name stands for behind a dialect keyword. -/
def dialectNamed? (keyword name : String) : Option Dialect :=
  if keyword = "edition" then some (.edition name)
  else if name = "proto2" then some .proto2
  else if name = "proto3" then some .proto3
  else none

def dialectStatement (isFirst : Bool) (word : String) (file : File) : Phrase File := do
  unless isFirst do failAt (← place) (.notFirst word)
  skip 1
  mark '='
  let position ← place
  let name ← literal
  match dialectNamed? word name with
  | none => failAt position (.unknownDialect name)
  | some dialect =>
    mark ';'
    return { file with dialect }

def packageStatement (file : File) : Phrase File := do
  if file.package.isSome then failAt (← place) .secondPackage
  keyword "package"
  let name ← dottedName
  mark ';'
  return { file with package := some name }

def importKind : Phrase ImportKind := do
  if ← take? (.word "public") then return .reexport
  else if ← take? (.word "weak") then return .weak
  else return .plain

def importStatement (file : File) : Phrase File := do
  let position ← place
  keyword "import"
  let kind ← importKind
  let path ← literal
  mark ';'
  return { file with imports := file.imports ++ [⟨path, kind, position⟩] }

/-- A statement of a file whose message bodies are read by `body`. -/
def fileStatement (body : BodyReader) (isFirst : Bool) (file : File) : Phrase File := do
  if ← take? (.mark ';') then
    return file
  else
    match ← look 0 with
    | some (.word "syntax") => dialectStatement isFirst "syntax" file
    | some (.word "edition") => dialectStatement isFirst "edition" file
    | some (.word "package") => packageStatement file
    | some (.word "import") => importStatement file
    | some (.word "option") =>
      return { file with options := file.options ++ [← optionStatement] }
    | some (.word "message") =>
      return { file with messages := file.messages ++ [← message body] }
    | some (.word "enum") => return { file with enums := file.enums ++ [← enum] }
    | some (.word "service") => return { file with services := file.services ++ [← service] }
    | some (.word "extend") =>
      return { file with extendBlocks := file.extendBlocks ++ [← extend body] }
    | _ => expected .fileStatement

/-- The statements of a file up to the end of the tape. -/
def fileStatements (body : BodyReader) (isFirst : Bool) (file : File) (t : Tape) : File × Tape :=
  if _ahead : t.ahead = [] then (file, t)
  else
    let read := settled (fileStatement body isFirst) file t
    fileStatements body false read.1 read.2
termination_by t.ahead.length
decreasing_by exact length_settled _ _ ‹_›

end ProtoSchema.Phrase

namespace ProtoSchema.Schema

/-- Reads a file off its tokens. Bodies cannot nest deeper than there are
tokens. -/
def File.ofTokens (tokens : List Token) (stop : Position) : Except (List SyntaxError) File :=
  let (file, t) :=
    Phrase.fileStatements (Phrase.bodyWithin tokens.length) true .empty ⟨tokens, stop, []⟩
  if t.faults = [] then .ok file else .error t.faults.reverse

/-- Reads a file off its text. -/
def File.read (text : String) : Except (List SyntaxError) File :=
  match Token.read text with
  | .error e => .error [e]
  | .ok (tokens, stop) => File.ofTokens tokens stop

end ProtoSchema.Schema
