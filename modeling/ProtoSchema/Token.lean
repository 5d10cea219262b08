import ProtoSchema.Text.Glyph

/-!
Tokens of a schema text, and what can be wrong with the text. A token is a
lexeme with the place where it starts. The end of the text is no token; where a
token is missing, `none` stands for it.
-/

namespace ProtoSchema

/-- A place in a text, counted from one. Line zero means no place at all. -/
structure Position where
  line : Nat
  column : Nat
deriving DecidableEq, Inhabited

namespace Position

def none : Position := ⟨0, 0⟩

def start : Position := ⟨1, 1⟩

/-- The place behind the character `c`. -/
def step (p : Position) (c : Char) : Position :=
  if c = '\n' then ⟨p.line + 1, 1⟩ else ⟨p.line, p.column + 1⟩

/-- The place behind all the characters. -/
def after (p : Position) (cs : List Char) : Position := cs.foldl step p

/-- Places are read line by line. -/
def Before (p q : Position) : Prop :=
  p.line < q.line ∨ p.line = q.line ∧ p.column < q.column

instance (p q : Position) : Decidable (Before p q) :=
  inferInstanceAs (Decidable (_ ∨ _))

end Position

/-- The smallest meaningful pieces of a text. Numbers stay as written; strings
are held decoded. -/
inductive Lexeme where
  | word (name : String)
  | integer (written : String)
  | decimal (written : String)
  | literal (value : String)
  | mark (c : Char)
deriving DecidableEq

structure Token where
  lexeme : Lexeme
  position : Position
deriving DecidableEq

namespace Lexeme

def word? : Lexeme → Option String
  | .word name => some name
  | _ => none

/-- The lexeme as a message names it. -/
def described : Lexeme → String
  | .word s | .integer s | .decimal s => "\"" ++ s ++ "\""
  | .literal s => "string " ++ Text.quoted s
  | .mark c => "\"" ++ c.toString ++ "\""

end Lexeme

/-- What the grammar asks for at a place. -/
inductive Wanted where
  | mark (c : Char)
  | keyword (name : String)
  | identifier
  | literal
  | integer
  | number
  | constant
  | closing (block : String)
  | fileStatement
  | serviceStatement
deriving DecidableEq

def Wanted.described : Wanted → String
  | .mark c => "\"" ++ c.toString ++ "\""
  | .keyword name => "\"" ++ name ++ "\""
  | .identifier => "identifier"
  | .literal => "string"
  | .integer => "integer"
  | .number => "number"
  | .constant => "constant"
  | .closing block => "\"\x7d\" to close " ++ block
  | .fileStatement => "top-level statement (e.g. \"message\")"
  | .serviceStatement => "\"rpc\" or \"option\""

/-- Why a text is not a schema. -/
inductive SyntaxFault where
  | invalidCharacter (c : Char)
  | openComment
  | openString
  | invalidNumber (written : String)
  | invalidInteger (written : String)
  | hexDigitsMissing
  | invalidEscape (c : Char)
  | expected (wanted : Wanted) (found : Option Lexeme)
  | integerRange (written : String)
  | notFirst (keyword : String)
  | unknownDialect (name : String)
  | secondPackage
  | openAggregate
  | openStatement (start : Option Lexeme)
  | labelInOneof
  | groupName
  | nestingLimit
  | rejected
deriving DecidableEq

namespace SyntaxFault

def describedToken : Option Lexeme → String
  | some lexeme => lexeme.described
  | none => "end of input"

def message : SyntaxFault → String
  | .invalidCharacter c => "invalid character " ++ Text.quotedChar c
  | .openComment => "block comment is never terminated"
  | .openString => "string literal is never terminated"
  | .invalidNumber written => "invalid number \"" ++ written ++ "\""
  | .invalidInteger written => "invalid integer \"" ++ written ++ "\""
  | .hexDigitsMissing => "expected hex digits for escape sequence"
  | .invalidEscape c => "invalid escape sequence \\" ++ c.toString
  | .expected wanted found =>
    "expected " ++ wanted.described ++ ", found " ++ describedToken found
  | .integerRange written => "integer \"" ++ written ++ "\" is out of range"
  | .notFirst keyword => "\"" ++ keyword ++ "\" must be the first statement"
  | .unknownDialect name =>
    "unrecognized syntax identifier \"" ++ name ++ "\"; expected \"proto2\" or \"proto3\""
  | .secondPackage => "multiple package definitions"
  | .openAggregate => "aggregate value is never closed"
  | .openStatement start => "expected \";\" to end " ++ describedToken start ++ " statement"
  | .labelInOneof => "fields in oneofs must not have labels"
  | .groupName => "group names must start with a capital letter"
  | .nestingLimit => "blocks are nested too deeply"
  | .rejected => "the parser rejected the file"

end SyntaxFault

/-- A fault with its place. -/
structure SyntaxError where
  position : Position
  fault : SyntaxFault
deriving DecidableEq

namespace SyntaxError

def message (e : SyntaxError) : String := e.fault.message

/-- The error as one line: place and message. -/
def described (e : SyntaxError) : String :=
  toString e.position.line ++ ":" ++ toString e.position.column ++ ": " ++ e.message

end SyntaxError

end ProtoSchema
