import ProtoSchema.Path.Physical

/-!
Stores of files. A store answers whether a file stands at a path, gives its
text and lists the files below a directory. Its `size` bounds how many
different places hold a file. The bytes of a file are a text if they are valid
UTF-8 behind a byte order mark, which is dropped.
-/

namespace ProtoSchema

/-- Why a file could not be read. -/
inductive ReadError where
  | notFound (path : PhysicalPath)
  | permissionDenied (path : PhysicalPath)
  | isDirectory (path : PhysicalPath)
  | invalidUtf8 (path : PhysicalPath)
  | failed (path : PhysicalPath) (cause : String)
deriving DecidableEq

namespace ReadError

def path : ReadError → PhysicalPath
  | .notFound p | .permissionDenied p | .isDirectory p | .invalidUtf8 p | .failed p _ => p

def message : ReadError → String
  | .notFound p => "file not found: " ++ p.spelling
  | .permissionDenied p => "permission denied: " ++ p.spelling
  | .isDirectory p => "is a directory: " ++ p.spelling
  | .invalidUtf8 p => "file is not valid UTF-8: " ++ p.spelling
  | .failed p cause => "failed to read " ++ p.spelling ++ ": " ++ cause

/-- The error behind this one, when there is one to name. -/
def cause? : ReadError → Option String
  | .failed _ cause => some cause
  | _ => none

def isNotFound : ReadError → Bool
  | .notFound _ => true
  | _ => false

end ReadError

/-- A place that keeps files. -/
structure Store where
  isFile : PhysicalPath → Bool
  load : PhysicalPath → Except ReadError String
  walk : PhysicalPath → Except ReadError (List PhysicalPath)
  size : Nat

namespace Text

def dropByteOrderMark (bytes : List UInt8) : List UInt8 :=
  match bytes with
  | 0xef :: 0xbb :: 0xbf :: rest => rest
  | _ => bytes

/-- The text that the bytes spell, without their byte order mark. -/
def decodeUtf8? (bytes : List UInt8) : Option String :=
  String.fromUTF8? (ByteArray.mk (dropByteOrderMark bytes).toArray)

end Text

/-- The text of a file's bytes. -/
def decodeFile (bytes : List UInt8) (path : PhysicalPath) : Except ReadError String :=
  match Text.decodeUtf8? bytes with
  | some text => .ok text
  | none => .error (.invalidUtf8 path)

end ProtoSchema
