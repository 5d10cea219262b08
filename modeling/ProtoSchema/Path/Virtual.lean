import ProtoSchema.Text.Split
import ProtoSchema.Text.Glyph

/-!
Virtual paths, the names of schema files inside the overlaid tree. A path is a
list of segments, with a mark for a leading slash; reading one drops empty and
`.` segments, so every spelling of a file gives the same path. A mount is the
same without the demand for a segment: it names a place where a directory is
overlaid.
-/

namespace ProtoSchema

/-- Why a text is not a virtual path. -/
inductive PathFault where
  | empty
  | parentReference (raw : String)
  | backslash (raw : String)
deriving DecidableEq

def PathFault.message : PathFault → String
  | .empty => "virtual path is empty"
  | .parentReference raw => "\"..\" is not allowed in virtual path \"" ++ raw ++ "\""
  | .backslash raw => "backslashes are not allowed in virtual path \"" ++ raw ++ "\""

/-- A text that can stand between the slashes of a normalized path. -/
def IsSegment (s : String) : Prop :=
  s ≠ "" ∧ s ≠ "." ∧ s ≠ ".." ∧ '/' ∉ s.toList ∧ '\\' ∉ s.toList

instance (s : String) : Decidable (IsSegment s) :=
  inferInstanceAs (Decidable (_ ∧ _))

/-- A place in the virtual tree, possibly its top. -/
structure Mount where
  rooted : Bool
  segments : List String
  clean : ∀ s ∈ segments, IsSegment s
deriving DecidableEq

/-- The name of a file in the virtual tree. -/
structure VirtualPath extends Mount where
  nonempty : segments ≠ []
deriving DecidableEq

namespace Mount

theorem ext {m n : Mount} (hr : m.rooted = n.rooted) (hs : m.segments = n.segments) : m = n := by
  cases m
  cases n
  simp_all

/-- The pieces of a raw path that are kept as segments. -/
def keptPieces (raw : String) : List String :=
  ((Text.splitAt '/' raw.toList).map String.ofList).filter fun s => s ≠ "" ∧ s ≠ "."

theorem isSegment_of_mem_keptPieces {raw s : String} (hslash : '\\' ∉ raw.toList)
    (hparent : ".." ∉ keptPieces raw) (hs : s ∈ keptPieces raw) : IsSegment s := by
  have hkept := hs
  simp only [keptPieces, List.mem_filter, List.mem_map, decide_eq_true_eq] at hs
  obtain ⟨⟨piece, hpiece, rfl⟩, hempty, hdot⟩ := hs
  refine ⟨hempty, hdot, fun h => hparent (h ▸ hkept), fun h => ?_, fun h => ?_⟩
  · rw [String.toList_ofList] at h
    exact (Text.mem_of_mem_splitAt hpiece h).2 rfl
  · rw [String.toList_ofList] at h
    exact hslash (Text.mem_of_mem_splitAt hpiece h).1

/-- Reads a mount. The empty text and `/` are the two tops. -/
def read (raw : String) : Except PathFault Mount :=
  if hslash : '\\' ∈ raw.toList then .error (.backslash raw)
  else if hparent : ".." ∈ keptPieces raw then .error (.parentReference raw)
  else
    .ok {
      rooted := raw.toList.head? == some '/'
      segments := keptPieces raw
      clean := fun _ => isSegment_of_mem_keptPieces hslash hparent }

/-- The one written form of a mount. -/
def text (m : Mount) : String :=
  (if m.rooted then "/" else "") ++ "/".intercalate m.segments

/-- The segments of `inner` below `m`, if it lies at or below `m`. -/
def below? (m inner : Mount) : Option (List String) :=
  if m.rooted = inner.rooted ∧ m.segments <+: inner.segments then
    some (inner.segments.drop m.segments.length)
  else none

/-- The file reached from the mount through `rest`, if `rest` spells one. -/
def join? (m : Mount) (rest : List String) : Option VirtualPath :=
  if h : (∀ s ∈ rest, IsSegment s) ∧ m.segments ++ rest ≠ [] then
    some {
      rooted := m.rooted
      segments := m.segments ++ rest
      clean := fun s hs => (List.mem_append.1 hs).elim (m.clean s) (h.1 s)
      nonempty := h.2 }
  else none

end Mount

namespace VirtualPath

theorem ext {p q : VirtualPath} (hr : p.rooted = q.rooted) (hs : p.segments = q.segments) :
    p = q := by
  obtain ⟨m, hm⟩ := p
  obtain ⟨n, hn⟩ := q
  obtain rfl : m = n := Mount.ext hr hs
  rfl

def read (raw : String) : Except PathFault VirtualPath :=
  match Mount.read raw with
  | .error e => .error e
  | .ok mount => if h : mount.segments ≠ [] then .ok ⟨mount, h⟩ else .error .empty

def text (p : VirtualPath) : String := p.toMount.text

/-- The path as shown in a listing of values. -/
def debugText (p : VirtualPath) : String := "VirtualPath(" ++ Text.quoted p.text ++ ")"

def fileName (p : VirtualPath) : String := p.segments.getLast p.nonempty

/-- Whether the file name ends in `ending`. -/
def hasExtension (p : VirtualPath) (ending : String) : Bool :=
  ending.toList.isSuffixOf p.fileName.toList

/-- The written path behind the leading text `lead`, which must end at a
slash. The empty lead covers the relative paths, and `/` the rooted ones. -/
def stripLeading? (p : VirtualPath) (lead : String) : Option String :=
  if lead = "" then
    if p.rooted then none else some p.text
  else if lead = "/" then Text.dropLeading? "/" p.text
  else
    match Text.dropLeading? lead p.text with
    | none => none
    | some rest => if rest = "" then some rest else Text.dropLeading? "/" rest

/-- Paths are ordered by their written form. -/
def le (p q : VirtualPath) : Bool := decide (p.text ≤ q.text)

end VirtualPath

/-- Drops every element that equals the one before it. -/
def dropRepeats {α : Type} [DecidableEq α] : List α → List α
  | [] => []
  | [a] => [a]
  | a :: b :: rest => if a = b then dropRepeats (b :: rest) else a :: dropRepeats (b :: rest)

/-- The paths in order, each once. -/
def sortedPaths (paths : List VirtualPath) : List VirtualPath :=
  dropRepeats (paths.mergeSort VirtualPath.le)

end ProtoSchema
