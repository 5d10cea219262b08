import ProtoSchema.Text.Split

/-!
Physical paths, as they are handed to the store that keeps the files. A path
stays as it was spelled; two paths name the same place when they have the same
steps, so repeated slashes and inner `.` pieces do not count. Order goes by
steps too.
-/

namespace ProtoSchema

/-- One step of a physical path. -/
inductive PathStep where
  | root
  | here
  | parent
  | name (s : String)
deriving DecidableEq

structure PhysicalPath where
  spelling : String
deriving DecidableEq

namespace PathStep

/-- The step that a piece inside a path stands for, if it stands for one. -/
def ofPiece? (piece : String) : Option PathStep :=
  if piece = "" ∨ piece = "." then none
  else if piece = ".." then some .parent
  else some (.name piece)

def name? : PathStep → Option String
  | .name s => some s
  | _ => none

def rank : PathStep → Nat
  | .root => 0
  | .here => 1
  | .parent => 2
  | .name _ => 3

/-- Names come last, in the order of their text. -/
def lt : PathStep → PathStep → Bool
  | .name s, .name t => decide (s < t)
  | a, b => decide (a.rank < b.rank)

/-- Lists of steps in dictionary order. -/
def listLe : List PathStep → List PathStep → Bool
  | [], _ => true
  | _ :: _, [] => false
  | a :: as, b :: bs => a.lt b || (a == b && listLe as bs)

end PathStep

namespace PhysicalPath

/-- The steps of a path. A `.` counts only at the start of a relative path. -/
def steps (p : PhysicalPath) : List PathStep :=
  let pieces := (Text.splitAt '/' p.spelling.toList).map String.ofList
  if p.spelling.toList.head? == some '/' then
    .root :: pieces.filterMap PathStep.ofPiece?
  else
    match pieces with
    | "." :: rest => .here :: rest.filterMap PathStep.ofPiece?
    | pieces => pieces.filterMap PathStep.ofPiece?

/-- The two spellings name one place. -/
def Same (p q : PhysicalPath) : Prop := p.steps = q.steps

instance (p q : PhysicalPath) : Decidable (Same p q) :=
  inferInstanceAs (Decidable (_ = _))

def le (p q : PhysicalPath) : Bool := PathStep.listLe p.steps q.steps

/-- The path of `segment` inside the directory `p`. -/
def push (p : PhysicalPath) (segment : String) : PhysicalPath :=
  if p.spelling = "" ∨ p.spelling.toList.getLast? = some '/' then ⟨p.spelling ++ segment⟩
  else ⟨p.spelling ++ "/" ++ segment⟩

def extend (p : PhysicalPath) (segments : List String) : PhysicalPath :=
  segments.foldl push p

/-- The steps that lead from the directory `root` to `p`. -/
def stepsBelow? (root p : PhysicalPath) : Option (List PathStep) :=
  if root.steps <+: p.steps then some (p.steps.drop root.steps.length) else none

/-- The names that lead from the directory `root` down to `p`. -/
def namesBelow? (root p : PhysicalPath) : Option (List String) :=
  (root.stepsBelow? p).bind fun steps => steps.mapM PathStep.name?

end PhysicalPath

end ProtoSchema
