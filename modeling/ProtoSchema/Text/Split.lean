/-!
Cutting a text at a separator. The pieces hold no separator, and there is
always one more piece than there are separators. A line of a text ends at a
newline or at the end of the text; a carriage return right before the newline
belongs to the line end, and an empty last line does not count.
-/

namespace ProtoSchema.Text

/-- The pieces of `cs` between occurrences of `sep`. -/
def splitAt (sep : Char) : List Char → List (List Char)
  | [] => [[]]
  | c :: cs =>
    if c = sep then [] :: splitAt sep cs
    else
      match splitAt sep cs with
      | [] => [[c]]
      | piece :: pieces => (c :: piece) :: pieces

theorem splitAt_ne_nil (sep : Char) (cs : List Char) : splitAt sep cs ≠ [] := by
  cases cs with
  | nil => simp [splitAt]
  | cons c cs =>
    rw [splitAt]
    split
    · simp
    · split <;> simp

theorem mem_of_mem_splitAt {sep c : Char} {cs piece : List Char}
    (hpiece : piece ∈ splitAt sep cs) (hc : c ∈ piece) : c ∈ cs ∧ c ≠ sep := by
  induction cs generalizing piece with
  | nil => simp_all [splitAt]
  | cons d ds ih =>
    rw [splitAt] at hpiece
    split at hpiece
    · rcases List.mem_cons.1 hpiece with rfl | h
      · simp at hc
      · exact ⟨List.mem_cons_of_mem _ (ih h hc).1, (ih h hc).2⟩
    · next hd =>
      split at hpiece
      · next h => exact absurd h (splitAt_ne_nil sep ds)
      · next first rest h =>
        rcases List.mem_cons.1 hpiece with rfl | hrest
        · rcases List.mem_cons.1 hc with rfl | hfirst
          · exact ⟨List.mem_cons_self, hd⟩
          · have := ih (h ▸ List.mem_cons_self) hfirst
            exact ⟨List.mem_cons_of_mem _ this.1, this.2⟩
        · have := ih (h ▸ List.mem_cons_of_mem _ hrest) hc
          exact ⟨List.mem_cons_of_mem _ this.1, this.2⟩

/-- The text before the first `sep` and the text after it. -/
def splitOnce (sep : Char) (s : String) : Option (String × String) :=
  match s.toList.dropWhile (· ≠ sep) with
  | [] => none
  | _ :: after => some (String.ofList (s.toList.takeWhile (· ≠ sep)), String.ofList after)

/-- The rest of `s` after the leading text `head`. -/
def dropLeading? (head s : String) : Option String :=
  if head.toList.isPrefixOf s.toList then
    some (String.ofList (s.toList.drop head.toList.length))
  else none

/-- Whether `part` stands somewhere in the characters. -/
def occursIn (part : List Char) : List Char → Bool
  | [] => part.isEmpty
  | c :: cs => part.isPrefixOf (c :: cs) || occursIn part cs

/-- A line that was ended by a newline, without the carriage return before it. -/
def dropReturn (line : List Char) : List Char :=
  if line.getLast? = some '\r' then line.dropLast else line

def endedLines : List (List Char) → List (List Char)
  | [] => []
  | [last] => if last.isEmpty then [] else [last]
  | line :: next :: rest => dropReturn line :: endedLines (next :: rest)

/-- The lines of `s`, first to last. -/
def lines (s : String) : List String :=
  (endedLines (splitAt '\n' s.toList)).map String.ofList

end ProtoSchema.Text
