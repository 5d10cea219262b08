import ProtoSchema.Path.Physical
import ProtoSchema.Path.Virtual
import ProtoSchema.Proofs.Text.Split

/-!
The steps of a physical path that is extended by segments. Whatever the spelling
of the path in front, a segment adds one name behind its steps; so two segment
lists laid behind one path name the same place only when they are equal.
-/

namespace ProtoSchema

namespace PathStep

theorem ofPiece?_of_isSegment {s : String} (hs : IsSegment s) : ofPiece? s = some (.name s) := by
  obtain ⟨hempty, hdot, hparent, _, _⟩ := hs
  simp [ofPiece?, hempty, hdot, hparent]

theorem ofPiece?_eq_name_iff {piece s : String} :
    ofPiece? piece = some (.name s) ↔ piece ≠ "" ∧ piece ≠ "." ∧ piece ≠ ".." ∧ piece = s := by
  unfold ofPiece?
  by_cases hdropped : piece = "" ∨ piece = "."
  · rw [if_pos hdropped]
    exact ⟨nofun, fun ⟨hempty, hdot, _⟩ => (hdropped.elim hempty hdot).elim⟩
  obtain ⟨hempty, hdot⟩ := not_or.mp hdropped
  by_cases hparent : piece = ".."
  · simp [hparent]
  · simp [hempty, hdot, hparent]

theorem name?_eq_some_iff {step : PathStep} {s : String} :
    step.name? = some s ↔ step = .name s := by
  cases step <;> simp [name?]

theorem mapM_name?_eq_some_iff {steps : List PathStep} {names : List String} :
    steps.mapM name? = some names ↔ steps = names.map .name := by
  induction steps generalizing names with
  | nil => cases names <;> simp
  | cons step rest ih =>
    rw [List.mapM_cons]
    simp only [Option.bind_eq_bind, Option.bind_eq_some_iff, Option.pure_def, Option.some.injEq,
      ih, name?_eq_some_iff]
    constructor
    · rintro ⟨s, rfl, others, rfl, rfl⟩
      rfl
    · intro h
      obtain ⟨s, others, rfl, rfl, rfl⟩ := List.map_eq_cons_iff.mp h.symm
      exact ⟨s, rfl, others, rfl, rfl⟩

end PathStep

namespace PhysicalPath

private def stepsOf (rooted : Bool) (pieces : List String) : List PathStep :=
  if rooted then .root :: pieces.filterMap PathStep.ofPiece?
  else
    match pieces with
    | "." :: rest => .here :: rest.filterMap PathStep.ofPiece?
    | pieces => pieces.filterMap PathStep.ofPiece?

private def pieces (cs : List Char) : List String := (Text.splitAt '/' cs).map String.ofList

private theorem steps_eq (p : PhysicalPath) :
    p.steps = stepsOf (p.spelling.toList.head? == some '/') (pieces p.spelling.toList) := rfl

private theorem pieces_ne_nil (cs : List Char) : pieces cs ≠ [] := by
  simpa [pieces] using Text.splitAt_ne_nil '/' cs

private theorem pieces_slash (cs : List Char) {s : String} (hs : '/' ∉ s.toList) :
    pieces (cs ++ '/' :: s.toList) = pieces cs ++ [s] := by
  simp [pieces, Text.splitAt_append_sep, Text.splitAt_of_notMem hs]

private theorem stepsOf_append (rooted : Bool) {ps : List String} (hps : ps ≠ []) (s : String) :
    stepsOf rooted (ps ++ [s]) = stepsOf rooted ps ++ [s].filterMap PathStep.ofPiece? := by
  unfold stepsOf
  cases ps with
  | nil => exact absurd rfl hps
  | cons first rest =>
    split
    · rw [List.filterMap_append, List.cons_append]
    · by_cases hfirst : first = "."
      · subst hfirst
        simp only [List.cons_append, List.filterMap_append]
      · have happend : ((first :: rest) ++ [s]).filterMap PathStep.ofPiece? =
            (first :: rest).filterMap PathStep.ofPiece? ++ [s].filterMap PathStep.ofPiece? :=
          List.filterMap_append
        simpa [hfirst] using happend

private theorem mem_stepsOf {rooted : Bool} {ps : List String} {step : PathStep}
    (h : step ∈ stepsOf rooted ps) :
    step = .root ∨ step = .here ∨ ∃ piece ∈ ps, PathStep.ofPiece? piece = some step := by
  unfold stepsOf at h
  split at h
  · rcases List.mem_cons.mp h with rfl | hmem
    · exact .inl rfl
    · exact .inr (.inr (List.mem_filterMap.mp hmem))
  · split at h
    · rcases List.mem_cons.mp h with rfl | hmem
      · exact .inr (.inl rfl)
      · obtain ⟨piece, hpiece, hstep⟩ := List.mem_filterMap.mp hmem
        exact .inr (.inr ⟨piece, List.mem_cons_of_mem _ hpiece, hstep⟩)
    · exact .inr (.inr (List.mem_filterMap.mp h))

/-- The names in a path stand between its slashes, and are not the pieces that mean a move. -/
theorem of_name_mem_steps {p : PhysicalPath} {s : String} (h : .name s ∈ p.steps) :
    s ≠ "" ∧ s ≠ "." ∧ s ≠ ".." ∧ '/' ∉ s.toList := by
  rw [steps_eq] at h
  rcases mem_stepsOf h with hroot | hhere | ⟨piece, hpiece, hstep⟩
  · cases hroot
  · cases hhere
  · obtain ⟨hempty, hdot, hparent, rfl⟩ := PathStep.ofPiece?_eq_name_iff.mp hstep
    obtain ⟨cs, hcs, rfl⟩ := List.mem_map.mp hpiece
    refine ⟨hempty, hdot, hparent, fun hslash => ?_⟩
    rw [String.toList_ofList] at hslash
    exact (Text.mem_of_mem_splitAt hcs hslash).2 rfl

/-- In front of the names and moves of a path there may be one mark: the top of an absolute path,
or the `.` that a relative one may start with. -/
theorem exists_steps_eq (p : PhysicalPath) : ∃ marks rest, p.steps = marks ++ rest ∧
    (marks = [] ∧ p.spelling.toList.head? ≠ some '/' ∨
      marks = [.root] ∧ p.spelling.toList.head? = some '/' ∨
      marks = [.here] ∧ p.spelling.toList.head? ≠ some '/') ∧
    ∀ step ∈ rest, step = .parent ∨ ∃ s, step = .name s := by
  have hpieces (ps : List String) (step : PathStep)
      (hstep : step ∈ ps.filterMap PathStep.ofPiece?) : step = .parent ∨ ∃ s, step = .name s := by
    obtain ⟨piece, -, hpiece⟩ := List.mem_filterMap.mp hstep
    unfold PathStep.ofPiece? at hpiece
    split at hpiece
    · cases hpiece
    split at hpiece
    · exact .inl (Option.some.inj hpiece).symm
    · exact .inr ⟨piece, (Option.some.inj hpiece).symm⟩
  rw [steps_eq]
  unfold stepsOf
  split
  · next hrooted =>
    exact ⟨[.root], _, rfl, .inr (.inl ⟨rfl, by simpa using hrooted⟩), hpieces _⟩
  · next hrooted =>
    split
    · exact ⟨[.here], _, rfl, .inr (.inr ⟨rfl, by simpa using hrooted⟩), hpieces _⟩
    · exact ⟨[], _, rfl, .inl ⟨rfl, by simpa using hrooted⟩, hpieces _⟩

/-- A segment adds its name to the steps. -/
theorem steps_push (p : PhysicalPath) {s : String} (hs : IsSegment s) :
    (p.push s).steps = p.steps ++ [PathStep.name s] := by
  have hslash : '/' ∉ s.toList := hs.2.2.2.1
  have hstep : [s].filterMap PathStep.ofPiece? = [.name s] := by
    simp [PathStep.ofPiece?_of_isSegment hs]
  by_cases hempty : p.spelling = ""
  · have hhead : (s.toList.head? == some '/') = false := by
      cases hcs : s.toList with
      | nil => rfl
      | cons c cs =>
        have hc : c ≠ '/' := by
          intro h
          exact hslash (by simp [hcs, h])
        simpa using hc
    have hpieces : pieces s.toList = [s] := by
      simp [pieces, Text.splitAt_of_notMem hslash]
    have hdot : s ≠ "." := hs.2.1
    have hpush : (p.push s).spelling = s := by simp [push, hempty]
    have hp : p.steps = [] := by simp [steps_eq, hempty, stepsOf, pieces, Text.splitAt,
      PathStep.ofPiece?]
    rw [hp, steps_eq, hpush, hhead, hpieces]
    simp [stepsOf, hdot, PathStep.ofPiece?_of_isSegment hs]
  · by_cases hlast : p.spelling.toList.getLast? = some '/'
    · obtain ⟨cs, hcs⟩ := List.getLast?_eq_some_iff.mp hlast
      have hpush : (p.push s).spelling.toList = cs ++ '/' :: s.toList := by
        simp [push, hcs]
      have hhead : (cs ++ '/' :: s.toList).head? = (cs ++ ['/']).head? := by
        cases cs with
        | nil => rfl
        | cons c cs => rfl
      have hold : pieces (cs ++ ['/']) = pieces cs ++ [""] := by
        simp [pieces, Text.splitAt_append_sep, Text.splitAt]
      rw [steps_eq, steps_eq, hpush, hcs, hhead, pieces_slash cs hslash, hold,
        stepsOf_append _ (pieces_ne_nil cs), stepsOf_append _ (pieces_ne_nil cs), hstep]
      simp [PathStep.ofPiece?]
    · have hpush : (p.push s).spelling.toList = p.spelling.toList ++ '/' :: s.toList := by
        simp [push, hempty, hlast]
      have hhead : (p.spelling.toList ++ '/' :: s.toList).head? = p.spelling.toList.head? := by
        apply List.head?_append_of_ne_nil
        simpa using hempty
      rw [steps_eq, steps_eq, hpush, hhead, pieces_slash _ hslash,
        stepsOf_append _ (pieces_ne_nil _), hstep]

theorem steps_extend (p : PhysicalPath) {segments : List String}
    (hsegments : ∀ s ∈ segments, IsSegment s) :
    (p.extend segments).steps = p.steps ++ segments.map .name := by
  induction segments generalizing p with
  | nil => simp [extend]
  | cons s rest ih =>
    have hrest := ih (p.push s) (fun r hr => hsegments r (List.mem_cons_of_mem _ hr))
    have hfirst := p.steps_push (hsegments s List.mem_cons_self)
    simpa [extend, hfirst] using hrest

/-- Different segments lead from one path to different places. -/
theorem extend_injective (p : PhysicalPath) {xs ys : List String}
    (hxs : ∀ s ∈ xs, IsSegment s) (hys : ∀ s ∈ ys, IsSegment s)
    (hsame : (p.extend xs).Same (p.extend ys)) : xs = ys := by
  rw [Same, steps_extend p hxs, steps_extend p hys, List.append_cancel_left_eq] at hsame
  exact List.map_injective_iff.mpr (fun _ _ h => PathStep.name.inj h) hsame

/-- The names below a directory are what its steps go on with. -/
theorem namesBelow?_eq_some_iff {root p : PhysicalPath} {names : List String} :
    root.namesBelow? p = some names ↔ p.steps = root.steps ++ names.map .name := by
  unfold namesBelow? stepsBelow?
  constructor
  · intro h
    obtain ⟨steps, hsteps, hnames⟩ := Option.bind_eq_some_iff.mp h
    split at hsteps
    · next hprefix =>
      obtain ⟨more, hmore⟩ := hprefix
      rw [← hmore, List.drop_left, Option.some.injEq] at hsteps
      rw [← hmore, hsteps, PathStep.mapM_name?_eq_some_iff.mp hnames]
    · cases hsteps
  · intro h
    rw [h, if_pos (List.prefix_append _ _), List.drop_left, Option.bind_some]
    exact PathStep.mapM_name?_eq_some_iff.mpr rfl

end PhysicalPath

end ProtoSchema
