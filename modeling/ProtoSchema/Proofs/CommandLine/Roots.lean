import ProtoSchema.CommandLine.Run
import ProtoSchema.Proofs.Overlay.Origins

/-!
Arguments that name files. A path without `..` is a mark and names behind it: the mark of the top,
the `.` that a relative path may start with, or none. The names that lead to its place on disk are
told from it and from the working directory. Roots are compared with an argument step by step, as
both are spelled, and once more with the argument made absolute. So a root that holds the file is
found just when it is absolute or has the same mark as the argument.
-/

namespace ProtoSchema

namespace PhysicalPath

variable {p : PhysicalPath}

def lead (p : PhysicalPath) : List PathStep :=
  p.steps.filter fun step => step = .root ∨ step = .here

def names (p : PhysicalPath) : List String := p.steps.filterMap PathStep.name?

def Downward (p : PhysicalPath) : Prop := .parent ∉ p.steps

theorem lead_spec (p : PhysicalPath) :
    (p.lead = [] ∧ p.spelling.toList.head? ≠ some '/' ∨
      p.lead = [.root] ∧ p.spelling.toList.head? = some '/' ∨
      p.lead = [.here] ∧ p.spelling.toList.head? ≠ some '/') ∧
    ∃ rest, p.steps = p.lead ++ rest ∧ ∀ step ∈ rest, step = .parent ∨ ∃ s, step = .name s := by
  obtain ⟨marks, rest, hsteps, hmarks, hrest⟩ := p.exists_steps_eq
  have hnone : rest.filter (fun step => step = .root ∨ step = .here) = [] := by
    refine List.filter_eq_nil_iff.mpr fun step hstep => ?_
    rcases hrest step hstep with rfl | ⟨s, rfl⟩
    · decide
    · simp
  have hlead : p.lead = marks := by
    rw [lead, hsteps, List.filter_append, hnone, List.append_nil]
    rcases hmarks with ⟨rfl, -⟩ | ⟨rfl, -⟩ | ⟨rfl, -⟩ <;> rfl
  rw [hlead]
  exact ⟨hmarks, rest, hsteps, hrest⟩

theorem lead_eq_root_iff : p.lead = [.root] ↔ p.spelling.toList.head? = some '/' := by
  rcases p.lead_spec.1 with ⟨hlead, hhead⟩ | ⟨hlead, hhead⟩ | ⟨hlead, hhead⟩
  · rw [hlead]
    exact iff_of_false (by decide) hhead
  · exact iff_of_true hlead hhead
  · rw [hlead]
    exact iff_of_false (by decide) hhead

theorem map_name_filterMap_name? {steps : List PathStep} (h : ∀ step ∈ steps, ∃ s, step = .name s) :
    (steps.filterMap PathStep.name?).map .name = steps := by
  induction steps with
  | nil => rfl
  | cons step rest ih =>
    obtain ⟨⟨s, rfl⟩, hrest⟩ := List.forall_mem_cons.mp h
    have hs : PathStep.name? (.name s) = some s := rfl
    rw [List.filterMap_cons_some hs, List.map_cons, ih hrest]

theorem filterMap_name?_map_name (names : List String) :
    (names.map PathStep.name).filterMap PathStep.name? = names := by
  rw [List.filterMap_map]
  exact List.filterMap_some

theorem Downward.steps_eq (h : p.Downward) : p.steps = p.lead ++ p.names.map .name := by
  obtain ⟨hlead, rest, hsteps, hrest⟩ := p.lead_spec
  have hmarks : p.lead.filterMap PathStep.name? = [] := by
    rcases hlead with ⟨hlead, -⟩ | ⟨hlead, -⟩ | ⟨hlead, -⟩ <;> rw [hlead] <;> rfl
  have hdown : ∀ step ∈ rest, ∃ s, step = .name s := by
    intro step hstep
    refine (hrest step hstep).resolve_left ?_
    rintro rfl
    exact h (hsteps ▸ List.mem_append_right _ hstep)
  have hnames : p.names = rest.filterMap PathStep.name? := by
    rw [names, hsteps, List.filterMap_append, hmarks, List.nil_append]
  rw [hnames, map_name_filterMap_name? hdown]
  exact hsteps

/-- The names in a path are proper ones. -/
theorem isProper_of_mem_names {s : String} (h : s ∈ p.names) :
    Mount.IsProper s ∧ '/' ∉ s.toList := by
  obtain ⟨step, hstep, hname⟩ := List.mem_filterMap.mp h
  rw [PathStep.name?_eq_some_iff.mp hname] at hstep
  obtain ⟨hempty, hdot, hparent, hslash⟩ := of_name_mem_steps hstep
  exact ⟨⟨hempty, hdot, hparent⟩, hslash⟩

/-- A path that is put together from the top and names has these as its steps, with a slash at its
end or without. -/
theorem steps_rooted {all : List String} (hall : ∀ s ∈ all, Mount.IsProper s ∧ '/' ∉ s.toList)
    {closing : String} (hclosing : closing = "" ∨ closing = "/" ∧ all ≠ []) :
    (PhysicalPath.mk ("/" ++ "/".intercalate all ++ closing)).steps =
      .root :: all.map .name := by
  have hpieces : all.filterMap PathStep.ofPiece? = all.map .name := by
    rw [← List.filterMap_eq_map]
    refine List.filterMap_congr fun s hs => ?_
    obtain ⟨⟨hempty, hdot, hparent⟩, -⟩ := hall s hs
    exact PathStep.ofPiece?_eq_name_iff.mpr ⟨hempty, hdot, hparent, rfl⟩
  have hchars : ("/" ++ "/".intercalate all ++ closing).toList =
      '/' :: (['/'].intercalate (all.map String.toList) ++ closing.toList) := by
    simp [String.toList_intercalate]
  have hsplit : ((Text.splitAt '/'
      (['/'].intercalate (all.map String.toList) ++ closing.toList)).map
        String.ofList).filterMap PathStep.ofPiece? = all.map .name := by
    have hjoined (hne : all ≠ []) :
        Text.splitAt '/' (['/'].intercalate (all.map String.toList)) = all.map String.toList := by
      refine Text.splitAt_intercalate '/' (by simpa using hne) fun piece hpiece => ?_
      obtain ⟨s, hs, rfl⟩ := List.mem_map.mp hpiece
      exact (hall s hs).2
    have hback : (all.map String.toList).map String.ofList = all := by
      simp [Function.comp_def]
    rcases hclosing with rfl | ⟨rfl, hne⟩
    · by_cases hne : all = []
      · subst hne
        decide
      · rw [show "".toList = [] from rfl, List.append_nil, hjoined hne, hback, hpieces]
    · rw [show "/".toList = ['/'] from rfl, Text.splitAt_append_sep, hjoined hne, List.map_append,
        hback, List.filterMap_append, hpieces]
      simp [Text.splitAt, PathStep.ofPiece?]
  unfold steps
  simp only [hchars, List.head?_cons, beq_self_eq_true, if_true]
  rw [Text.splitAt, if_pos rfl, List.map_cons, List.filterMap_cons_none (by rfl), hsplit]

end PhysicalPath

namespace Disk

open PhysicalPath (Downward)

variable {disk : Disk} {path : PhysicalPath}

def Named (disk : Disk) : Prop :=
  ∀ s ∈ disk.workingDirectory, Mount.IsProper s ∧ '/' ∉ s.toList

def follow (names : List String) : PathStep → List String
  | .root => []
  | .here => names
  | .parent => names.dropLast
  | .name s => names ++ [s]

theorem namesOf_eq_foldl (disk : Disk) (path : PhysicalPath) :
    disk.namesOf path = path.steps.foldl follow disk.workingDirectory := by
  rw [namesOf]
  rfl

theorem foldl_follow_names (names start : List String) :
    (names.map PathStep.name).foldl follow start = start ++ names := by
  induction names generalizing start with
  | nil => simp
  | cons s rest ih => rw [List.map_cons, List.foldl_cons, ih, follow, List.append_assoc]; rfl

def origin (disk : Disk) (path : PhysicalPath) : List String :=
  if path.lead = [.root] then [] else disk.workingDirectory

theorem namesOf_eq (h : path.Downward) :
    disk.namesOf path = disk.origin path ++ path.names := by
  have hlead : path.lead.foldl follow disk.workingDirectory = disk.origin path := by
    rw [origin]
    rcases path.lead_spec.1 with ⟨hlead, -⟩ | ⟨hlead, -⟩ | ⟨hlead, -⟩ <;> rw [hlead] <;> rfl
  rw [namesOf_eq_foldl, h.steps_eq, List.foldl_append, hlead, foldl_follow_names]

/-- Made absolute, a path is the top with the names behind it that lead to its place. -/
theorem steps_absolute (hdisk : disk.Named) (hsome : path.spelling ≠ "") (h : path.Downward) :
    (disk.absolute path).steps = .root :: (disk.namesOf path).map .name := by
  have hproper : ∀ s ∈ disk.namesOf path, Mount.IsProper s ∧ '/' ∉ s.toList := by
    intro s hs
    rw [namesOf_eq h, List.mem_append, origin] at hs
    rcases hs with hs | hs
    · split at hs
      · cases hs
      · exact hdisk s hs
    · exact PhysicalPath.isProper_of_mem_names hs
  rw [absolute, if_neg hsome]
  extract_lets pieces all closing
  have hpieces : pieces = path.names := by
    refine List.filterMap_congr fun step hstep => ?_
    cases step with
    | parent => exact absurd hstep h
    | _ => rfl
  have hall : all = disk.namesOf path := by
    rw [namesOf_eq h, origin, ← hpieces]
    by_cases hrooted : path.spelling.toList.head? = some '/'
    · rw [if_pos (PhysicalPath.lead_eq_root_iff.mpr hrooted)]
      exact if_pos (by simpa using hrooted)
    · rw [if_neg (mt PhysicalPath.lead_eq_root_iff.mp hrooted)]
      exact if_neg (by simpa using hrooted)
  rw [← hall] at hproper ⊢
  refine PhysicalPath.steps_rooted hproper ?_
  by_cases hclosing : path.spelling.toList.getLast? = some '/' ∧ all ≠ []
  · exact .inr ⟨if_pos hclosing, hclosing.2⟩
  · exact .inl (if_neg hclosing)

theorem downward_absolute (hdisk : disk.Named) (hsome : path.spelling ≠ "")
    (h : path.Downward) : (disk.absolute path).Downward := by
  rw [Downward, steps_absolute hdisk hsome h]
  simp

theorem lead_absolute (hdisk : disk.Named) (hsome : path.spelling ≠ "") (h : path.Downward) :
    (disk.absolute path).lead = [.root] := by
  rw [PhysicalPath.lead, steps_absolute hdisk hsome h]
  simp [List.filter_eq_nil_iff]

theorem namesOf_absolute (hdisk : disk.Named) (hsome : path.spelling ≠ "") (h : path.Downward) :
    disk.namesOf (disk.absolute path) = disk.namesOf path := by
  rw [namesOf_eq_foldl, steps_absolute hdisk hsome h, List.foldl_cons, foldl_follow_names]
  rfl

theorem namesOf_congr {other : PhysicalPath} (h : path.Same other) :
    disk.namesOf path = disk.namesOf other := by
  rw [namesOf_eq_foldl, namesOf_eq_foldl, h]

section Files

variable {names : List String} {current place : DiskPlace} {piece : String} {pieces : List String}
  {bytes : List UInt8}

def Leads (disk : Disk) (names : List String) : DiskPlace → Prop
  | .directory found => found = names
  | .file bytes => disk.place? names = some (.file bytes)

theorem leads_of_place? (h : disk.place? names = some place) : disk.Leads names place := by
  cases place with
  | file bytes => exact h
  | directory found =>
    unfold place? at h
    split at h
    · cases h
    · split at h
      · cases h
        rfl
      · cases h

theorem leads_of_enter (hcurrent : disk.Leads names current)
    (h : disk.enter current piece = .ok place) :
    disk.Leads ((PathStep.ofPiece? piece).elim names (follow names)) place := by
  cases current with
  | file bytes => cases h
  | directory found =>
    cases hcurrent
    rw [enter] at h
    by_cases hdropped : piece = "" ∨ piece = "."
    · rw [if_pos hdropped] at h
      cases h
      rw [PathStep.ofPiece?, if_pos hdropped]
      rfl
    rw [if_neg hdropped] at h
    by_cases hparent : piece = ".."
    · rw [if_pos hparent] at h
      cases h
      rw [PathStep.ofPiece?, if_neg hdropped, if_pos hparent]
      rfl
    rw [if_neg hparent] at h
    rw [PathStep.ofPiece?, if_neg hdropped, if_neg hparent]
    split at h
    · cases h
    split at h
    · next hplace =>
      cases h
      exact leads_of_place? hplace
    · cases h

/-- Piece by piece the path leads where its steps do. -/
theorem leads_of_foldlM (hcurrent : disk.Leads names current)
    (h : pieces.foldlM disk.enter current = .ok place) :
    disk.Leads ((pieces.filterMap PathStep.ofPiece?).foldl follow names) place := by
  induction pieces generalizing names current with
  | nil =>
    cases h
    exact hcurrent
  | cons piece rest ih =>
    rw [List.foldlM_cons] at h
    cases hnext : disk.enter current piece with
    | error trouble =>
      rw [hnext] at h
      cases h
    | ok next =>
      rw [hnext] at h
      have hleads := ih (leads_of_enter hcurrent hnext) h
      cases hpiece : PathStep.ofPiece? piece with
      | none =>
        rw [hpiece] at hleads
        rwa [List.filterMap_cons_none hpiece]
      | some step =>
        rw [hpiece] at hleads
        rwa [List.filterMap_cons_some hpiece]

/-- What is found behind a path stands at its names. -/
theorem leads_of_locate (h : disk.locate path = .ok place) :
    disk.Leads (disk.namesOf path) place := by
  rw [locate] at h
  split at h
  · cases h
  split at h
  · cases h
  split at h
  · cases h
  extract_lets start at h
  have hstart : disk.Leads start (.directory start) := rfl
  have hleads := leads_of_foldlM hstart h
  rw [namesOf_eq_foldl, PhysicalPath.steps]
  by_cases hrooted : (path.spelling.toList.head? == some '/') = true
  · rw [show start = [] from if_pos hrooted] at hleads
    rw [if_pos hrooted]
    exact hleads
  · rw [show start = disk.workingDirectory from if_neg hrooted] at hleads
    rw [if_neg hrooted]
    -- A `.` in front stays where it is, as a mark and as a piece.
    split
    · next rest hpieces =>
      rw [hpieces] at hleads
      exact hleads
    · exact hleads

/-- Two paths by the same names that are read are read alike. -/
theorem read_congr {other : PhysicalPath} {others : List UInt8}
    (hnames : disk.namesOf other = disk.namesOf path) (h : disk.read path = .ok bytes)
    (hother : disk.read other = .ok others) : others = bytes := by
  have hplace {p : PhysicalPath} {found : List UInt8} (hread : disk.read p = .ok found) :
      disk.place? (disk.namesOf p) = some (.file found) := by
    rw [read] at hread
    split at hread
    · next hlocate =>
      cases hread
      exact leads_of_locate hlocate
    · cases hread
    · cases hread
  have hsame := (hplace hother).symm.trans (hnames ▸ hplace h)
  cases hsame
  rfl

end Files

end Disk

namespace Mapping

open PhysicalPath (Downward)

variable {mapping : Mapping} {disk : Disk} {file : PhysicalPath} {path : VirtualPath}

/-- The file lies below the root on disk, however the two are spelled, and has the path there. -/
def Holds (mapping : Mapping) (disk : Disk) (file : PhysicalPath) (path : VirtualPath) : Prop :=
  ∃ names, disk.namesOf file = disk.namesOf mapping.root ++ names ∧
    mapping.mount.Covers path.toMount names

/-- A mapping that holds a file spells it just when the root and the file have the same mark. -/
theorem spells_iff_holds (disk : Disk) (hfile : file.Downward) (hroot : mapping.root.Downward) :
    mapping.Spells file path ↔ mapping.Holds disk file path ∧ mapping.root.lead = file.lead := by
  rw [spells_iff_covers]
  constructor
  · rintro ⟨names, hsteps, hcovers⟩
    have hplain : (names.map PathStep.name).filter (fun step => step = .root ∨ step = .here) =
        [] := by
      simp [List.filter_eq_nil_iff]
    have hlead : mapping.root.lead = file.lead := by
      rw [PhysicalPath.lead, PhysicalPath.lead, hsteps, List.filter_append, hplain,
        List.append_nil]
    have hnames : file.names = mapping.root.names ++ names := by
      rw [PhysicalPath.names, PhysicalPath.names, hsteps, List.filterMap_append,
        PhysicalPath.filterMap_name?_map_name]
    refine ⟨⟨names, ?_, hcovers⟩, hlead⟩
    rw [Disk.namesOf_eq hfile, Disk.namesOf_eq hroot, Disk.origin, Disk.origin, hlead, hnames,
      List.append_assoc]
  · rintro ⟨⟨names, hnames, hcovers⟩, hlead⟩
    rw [Disk.namesOf_eq hfile, Disk.namesOf_eq hroot, Disk.origin, Disk.origin, hlead,
      List.append_assoc, List.append_cancel_left_eq] at hnames
    exact ⟨names, by rw [hfile.steps_eq, hroot.steps_eq, hnames, hlead, List.map_append,
      List.append_assoc], hcovers⟩

/-- Made absolute, the file is spelled by the absolute roots that hold it. -/
theorem spells_absolute_iff (hdisk : disk.Named) (hsome : file.spelling ≠ "")
    (hfile : file.Downward) (hroot : mapping.root.Downward) :
    mapping.Spells (disk.absolute file) path ↔
      mapping.Holds disk file path ∧ mapping.root.lead = [.root] := by
  have hdown : (disk.absolute file).Downward := Disk.downward_absolute hdisk hsome hfile
  rw [spells_iff_holds disk hdown hroot, Disk.lead_absolute hdisk hsome hfile, Holds,
    Disk.namesOf_absolute hdisk hsome hfile]
  rfl

end Mapping

namespace CommandLine

open PhysicalPath (Downward)

variable {disk : Disk} {overlay : Overlay} {argument : String}

/-- What is made of an argument is told by the way back from one of the two spellings of it. -/
theorem rootOnDisk?_cases (hfile : disk.isFile ⟨argument⟩ = true) :
    (∃ file path, (file = ⟨argument⟩ ∨ file = disk.absolute ⟨argument⟩) ∧
      rootOnDisk? disk overlay argument = .ok (some path) ∧ overlay.Serves path file) ∨
    (∃ file path servedBy, (file = ⟨argument⟩ ∨ file = disk.absolute ⟨argument⟩) ∧
      rootOnDisk? disk overlay argument = .error (.shadowed argument path servedBy) ∧
      (∃ mapping ∈ overlay.mappings, mapping.Spells file path) ∧
      overlay.locate path = some servedBy ∧ ¬servedBy.Same file) ∨
    rootOnDisk? disk overlay argument = .ok none ∧
      ∀ mapping ∈ overlay.mappings, ∀ path, ¬mapping.Spells ⟨argument⟩ path ∧
        ¬mapping.Spells (disk.absolute ⟨argument⟩) path := by
  have hgiven := overlay.originOf_accounts ⟨argument⟩
  have habsolute := overlay.originOf_accounts (disk.absolute ⟨argument⟩)
  rw [rootOnDisk?, if_pos hfile]
  cases horigin : overlay.originOf ⟨argument⟩ with
  | reachable path =>
    rw [horigin] at hgiven
    exact .inl ⟨_, path, .inl rfl, rfl, hgiven⟩
  | shadowed path servedBy =>
    rw [horigin] at hgiven
    exact .inr (.inl ⟨_, path, servedBy, .inl rfl, rfl, hgiven.1, hgiven.2.1, hgiven.2.2.1⟩)
  | outside =>
    rw [horigin] at hgiven
    cases habs : overlay.originOf (disk.absolute ⟨argument⟩) with
    | reachable path =>
      rw [habs] at habsolute
      exact .inl ⟨_, path, .inr rfl, rfl, habsolute⟩
    | shadowed path servedBy =>
      rw [habs] at habsolute
      exact .inr (.inl
        ⟨_, path, servedBy, .inr rfl, rfl, habsolute.1, habsolute.2.1, habsolute.2.2.1⟩)
    | outside =>
      rw [habs] at habsolute
      exact .inr (.inr ⟨rfl, fun mapping hmem path =>
        ⟨hgiven mapping hmem path, habsolute mapping hmem path⟩⟩)

/-- An argument that names a file, without `..` in it or in a root. Where a root holds the file on
disk and is absolute or starts like the argument, the answer is a path that is served by the same
file, or that the file is shadowed. Only where no root that holds the file is spelled so is the
argument read as a virtual path. -/
theorem root_arguments_go_by_spelling (hdisk : disk.Named)
    (hfile : disk.isFile ⟨argument⟩ = true) (hdown : Downward ⟨argument⟩)
    (hroots : ∀ mapping ∈ overlay.mappings, mapping.root.Downward) :
    ((∃ mapping ∈ overlay.mappings, (∃ path, mapping.Holds disk ⟨argument⟩ path) ∧
        (mapping.root.lead = [.root] ∨ mapping.root.lead = PhysicalPath.lead ⟨argument⟩)) →
      (∃ path place, rootOf disk overlay argument = .ok path ∧
        overlay.locate path = some place ∧ disk.namesOf place = disk.namesOf ⟨argument⟩ ∧
        ∀ bytes others, disk.read ⟨argument⟩ = .ok bytes → disk.read place = .ok others →
          others = bytes) ∨
      ∃ path servedBy, rootOf disk overlay argument = .error (.shadowed argument path servedBy) ∧
        (∃ mapping ∈ overlay.mappings, mapping.Holds disk ⟨argument⟩ path) ∧
        overlay.locate path = some servedBy) ∧
    ((∀ mapping ∈ overlay.mappings, ∀ path, mapping.Holds disk ⟨argument⟩ path →
        mapping.root.lead ≠ [.root] ∧ mapping.root.lead ≠ PhysicalPath.lead ⟨argument⟩) →
      rootOf disk overlay argument =
        (VirtualPath.read argument).mapError (.badRoot argument)) := by
  have hsome : argument ≠ "" := by
    rintro rfl
    exact absurd hfile (by simp [Disk.isFile, Disk.locate, Disk.pathLimit])
  have hplace (file : PhysicalPath)
      (hspelled : file = ⟨argument⟩ ∨ file = disk.absolute ⟨argument⟩) :
      disk.namesOf file = disk.namesOf ⟨argument⟩ := by
    rcases hspelled with rfl | rfl
    · rfl
    · exact Disk.namesOf_absolute hdisk hsome hdown
  have hholds (mapping : Mapping) (hmem : mapping ∈ overlay.mappings) (file : PhysicalPath)
      (path : VirtualPath) (hspelled : file = ⟨argument⟩ ∨ file = disk.absolute ⟨argument⟩)
      (hspells : mapping.Spells file path) : mapping.Holds disk ⟨argument⟩ path ∧
        (mapping.root.lead = [.root] ∨ mapping.root.lead = PhysicalPath.lead ⟨argument⟩) := by
    rcases hspelled with rfl | rfl
    · exact ((Mapping.spells_iff_holds disk hdown (hroots mapping hmem)).mp hspells).imp_right .inr
    · exact ((Mapping.spells_absolute_iff hdisk hsome hdown (hroots mapping hmem)).mp
        hspells).imp_right .inl
  have hcases := @rootOnDisk?_cases disk overlay argument hfile
  constructor
  · rintro ⟨mapping, hmem, ⟨path, hpath⟩, hlead⟩
    rcases hcases with ⟨file, found, hspelled, hroot, place, hlocate, hsame⟩ |
      ⟨file, found, servedBy, hspelled, hroot, ⟨other, hother, hspells⟩, hlocate, -⟩ |
      ⟨-, hnever⟩
    · refine .inl ⟨found, place, by rw [rootOf, hroot]; rfl, hlocate, ?_, ?_⟩
      · rw [Disk.namesOf_congr hsame, hplace file hspelled]
      · intro bytes others hbytes hothers
        exact Disk.read_congr ((Disk.namesOf_congr hsame).trans (hplace file hspelled))
          hbytes hothers
    · exact .inr ⟨found, servedBy, by rw [rootOf, hroot]; rfl,
        ⟨other, hother, (hholds other hother file found hspelled hspells).1⟩, hlocate⟩
    · obtain ⟨hgiven, habsolute⟩ := hnever mapping hmem path
      rcases hlead with hlead | hlead
      · exact absurd ((Mapping.spells_absolute_iff hdisk hsome hdown (hroots mapping hmem)).mpr
          ⟨hpath, hlead⟩) habsolute
      · exact absurd ((Mapping.spells_iff_holds disk hdown (hroots mapping hmem)).mpr
          ⟨hpath, hlead⟩) hgiven
  · intro hnone
    have hnever (mapping : Mapping) (hmem : mapping ∈ overlay.mappings) (file : PhysicalPath)
        (path : VirtualPath) (hspelled : file = ⟨argument⟩ ∨ file = disk.absolute ⟨argument⟩) :
        ¬mapping.Spells file path := by
      intro hspells
      obtain ⟨hpath, hlead⟩ := hholds mapping hmem file path hspelled hspells
      obtain ⟨hroot, hmark⟩ := hnone mapping hmem path hpath
      exact hlead.elim hroot hmark
    rcases hcases with ⟨file, found, hspelled, -, hserves⟩ |
      ⟨file, found, servedBy, hspelled, -, ⟨other, hother, hspells⟩, -, -⟩ | ⟨hroot, -⟩
    · obtain ⟨mapping, hmem, hspells⟩ := hserves.exists_spells
      exact absurd hspells (hnever mapping hmem file found hspelled)
    · exact absurd hspells (hnever other hother file found hspelled)
    · rw [rootOf, hroot]
      rfl

def nestedDisk : Disk where
  files := [(["w", "proto", "a.proto"], []), (["w", "proto", "proto", "a.proto"], [])]
  directories := []
  workingDirectory := ["w"]

def topMount : Mount := ⟨false, [], List.forall_mem_nil _⟩

/-- An absolute root is found for an argument that starts with a `.`. -/
theorem root_arguments_go_by_spelling_absolute :
    let overlay : Overlay := ⟨[⟨topMount, ⟨"/w/proto"⟩⟩]⟩
    let argument := "./proto/a.proto"
    (nestedDisk.Named ∧ nestedDisk.isFile ⟨argument⟩ = true ∧ Downward ⟨argument⟩ ∧
      (∀ mapping ∈ overlay.mappings, mapping.root.Downward) ∧
      ∃ mapping ∈ overlay.mappings, (∃ path, mapping.Holds nestedDisk ⟨argument⟩ path) ∧
        mapping.root.lead = [.root]) ∧
    ((∃ path place, rootOf nestedDisk overlay argument = .ok path ∧
        overlay.locate path = some place ∧
        nestedDisk.namesOf place = nestedDisk.namesOf ⟨argument⟩ ∧
        ∀ bytes others, nestedDisk.read ⟨argument⟩ = .ok bytes →
          nestedDisk.read place = .ok others → others = bytes) ∨
      ∃ path servedBy,
        rootOf nestedDisk overlay argument = .error (.shadowed argument path servedBy) ∧
        (∃ mapping ∈ overlay.mappings, mapping.Holds nestedDisk ⟨argument⟩ path) ∧
        overlay.locate path = some servedBy) := by
  intro overlay argument
  have hdisk : nestedDisk.Named := by
    refine List.forall_mem_singleton.mpr ⟨?_, by decide⟩
    exact ⟨by decide, by decide, by decide⟩
  have hfile : nestedDisk.isFile ⟨argument⟩ = true := by decide +kernel
  have hdown : Downward ⟨argument⟩ := by
    unfold Downward
    decide +kernel
  have hroots : ∀ mapping ∈ overlay.mappings, mapping.root.Downward := by
    refine List.forall_mem_singleton.mpr ?_
    unfold Downward
    decide +kernel
  have hholds : ∃ mapping ∈ overlay.mappings,
      (∃ path, mapping.Holds nestedDisk ⟨argument⟩ path) ∧ mapping.root.lead = [.root] := by
    refine ⟨_, List.mem_singleton_self _, ⟨⟨⟨false, ["a.proto"], by decide⟩, by decide⟩,
      ["a.proto"], by decide +kernel, rfl, rfl⟩, by decide +kernel⟩
  obtain ⟨mapping, hmem, hpath, hlead⟩ := hholds
  exact ⟨⟨hdisk, hfile, hdown, hroots, mapping, hmem, hpath, hlead⟩,
    (root_arguments_go_by_spelling hdisk hfile hdown hroots).1
      ⟨mapping, hmem, hpath, .inl hlead⟩⟩

/-- A relative root is not found for an argument that starts with a `.`: the argument is read as
the virtual path of the other file. -/
theorem dotted_argument_names_another_file :
    let overlay : Overlay := ⟨[⟨topMount, ⟨"proto"⟩⟩]⟩
    let argument := "./proto/a.proto"
    let read : VirtualPath := ⟨⟨false, ["proto", "a.proto"], by decide⟩, by decide⟩
    nestedDisk.isFile ⟨argument⟩ = true ∧ Downward ⟨argument⟩ ∧ Downward ⟨"proto"⟩ ∧
      nestedDisk.locate ⟨"proto"⟩ = .ok (.directory ["w", "proto"]) ∧
      nestedDisk.namesOf ⟨argument⟩ = nestedDisk.namesOf ⟨"proto"⟩ ++ ["a.proto"] ∧
      rootOnDisk? nestedDisk overlay argument = .ok none ∧
      rootOf nestedDisk overlay argument = .ok read ∧
      overlay.locate read = some ⟨"proto/proto/a.proto"⟩ ∧
      nestedDisk.isFile ⟨"proto/proto/a.proto"⟩ = true ∧
      nestedDisk.namesOf ⟨"proto/proto/a.proto"⟩ ≠ nestedDisk.namesOf ⟨argument⟩ := by
  intro overlay argument read
  unfold Downward
  refine ⟨?_, ?_, ?_, rfl, ?_, ?_, ?_, ?_, ?_, ?_⟩ <;> decide +kernel

end CommandLine

end ProtoSchema
