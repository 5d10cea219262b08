import ProtoSchema.Proofs.Path.Steps

/-!
Virtual paths have one written form. Cutting it at its slashes gives back the segments, so that
reading it gives the path again, and two paths with one text are the same. What is read off a
text is hence fixed by the pieces that are kept of it and by its first character; and a text is
no path for one of three reasons, of which the first that holds is told.
-/

namespace ProtoSchema

namespace Mount

def pieces (raw : String) : List String := (Text.splitAt '/' raw.toList).map String.ofList

def IsProper (piece : String) : Prop := piece ≠ "" ∧ piece ≠ "." ∧ piece ≠ ".."

def StartsWithSlash (raw : String) : Prop := raw.toList.head? = some '/'

variable {m n : Mount} {raw : String} {fault : PathFault}

theorem keptPieces_eq (raw : String) :
    keptPieces raw = (pieces raw).filter fun s => s ≠ "" ∧ s ≠ "." := rfl

theorem toList_text (m : Mount) : m.text.toList =
    (if m.rooted then ['/'] else []) ++ ['/'].intercalate (m.segments.map String.toList) := by
  rw [text, String.toList_append, String.toList_intercalate]
  cases m.rooted <;> rfl

/-- Segments have no slash, so that the text is cut just between them. -/
theorem pieces_intercalate (m : Mount) (h : m.segments ≠ []) :
    (Text.splitAt '/' (['/'].intercalate (m.segments.map String.toList))).map String.ofList =
      m.segments := by
  rw [Text.splitAt_intercalate '/' (by simpa using h)]
  · simp [Function.comp_def]
  · intro piece hpiece
    obtain ⟨s, hs, rfl⟩ := List.mem_map.mp hpiece
    exact (m.clean s hs).2.2.2.1

/-- A leading slash has an empty piece in front of it. -/
theorem pieces_text (m : Mount) (h : m.segments ≠ []) :
    pieces m.text = (if m.rooted then [""] else []) ++ m.segments := by
  rw [pieces, toList_text]
  cases m.rooted with
  | false => exact m.pieces_intercalate h
  | true =>
    rw [if_pos rfl, if_pos rfl, List.singleton_append, Text.splitAt, if_pos rfl, List.map_cons,
      m.pieces_intercalate h]
    rfl

theorem keptPieces_text (m : Mount) : keptPieces m.text = m.segments := by
  by_cases h : m.segments = []
  · rw [keptPieces_eq, pieces, toList_text, h]
    cases m.rooted <;> decide
  · have hkept : m.segments.filter (fun s => s ≠ "" ∧ s ≠ ".") = m.segments := by
      refine List.filter_eq_self.mpr fun s hs => ?_
      simpa using ⟨(m.clean s hs).1, (m.clean s hs).2.1⟩
    rw [keptPieces_eq, m.pieces_text h, List.filter_append, hkept]
    cases m.rooted <;> rfl

/-- A segment does not start with a slash. -/
theorem head?_text (m : Mount) : (m.text.toList.head? == some '/') = m.rooted := by
  rw [toList_text]
  cases hrooted : m.rooted with
  | true => rfl
  | false =>
    cases hsegments : m.segments with
    | nil => rfl
    | cons first rest =>
      obtain ⟨hempty, _, _, hslash, _⟩ := m.clean first (hsegments ▸ List.mem_cons_self)
      cases hchars : first.toList with
      | nil => exact absurd (String.toList_eq_nil_iff.mp hchars) hempty
      | cons c cs =>
        have hc : c ≠ '/' := by
          rintro rfl
          exact hslash (hchars ▸ List.mem_cons_self)
        cases rest <;> simpa [hchars, List.intercalate] using hc

theorem backslash_notMem_text (m : Mount) : '\\' ∉ m.text.toList := by
  rw [toList_text]
  intro hmem
  rcases List.mem_append.mp hmem with hmem | hmem
  · cases hrooted : m.rooted <;> simp [hrooted] at hmem
  · obtain ⟨piece, hpiece, hmem⟩ := Text.mem_of_mem_intercalate hmem (by decide)
    obtain ⟨s, hs, rfl⟩ := List.mem_map.mp hpiece
    exact (m.clean s hs).2.2.2.2 hmem

theorem read_eq_ok (h : read raw = .ok m) :
    m.rooted = (raw.toList.head? == some '/') ∧ m.segments = keptPieces raw := by
  unfold read at h
  split at h
  · cases h
  · split at h
    · cases h
    · cases h
      exact ⟨rfl, rfl⟩

/-- Reading the written form of a mount gives the mount. -/
theorem read_text (m : Mount) : read m.text = .ok m := by
  have hparent : ".." ∉ keptPieces m.text := by
    rw [keptPieces_text]
    exact fun h => (m.clean _ h).2.2.1 rfl
  rw [read, dif_neg m.backslash_notMem_text, dif_neg hparent]
  exact congrArg Except.ok (Mount.ext m.head?_text m.keptPieces_text)

theorem text_injective (h : m.text = n.text) : m = n := by
  have hread := m.read_text
  rw [h, n.read_text] at hread
  exact (Except.ok.inj hread).symm

end Mount

namespace VirtualPath

open Mount (IsProper StartsWithSlash keptPieces pieces)

variable {p q : VirtualPath} {raw : String} {fault : PathFault}

/-- Why the text is no path. A backslash counts first, and then a step upwards. -/
inductive Rejects (raw : String) : PathFault → Prop
  | backslash (h : '\\' ∈ raw.toList) : Rejects raw (.backslash raw)
  | parentReference (h : '\\' ∉ raw.toList) (hparent : ".." ∈ pieces raw) :
      Rejects raw (.parentReference raw)
  | empty (h : '\\' ∉ raw.toList) (hparent : ".." ∉ pieces raw)
      (hnone : ∀ piece ∈ pieces raw, piece = "" ∨ piece = ".") : Rejects raw .empty

theorem parent_mem_keptPieces : ".." ∈ keptPieces raw ↔ ".." ∈ pieces raw := by
  rw [Mount.keptPieces_eq, List.mem_filter]
  simp

theorem keptPieces_eq_nil_iff :
    keptPieces raw = [] ↔ ∀ piece ∈ pieces raw, piece = "" ∨ piece = "." := by
  rw [Mount.keptPieces_eq, List.filter_eq_nil_iff]
  simp only [decide_eq_true_eq, not_and_or, not_not]

/-- A text is refused for the first reason that holds of it. -/
theorem read_eq_error_iff : read raw = .error fault ↔ Rejects raw fault := by
  rw [read, Mount.read]
  by_cases hslash : '\\' ∈ raw.toList
  · rw [dif_pos hslash]
    constructor
    · rintro ⟨⟩
      exact .backslash hslash
    · intro h
      cases h with
      | backslash _ => rfl
      | parentReference hnone _ => exact absurd hslash hnone
      | empty hnone _ _ => exact absurd hslash hnone
  rw [dif_neg hslash]
  by_cases hparent : ".." ∈ keptPieces raw
  · rw [dif_pos hparent]
    rw [parent_mem_keptPieces] at hparent
    constructor
    · rintro ⟨⟩
      exact .parentReference hslash hparent
    · intro h
      cases h with
      | backslash hmem => exact absurd hmem hslash
      | parentReference _ _ => rfl
      | empty _ hnone _ => exact absurd hparent hnone
  rw [dif_neg hparent]
  rw [parent_mem_keptPieces] at hparent
  by_cases hnone : keptPieces raw = []
  · simp only [hnone, ne_eq, not_true_eq_false, dite_false]
    constructor
    · rintro ⟨⟩
      exact .empty hslash hparent (keptPieces_eq_nil_iff.mp hnone)
    · intro h
      cases h with
      | backslash hmem => exact absurd hmem hslash
      | parentReference _ hmem => exact absurd hmem hparent
      | empty _ _ _ => rfl
  · simp only [hnone, ne_eq, not_false_eq_true, dite_true]
    constructor
    · rintro ⟨⟩
    · intro h
      cases h with
      | backslash hmem => exact absurd hmem hslash
      | parentReference _ hmem => exact absurd hmem hparent
      | empty _ _ hall => exact absurd (keptPieces_eq_nil_iff.mpr hall) hnone

theorem read_eq_ok (h : read raw = .ok p) : Mount.read raw = .ok p.toMount := by
  unfold read at h
  split at h
  · cases h
  · next mount hmount =>
    split at h
    · cases h
      exact hmount
    · cases h

theorem read_text (p : VirtualPath) : read p.text = .ok p := by
  have hmount : Mount.read p.text = .ok p.toMount := p.toMount.read_text
  rw [read, hmount]
  simp only [p.nonempty, ne_eq, not_false_eq_true, dite_true]

theorem text_injective (h : p.text = q.text) : p = q := by
  have hread := p.read_text
  rw [h, q.read_text] at hread
  exact (Except.ok.inj hread).symm

/-- Virtual paths are canonical. Two texts name one path, written in one way, just when they
agree on the leading slash and on the segments that are kept of them. What is written is read
as the path it is of, and consists of the segments that were kept. A text is refused exactly
for a backslash, or else for a step upwards, or else for having no segment. -/
theorem paths_are_canonical :
    (∀ a b p q, read a = .ok p → read b = .ok q →
      (p = q ↔ p.text = q.text) ∧
      (p.text = q.text ↔ (StartsWithSlash a ↔ StartsWithSlash b) ∧
        keptPieces a = keptPieces b)) ∧
    (∀ a p, read a = .ok p → read p.text = .ok p ∧ '\\' ∉ p.text.toList ∧
      (StartsWithSlash a → pieces p.text = "" :: keptPieces a) ∧
      (¬StartsWithSlash a → pieces p.text = keptPieces a) ∧
      ∀ piece ∈ keptPieces a, IsProper piece) ∧
    ∀ raw fault, read raw = .error fault ↔ Rejects raw fault := by
  refine ⟨fun a b p q ha hb => ⟨⟨fun h => h ▸ rfl, text_injective⟩, ?_⟩, fun a p ha => ?_,
    fun raw fault => read_eq_error_iff⟩
  · obtain ⟨har, has⟩ := Mount.read_eq_ok (read_eq_ok ha)
    obtain ⟨hbr, hbs⟩ := Mount.read_eq_ok (read_eq_ok hb)
    rw [← has, ← hbs]
    constructor
    · intro h
      obtain rfl := text_injective h
      have hstart := Bool.eq_iff_iff.mp (har.symm.trans hbr)
      exact ⟨by simpa only [StartsWithSlash, beq_iff_eq] using hstart, rfl⟩
    · rintro ⟨hstart, hsegments⟩
      have hrooted : p.rooted = q.rooted := by
        rw [har, hbr]
        exact Bool.eq_iff_iff.mpr (by simpa [StartsWithSlash] using hstart)
      rw [VirtualPath.ext hrooted hsegments]
  · obtain ⟨hrooted, hsegments⟩ := Mount.read_eq_ok (read_eq_ok ha)
    have hpieces : pieces p.text = (if p.rooted then [""] else []) ++ p.segments :=
      p.toMount.pieces_text p.nonempty
    refine ⟨p.read_text, p.toMount.backslash_notMem_text, fun hstart => ?_, fun hstart => ?_, ?_⟩
    · rw [hpieces, hrooted, hsegments, beq_iff_eq.mpr hstart]
      rfl
    · rw [hpieces, hrooted, hsegments, beq_eq_false_iff_ne.mpr hstart]
      rfl
    · intro piece hpiece
      obtain ⟨hempty, hdot, hparent, _⟩ := p.clean piece (hsegments ▸ hpiece)
      exact ⟨hempty, hdot, hparent⟩

/-- Two spellings of a rooted path, the path without its slash, and texts that are refused. -/
theorem paths_are_canonical_spellings : ∃ p q : VirtualPath,
    read "//proto/./a.proto" = .ok p ∧ read "/proto//a.proto" = .ok p ∧
    read "proto/a.proto" = .ok q ∧ p.text = "/proto/a.proto" ∧ read p.text = .ok p ∧
    pieces p.text = ["", "proto", "a.proto"] ∧ p.text ≠ q.text ∧
    read "../a\\b" = .error (.backslash "../a\\b") ∧
    read "/a/../b" = .error (.parentReference "/a/../b") ∧ read "/./" = .error .empty := by
  let p : VirtualPath := ⟨⟨true, ["proto", "a.proto"], by decide⟩, by decide⟩
  let q : VirtualPath := ⟨⟨false, ["proto", "a.proto"], by decide⟩, by decide⟩
  have hspelled : read "//proto/./a.proto" = .ok p := by rfl
  have hother : read "/proto//a.proto" = .ok p := by rfl
  have hrelative : read "proto/a.proto" = .ok q := by rfl
  obtain ⟨hsame, hwritten, hrefused⟩ := paths_are_canonical
  obtain ⟨hagain, _, hpieces, _⟩ := hwritten _ _ hspelled
  refine ⟨p, q, hspelled, hother, hrelative, by rfl, hagain, ?_, ?_, ?_, ?_, ?_⟩
  · exact hpieces (by rfl)
  · intro h
    have hstart := ((hsame _ _ p q hother hrelative).2.mp h).1.mp (by rfl)
    exact absurd hstart (by simp [StartsWithSlash])
  · exact (hrefused _ _).mpr (.backslash (by decide))
  · exact (hrefused _ _).mpr (.parentReference (by decide) (by decide))
  · exact (hrefused _ _).mpr (.empty (by decide) (by decide) (by decide))

end VirtualPath

end ProtoSchema
