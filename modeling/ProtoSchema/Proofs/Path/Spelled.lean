import ProtoSchema.Proofs.Path.Canonical

/-!
Mounts and the paths below them in their written form. A path that a mount covers is written as
the mount and, behind a slash, the segments below it. So whether a mount covers a path can be told
from the two texts, and the text made of a mount and of names is read as the path below the mount.
The slash is what keeps `/proto` from covering `/protobuf`; the two tops do without it.
-/

namespace ProtoSchema

namespace Mount

variable {m inner : Mount} {p : VirtualPath} {rest names : List String}

structure Covers (m inner : Mount) (rest : List String) : Prop where
  rooted_eq : m.rooted = inner.rooted
  segments_eq : inner.segments = m.segments ++ rest

theorem below?_eq_some_iff : m.below? inner = some rest ↔ m.Covers inner rest := by
  unfold below?
  constructor
  · intro h
    split at h
    · next hcovers =>
      obtain ⟨hrooted, more, hmore⟩ := hcovers
      cases h
      exact ⟨hrooted, by rw [← hmore, List.drop_left]⟩
    · cases h
  · rintro ⟨hrooted, hsegments⟩
    rw [if_pos ⟨hrooted, hsegments ▸ List.prefix_append _ _⟩, hsegments, List.drop_left]

theorem Covers.isSegment (h : m.Covers inner rest) : ∀ s ∈ rest, IsSegment s := by
  intro s hs
  exact inner.clean s (h.segments_eq ▸ List.mem_append_right _ hs)

/-- The mounts without segments are the two tops. -/
theorem text_eq_top_iff (rooted : Bool) :
    m.text = (if rooted then "/" else "") ↔ m.rooted = rooted ∧ m.segments = [] := by
  have htop : (Mount.mk rooted [] (by simp)).text = if rooted then "/" else "" := by
    cases rooted <;> decide
  rw [← htop]
  constructor
  · intro h
    obtain rfl := text_injective h
    exact ⟨rfl, rfl⟩
  · rintro ⟨hrooted, hsegments⟩
    exact congrArg text (ext hrooted hsegments)

theorem text_eq_empty_iff : m.text = "" ↔ m.rooted = false ∧ m.segments = [] :=
  text_eq_top_iff false

theorem text_eq_slash_iff : m.text = "/" ↔ m.rooted = true ∧ m.segments = [] :=
  text_eq_top_iff true

/-- Segments that are joined to nothing are none. -/
theorem intercalate_eq_empty_iff (hrest : ∀ s ∈ rest, IsSegment s) :
    "/".intercalate rest = "" ↔ rest = [] := by
  have htext : (Mount.mk false rest hrest).text = "/".intercalate rest := by simp [text]
  rw [← htext, text_eq_empty_iff]
  exact and_iff_right rfl

/-- Cutting joined segments gives the segments, and an empty piece where there are none. -/
theorem filter_pieces_intercalate (hrest : ∀ s ∈ rest, IsSegment s) :
    (pieces ("/".intercalate rest)).filter (· ≠ "") = rest := by
  by_cases hnone : rest = []
  · subst hnone
    decide
  · have hpieces : pieces ("/".intercalate rest) = rest := by
      rw [pieces, String.toList_intercalate]
      exact pieces_intercalate ⟨false, rest, hrest⟩ hnone
    rw [hpieces, List.filter_eq_self]
    intro s hs
    simpa using (hrest s hs).1

def spell (m : Mount) (names : List String) : String :=
  let rest := "/".intercalate names
  if m.text = "" then rest
  else if m.text = "/" then "/" ++ rest
  else if rest = "" then m.text
  else m.text ++ "/" ++ rest

/-- What a mount covers is written as the mount with the other segments behind it. -/
theorem Covers.text_eq (h : m.Covers inner rest) : inner.text = m.spell rest := by
  obtain ⟨hrooted, hsegments⟩ := h
  have hempty := intercalate_eq_empty_iff (Covers.mk hrooted hsegments).isSegment
  rw [spell, text, ← hrooted, hsegments]
  by_cases hnone : m.segments = []
  · rw [hnone, List.nil_append]
    cases hm : m.rooted with
    | false => simp [text_eq_empty_iff.mpr ⟨hm, hnone⟩]
    | true => simp [text_eq_slash_iff.mpr ⟨hm, hnone⟩]
  · have hnotEmpty : ¬m.text = "" := fun h => hnone (text_eq_empty_iff.mp h).2
    have hnotSlash : ¬m.text = "/" := fun h => hnone (text_eq_slash_iff.mp h).2
    simp only [hnotEmpty, hnotSlash, if_false]
    by_cases hrest : rest = []
    · rw [if_pos (hempty.mpr hrest), hrest, List.append_nil, text]
    · rw [if_neg (mt hempty.mp hrest), String.intercalate_append_of_ne_nil hnone hrest, text]
      simp only [String.append_assoc]

theorem segments_ne_nil (hempty : m.text ≠ "") (hslash : m.text ≠ "/") : m.segments ≠ [] := by
  intro hnone
  cases hrooted : m.rooted with
  | false => exact hempty (text_eq_empty_iff.mpr ⟨hrooted, hnone⟩)
  | true => exact hslash (text_eq_slash_iff.mpr ⟨hrooted, hnone⟩)

/-- A path that is written as the mount, a slash and more lies below the mount. -/
theorem covers_of_text {more : String} (hsome : m.segments ≠ [])
    (h : p.text = m.text ++ "/" ++ more) : m.Covers p.toMount (pieces more) := by
  have hchars : p.toMount.text.toList = m.text.toList ++ '/' :: more.toList := by
    rw [show p.toMount.text = m.text ++ "/" ++ more from h]
    simp
  have hpieces : pieces p.toMount.text = pieces m.text ++ pieces more := by
    rw [pieces, hchars, Text.splitAt_append_sep, List.map_append]
    rfl
  have hnotEmpty : m.text.toList ≠ [] := by
    intro hnil
    exact hsome (text_eq_empty_iff.mp (String.toList_eq_nil_iff.mp hnil)).2
  have hrooted : m.rooted = p.rooted := by
    rw [← m.head?_text, ← p.toMount.head?_text, hchars, List.head?_append_of_ne_nil _ hnotEmpty]
  refine ⟨hrooted, ?_⟩
  rw [p.toMount.pieces_text p.nonempty, m.pieces_text hsome, hrooted, List.append_assoc]
    at hpieces
  exact List.append_cancel_left hpieces

/-- What lies strictly below a mount is written longer. -/
theorem Covers.size_text_lt (h : m.Covers inner rest) (hrest : rest ≠ []) :
    m.text.utf8ByteSize < inner.text.utf8ByteSize := by
  have hjoined := mt (intercalate_eq_empty_iff h.isSegment).mp hrest
  have hpos : 0 < ("/".intercalate rest).utf8ByteSize := by
    rw [Nat.pos_iff_ne_zero, ne_eq, String.utf8ByteSize_eq_zero_iff]
    exact hjoined
  have hone : "/".utf8ByteSize = 1 := by decide
  rw [h.text_eq, spell]
  by_cases htop : m.text = ""
  · simpa [htop] using hpos
  by_cases hslash : m.text = "/"
  · simpa [hslash] using hpos
  · simp only [htop, hslash, hjoined, if_false, String.utf8ByteSize_append]
    omega

/-- Of two mounts of a place the one with more segments lies below the other. -/
theorem Covers.of_length_lt {other : Mount} {others : List String} (h : m.Covers inner rest)
    (h' : other.Covers inner others) (hlt : other.segments.length < m.segments.length) :
    ∃ between, between ≠ [] ∧ other.Covers m between := by
  have hm : m.segments <+: inner.segments := h.segments_eq ▸ List.prefix_append _ _
  have hother : other.segments <+: inner.segments := h'.segments_eq ▸ List.prefix_append _ _
  obtain ⟨between, hbetween⟩ := List.prefix_of_prefix_length_le hother hm (Nat.le_of_lt hlt)
  refine ⟨between, ?_, h'.rooted_eq.trans h.rooted_eq.symm, hbetween.symm⟩
  rintro rfl
  rw [← hbetween, List.append_nil] at hlt
  exact Nat.lt_irrefl _ hlt

/-- Two mounts of a place with equally many segments are one. -/
theorem Covers.eq_of_length_eq {other : Mount} {others : List String} (h : m.Covers inner rest)
    (h' : other.Covers inner others) (heq : other.segments.length = m.segments.length) :
    other = m := by
  have hsegments := h'.segments_eq.symm.trans h.segments_eq
  exact ext (h'.rooted_eq.trans h.rooted_eq.symm) (List.append_inj_left hsegments heq)

/-- Of two mounts of a place the one with more segments is written longer. -/
theorem Covers.size_text_lt_iff {other : Mount} {others : List String} (h : m.Covers inner rest)
    (h' : other.Covers inner others) :
    other.text.utf8ByteSize < m.text.utf8ByteSize ↔
      other.segments.length < m.segments.length := by
  constructor
  · intro hsize
    by_contra hnot
    rcases Nat.eq_or_lt_of_le (Nat.not_lt.mp hnot) with heq | hlt
    · rw [h.eq_of_length_eq h' heq.symm] at hsize
      exact Nat.lt_irrefl _ hsize
    · obtain ⟨between, hsome, hcovers⟩ := h'.of_length_lt h hlt
      exact Nat.lt_asymm hsize (hcovers.size_text_lt hsome)
  · intro hlt
    obtain ⟨between, hsome, hcovers⟩ := h.of_length_lt h' hlt
    exact hcovers.size_text_lt hsome

theorem join?_eq_some_iff : m.join? names = some p ↔ m.Covers p.toMount names := by
  unfold join?
  constructor
  · intro h
    split at h
    · cases h
      exact ⟨rfl, rfl⟩
    · cases h
  · intro h
    rw [dif_pos ⟨h.isSegment, h.segments_eq ▸ p.nonempty⟩]
    exact congrArg some (VirtualPath.ext h.rooted_eq h.segments_eq.symm)

private theorem mem_toList_spell {s : String} {c : Char} (hs : s ∈ names) (hc : c ∈ s.toList) :
    c ∈ (m.spell names).toList := by
  have hmem : c ∈ ("/".intercalate names).toList := by
    rw [String.toList_intercalate]
    exact Text.mem_intercalate (List.mem_map_of_mem hs) hc
  generalize hrest : "/".intercalate names = rest at hmem
  have hsome : rest ≠ "" := by
    rintro rfl
    cases hmem
  unfold spell
  rw [hrest]
  by_cases htop : m.text = ""
  · simpa [htop] using hmem
  by_cases hslash : m.text = "/"
  · simp [hslash, hmem]
  · simp [htop, hslash, hsome, hmem]

/-- Names without slashes that are put behind a mount are read as the path below it. -/
theorem read_spell_eq_ok_iff (hnames : ∀ s ∈ names, IsProper s ∧ '/' ∉ s.toList) :
    VirtualPath.read (m.spell names) = .ok p ↔ m.Covers p.toMount names := by
  constructor
  · intro hread
    have hslash : '\\' ∉ (m.spell names).toList := by
      intro hmem
      rw [VirtualPath.read_eq_error_iff.mpr (.backslash hmem)] at hread
      cases hread
    have hclean : ∀ s ∈ m.segments ++ names, IsSegment s := by
      intro s hs
      rcases List.mem_append.mp hs with hs | hs
      · exact m.clean s hs
      · obtain ⟨⟨hempty, hdot, hparent⟩, hflat⟩ := hnames s hs
        exact ⟨hempty, hdot, hparent, hflat, fun hc => hslash (mem_toList_spell hs hc)⟩
    have hcovers : m.Covers ⟨m.rooted, m.segments ++ names, hclean⟩ names := ⟨rfl, rfl⟩
    have hmount := VirtualPath.read_eq_ok hread
    rw [← hcovers.text_eq, read_text] at hmount
    rw [← Except.ok.inj hmount]
    exact hcovers
  · intro h
    rw [← h.text_eq]
    exact p.read_text

end Mount

namespace VirtualPath

open Mount (pieces)

variable {m : Mount} {p : VirtualPath} {more : String}

theorem stripLeading?_eq_some_iff {lead : String} : p.stripLeading? lead = some more ↔
    (lead = "" ∧ p.rooted = false ∧ p.text = more) ∨
    (lead = "/" ∧ p.text = "/" ++ more) ∨
    (lead ≠ "" ∧ lead ≠ "/" ∧ (p.text = lead ∧ more = "" ∨ p.text = lead ++ "/" ++ more)) := by
  unfold stripLeading?
  by_cases hempty : lead = ""
  · cases hrooted : p.rooted <;> simp [hempty]
  by_cases hslash : lead = "/"
  · simp [hslash, Text.dropLeading?_eq_some_iff]
  simp only [hempty, hslash, if_false, false_and, false_or, ne_eq, not_false_eq_true, true_and]
  cases hdrop : Text.dropLeading? lead p.text with
  | none =>
    have hnever := Text.dropLeading?_eq_none_iff.mp hdrop
    refine ⟨nofun, ?_⟩
    rintro (⟨htext, _⟩ | htext)
    · exact absurd (htext.trans (by simp)) (hnever "")
    · exact absurd (htext.trans (String.append_assoc ..)) (hnever ("/" ++ more))
  | some behind =>
    rw [Text.dropLeading?_eq_some_iff.mp hdrop]
    by_cases hend : behind = ""
    · have hlonger : lead ≠ lead ++ ("/" ++ more) := by
        intro h
        have hlength := congrArg String.length h
        have hone : "/".length = 1 := by decide
        rw [String.length_append, String.length_append, hone] at hlength
        omega
      simp [hend, hlonger, eq_comm, String.append_assoc]
    · simp [hend, Text.dropLeading?_eq_some_iff, String.append_assoc]

/-- A written mount that can be dropped from a written path covers the path. -/
theorem exists_covers_of_stripLeading? (h : p.stripLeading? m.text = some more) :
    ∃ rest, m.Covers p.toMount rest ∧ more = "/".intercalate rest := by
  rcases stripLeading?_eq_some_iff.mp h with ⟨htop, hrooted, rfl⟩ | ⟨htop, htext⟩ |
    ⟨hempty, hslash, ⟨htext, rfl⟩ | htext⟩
  · obtain ⟨hm, hnone⟩ := Mount.text_eq_empty_iff.mp htop
    have hcovers : m.Covers p.toMount p.segments := ⟨hm.trans hrooted.symm, by simp [hnone]⟩
    refine ⟨p.segments, hcovers, hcovers.text_eq.trans ?_⟩
    simp [Mount.spell, htop]
  · obtain ⟨hm, hnone⟩ := Mount.text_eq_slash_iff.mp htop
    have hrooted : p.rooted = true := by
      rw [← p.toMount.head?_text, show p.toMount.text = "/" ++ more from htext]
      simp
    have hcovers : m.Covers p.toMount p.segments := ⟨hm.trans hrooted.symm, by simp [hnone]⟩
    have hspelled := htext.symm.trans hcovers.text_eq
    exact ⟨p.segments, hcovers, by simpa [Mount.spell, htop] using hspelled⟩
  · obtain rfl : p.toMount = m := Mount.text_injective htext
    exact ⟨[], ⟨rfl, by simp⟩, by simp⟩
  · have hcovers := Mount.covers_of_text (Mount.segments_ne_nil hempty hslash) htext
    have hsome : pieces more ≠ [] := by simpa [pieces] using Text.splitAt_ne_nil '/' more.toList
    have hjoined := mt (Mount.intercalate_eq_empty_iff hcovers.isSegment).mp hsome
    have hspelled := htext.symm.trans hcovers.text_eq
    exact ⟨_, hcovers, by simpa [Mount.spell, hempty, hslash, hjoined] using hspelled⟩

/-- Dropped from the text of a path that it covers, a mount leaves the segments below it. -/
theorem stripLeading?_of_covers {rest : List String} (h : m.Covers p.toMount rest) :
    p.stripLeading? m.text = some ("/".intercalate rest) := by
  have htext : p.text = m.spell rest := h.text_eq
  rw [stripLeading?_eq_some_iff, htext]
  by_cases hempty : m.text = ""
  · have hrooted := h.rooted_eq.symm.trans (Mount.text_eq_empty_iff.mp hempty).1
    exact .inl ⟨hempty, hrooted, by simp [Mount.spell, hempty]⟩
  by_cases hslash : m.text = "/"
  · exact .inr (.inl ⟨hslash, by simp [Mount.spell, hslash]⟩)
  refine .inr (.inr ⟨hempty, hslash, ?_⟩)
  by_cases hrest : "/".intercalate rest = ""
  · exact .inl ⟨by simp [Mount.spell, hempty, hslash, hrest], hrest⟩
  · exact .inr (by simp [Mount.spell, hempty, hslash, hrest])

/-- Dropping a written mount from a written path goes by the segments of both. -/
theorem stripLeading?_text (p : VirtualPath) (m : Mount) :
    p.stripLeading? m.text = (m.below? p.toMount).map ("/".intercalate ·) := by
  refine Option.ext fun more => ?_
  rw [Option.map_eq_some_iff]
  constructor
  · intro h
    obtain ⟨rest, hcovers, hmore⟩ := exists_covers_of_stripLeading? h
    exact ⟨rest, Mount.below?_eq_some_iff.mpr hcovers, hmore.symm⟩
  · rintro ⟨rest, hbelow, rfl⟩
    exact stripLeading?_of_covers (Mount.below?_eq_some_iff.mp hbelow)

end VirtualPath

end ProtoSchema
