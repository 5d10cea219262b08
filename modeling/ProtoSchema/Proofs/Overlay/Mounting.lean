import ProtoSchema.Proofs.Overlay.Serving

/-!
Which mapping serves a path. A mount that is given again keeps its one mapping and gets the root
that comes last, so the mappings are told by the last root of each mount. The mounts that cover a
path are initial parts of it, hence each lies below all the shorter ones; they have no two of one
length, and the one with the most segments is also the one that is written longest. What serves a
path hangs on the last roots only, and not on the order in which they were given.
-/

namespace ProtoSchema

namespace Overlay

variable {overlay : Overlay} {mapping other : Mapping} {mappings : List Mapping} {mount : Mount}
  {root place : PhysicalPath} {path : VirtualPath} {calls : List (String × String)}

/-- Mappings that are given one after the other. One that is refused changes nothing. -/
def ofCalls (calls : List (String × String)) : Overlay :=
  calls.foldl (fun overlay call => (overlay.map call.1 call.2).toOption.getD overlay) .empty

/-- The root that the mount was given last, however the mount was spelled. -/
def lastRoot? (calls : List (String × String)) (mount : Mount) : Option PhysicalPath :=
  (calls.filter fun call => (Mount.read call.1).toOption = some mount).getLast?.map
    fun call => ⟨call.2⟩

/-- A mount that has a mapping keeps it, with the new root. -/
theorem mappings_insert_of_known (h : ∃ old ∈ overlay.mappings, old.mount = mount) :
    (overlay.insert mount root).mappings =
      overlay.mappings.map fun m => if m.mount = mount then { m with root } else m := by
  have hany : overlay.mappings.any (·.mount = mount) = true := by simpa using h
  rw [insert, if_pos hany]

theorem mappings_insert_of_new (h : ∀ old ∈ overlay.mappings, old.mount ≠ mount) :
    (overlay.insert mount root).mappings = overlay.mappings ++ [⟨mount, root⟩] := by
  have hany : ¬overlay.mappings.any (·.mount = mount) = true := by simpa using h
  rw [insert, if_neg hany]

theorem known_or_new (overlay : Overlay) (mount : Mount) :
    (∃ old ∈ overlay.mappings, old.mount = mount) ∨
      ∀ old ∈ overlay.mappings, old.mount ≠ mount := by
  by_cases h : ∃ old ∈ overlay.mappings, old.mount = mount
  · exact .inl h
  · exact .inr fun old hold heq => h ⟨old, hold, heq⟩

/-- Only the mapping of the mount is another one. -/
theorem mem_insert_iff : mapping ∈ (overlay.insert mount root).mappings ↔
    if mapping.mount = mount then mapping.root = root else mapping ∈ overlay.mappings := by
  rcases known_or_new overlay mount with ⟨known, hmem, hknown⟩ | hnew
  · rw [mappings_insert_of_known ⟨known, hmem, hknown⟩, List.mem_map]
    split
    · next heq =>
      constructor
      · rintro ⟨old, _, rfl⟩
        split at heq
        · next hold => rw [if_pos hold]
        · next hold => exact absurd heq hold
      · rintro rfl
        exact ⟨known, hmem, by rw [if_pos hknown, hknown, ← heq]⟩
    · next hne =>
      constructor
      · rintro ⟨old, hold, rfl⟩
        split at hne
        · next hmount => exact absurd hmount hne
        · next hmount => rwa [if_neg hmount]
      · exact fun hold => ⟨mapping, hold, if_neg hne⟩
  · rw [mappings_insert_of_new hnew, List.mem_append, List.mem_singleton]
    split
    · next heq =>
      rw [or_iff_right fun hold => hnew mapping hold heq]
      constructor
      · rintro rfl
        rfl
      · rintro rfl
        rw [← heq]
    · next hne =>
      refine or_iff_left ?_
      rintro rfl
      exact hne rfl

theorem nodup_insert (h : (overlay.mappings.map (·.mount)).Nodup) :
    ((overlay.insert mount root).mappings.map (·.mount)).Nodup := by
  rcases known_or_new overlay mount with hknown | hnew
  · have hmounts : ((·.mount) ∘ fun m : Mapping => if m.mount = mount then { m with root } else m) =
        (·.mount) := by
      funext m
      by_cases hm : m.mount = mount <;> simp [hm]
    rwa [mappings_insert_of_known hknown, List.map_map, hmounts]
  · rw [mappings_insert_of_new hnew, List.map_append, List.map_singleton,
      ← List.concat_eq_append]
    refine h.concat fun hold => ?_
    obtain ⟨old, hmem, heq⟩ := List.mem_map.mp hold
    exact hnew old hmem heq

theorem ofCalls_concat (calls : List (String × String)) (call : String × String) :
    ofCalls (calls ++ [call]) = match Mount.read call.1 with
      | .error _ => ofCalls calls
      | .ok mount => (ofCalls calls).insert mount ⟨call.2⟩ := by
  rw [ofCalls, List.foldl_concat, map]
  cases Mount.read call.1 <;> rfl

theorem lastRoot?_concat (calls : List (String × String)) (call : String × String)
    (mount : Mount) : lastRoot? (calls ++ [call]) mount =
      if (Mount.read call.1).toOption = some mount then some ⟨call.2⟩
      else lastRoot? calls mount := by
  rw [lastRoot?, List.filter_append]
  by_cases hread : (Mount.read call.1).toOption = some mount
  · simp [hread]
  · simp [hread, lastRoot?]

/-- A mount has one mapping, with the root that it was given last. -/
theorem mem_ofCalls_iff : mapping ∈ (ofCalls calls).mappings ↔
    lastRoot? calls mapping.mount = some mapping.root := by
  induction calls using List.reverseRecOn with
  | nil => exact ⟨nofun, nofun⟩
  | append_singleton calls call ih =>
    rw [ofCalls_concat, lastRoot?_concat]
    cases hread : Mount.read call.1 with
    | error fault => simpa [Except.toOption] using ih
    | ok mount =>
      simp only [mem_insert_iff, Except.toOption, Option.some.injEq]
      by_cases heq : mapping.mount = mount
      · simp [heq, eq_comm]
      · simp [heq, Ne.symm heq, ih]

theorem nodup_ofCalls (calls : List (String × String)) :
    ((ofCalls calls).mappings.map (·.mount)).Nodup := by
  induction calls using List.reverseRecOn with
  | nil => exact List.nodup_nil
  | append_singleton calls call ih =>
    rw [ofCalls_concat]
    cases Mount.read call.1 with
    | error fault => exact ih
    | ok mount => exact nodup_insert ih

theorem closest_eq_none_iff : closest mappings = none ↔ mappings = [] := by
  cases mappings with
  | nil => exact iff_of_true rfl rfl
  | cons first rest =>
    refine iff_of_false (fun h => ?_) (List.cons_ne_nil first rest)
    rw [closest] at h
    split at h
    · cases h
    · split at h <;> cases h

theorem eq_of_mount_eq (hnodup : (overlay.mappings.map (·.mount)).Nodup)
    (hmapping : mapping ∈ overlay.mappings) (hother : other ∈ overlay.mappings)
    (heq : other.mount = mapping.mount) : other = mapping :=
  List.inj_on_of_nodup_map hnodup hother hmapping heq

/-- No mapping of those that cover the path has more segments than the closest. -/
theorem length_le_of_closest (h : closest mappings = some mapping) (hother : other ∈ mappings) :
    other.mount.segments.length ≤ mapping.mount.segments.length := by
  induction mappings generalizing mapping with
  | nil => cases hother
  | cons first rest ih =>
    rw [closest] at h
    split at h
    · next hnone =>
      cases h
      rcases List.mem_cons.mp hother with rfl | hrest
      · exact Nat.le_refl _
      · rw [closest_eq_none_iff.mp hnone] at hrest
        cases hrest
    · next best hbest =>
      split at h
      · next hlt =>
        cases h
        rcases List.mem_cons.mp hother with rfl | hrest
        · exact Nat.le_refl _
        · exact Nat.le_trans (ih hbest hrest) (Nat.le_of_lt hlt)
      · next hle =>
        cases h
        rcases List.mem_cons.mp hother with rfl | hrest
        · exact Nat.not_lt.mp hle
        · exact ih hbest hrest

def covering (overlay : Overlay) (path : VirtualPath) : List Mapping :=
  overlay.mappings.filter fun m => (m.mount.below? path.toMount).isSome

theorem locate_eq (overlay : Overlay) (path : VirtualPath) :
    overlay.locate path = (closest (overlay.covering path)).bind (·.place? path) := rfl

theorem mem_covering_iff : mapping ∈ overlay.covering path ↔
    mapping ∈ overlay.mappings ∧ ∃ rest, mapping.mount.Covers path.toMount rest := by
  rw [covering, List.mem_filter, Option.isSome_iff_exists]
  exact and_congr_right fun _ => exists_congr fun _ => Mount.below?_eq_some_iff

def PutsClosest (overlay : Overlay) (path : VirtualPath) (mapping : Mapping)
    (place : PhysicalPath) : Prop :=
  ∃ rest, mapping.mount.Covers path.toMount rest ∧ place = mapping.root.extend rest ∧
    ∀ other ∈ overlay.mappings, other ≠ mapping →
      ∀ others, other.mount.Covers path.toMount others →
        other.mount.segments.length < mapping.mount.segments.length

/-- A path is served by the one mapping that covers it with the most segments. -/
theorem locate_eq_some_iff (hnodup : (overlay.mappings.map (·.mount)).Nodup) :
    overlay.locate path = some place ↔
      ∃ mapping ∈ overlay.mappings, overlay.PutsClosest path mapping place := by
  rw [locate_eq, Option.bind_eq_some_iff]
  constructor
  · rintro ⟨mapping, hclosest, hplace⟩
    obtain ⟨hmem, -⟩ := mem_covering_iff.mp (mem_of_closest hclosest)
    obtain ⟨rest, hcovers, hput⟩ := Mapping.place?_eq_some_iff.mp hplace
    refine ⟨mapping, hmem, rest, hcovers, hput, fun other hother hne others hothers => ?_⟩
    have hle := length_le_of_closest hclosest (mem_covering_iff.mpr ⟨hother, others, hothers⟩)
    refine Nat.lt_of_le_of_ne hle fun heq => hne ?_
    exact eq_of_mount_eq hnodup hmem hother (hcovers.eq_of_length_eq hothers heq)
  · rintro ⟨mapping, hmem, rest, hcovers, hput, hlonger⟩
    have hcovering := mem_covering_iff.mpr ⟨hmem, rest, hcovers⟩
    cases hclosest : closest (overlay.covering path) with
    | none =>
      rw [closest_eq_none_iff.mp hclosest] at hcovering
      cases hcovering
    | some best =>
      obtain ⟨hbest, others, hothers⟩ := mem_covering_iff.mp (mem_of_closest hclosest)
      have heq : best = mapping := by
        by_contra hne
        exact Nat.not_lt.mpr (length_le_of_closest hclosest hcovering)
          (hlonger best hbest hne others hothers)
      exact ⟨best, rfl, heq ▸ Mapping.place?_eq_some_iff.mpr ⟨rest, hcovers, hput⟩⟩

theorem locate_eq_none_iff : overlay.locate path = none ↔
    ∀ mapping ∈ overlay.mappings, ∀ rest, ¬mapping.mount.Covers path.toMount rest := by
  rw [locate_eq]
  constructor
  · intro h mapping hmem rest hcovers
    have hcovering := mem_covering_iff.mpr ⟨hmem, rest, hcovers⟩
    cases hclosest : closest (overlay.covering path) with
    | none =>
      rw [closest_eq_none_iff.mp hclosest] at hcovering
      cases hcovering
    | some best =>
      obtain ⟨-, others, hothers⟩ := mem_covering_iff.mp (mem_of_closest hclosest)
      have hplace := Mapping.place?_eq_some_iff.mpr ⟨others, hothers, rfl⟩
      rw [hclosest, Option.bind_some, hplace] at h
      cases h
  · intro hnever
    have hnone : overlay.covering path = [] := by
      refine List.eq_nil_iff_forall_not_mem.mpr fun mapping hmapping => ?_
      obtain ⟨hmem, rest, hcovers⟩ := mem_covering_iff.mp hmapping
      exact hnever mapping hmem rest hcovers
    rw [hnone]
    rfl

section Written

def longest : List (Mapping × String) → Option (Mapping × String)
  | [] => none
  | m :: rest =>
    match longest rest with
    | none => some m
    | some best =>
      if best.1.mount.text.utf8ByteSize < m.1.mount.text.utf8ByteSize then some m else some best

def locateWritten (overlay : Overlay) (path : VirtualPath) : Option PhysicalPath :=
  (longest (overlay.mappings.filterMap fun m =>
      (path.stripLeading? m.mount.text).map (m, ·))).map fun found =>
    found.1.root.extend ((Mount.pieces found.2).filter (· ≠ ""))

def leftOf (path : VirtualPath) (mapping : Mapping) : String :=
  "/".intercalate ((mapping.mount.below? path.toMount).getD [])

/-- Of the mounts that cover a path the one with the most segments is written longest. -/
theorem longest_eq_closest (path : VirtualPath) (mappings : List Mapping) :
    longest (mappings.filterMap fun m => (path.stripLeading? m.mount.text).map (m, ·)) =
      (closest (mappings.filter fun m => (m.mount.below? path.toMount).isSome)).map
        fun m => (m, leftOf path m) := by
  induction mappings with
  | nil => rfl
  | cons first rest ih =>
    cases hbelow : first.mount.below? path.toMount with
    | none =>
      have hstrip : path.stripLeading? first.mount.text = none := by
        rw [VirtualPath.stripLeading?_text, hbelow, Option.map_none]
      simpa [hstrip, hbelow] using ih
    | some names =>
      have hfirst := Mount.below?_eq_some_iff.mp hbelow
      have hstrip : path.stripLeading? first.mount.text = some (leftOf path first) := by
        rw [VirtualPath.stripLeading?_text, hbelow, Option.map_some, leftOf, hbelow,
          Option.getD_some]
      rw [List.filterMap_cons_some (by rw [hstrip, Option.map_some]),
        List.filter_cons_of_pos (by rw [hbelow, Option.isSome_some]), longest, closest, ih]
      cases hclosest : closest (rest.filter fun m => (m.mount.below? path.toMount).isSome) with
      | none => rfl
      | some best =>
        obtain ⟨-, hbest⟩ := List.mem_filter.mp (mem_of_closest hclosest)
        obtain ⟨others, hothers⟩ := Option.isSome_iff_exists.mp hbest
        have hsize := hfirst.size_text_lt_iff (Mount.below?_eq_some_iff.mp hothers)
        simp only [Option.map_some, hsize]
        split <;> rfl

/-- Paths and mounts can be compared by their texts. -/
theorem locate_eq_locateWritten (overlay : Overlay) (path : VirtualPath) :
    overlay.locate path = overlay.locateWritten path := by
  rw [locateWritten, longest_eq_closest, Option.map_map, locate_eq, covering]
  cases hclosest : closest (overlay.mappings.filter fun m =>
      (m.mount.below? path.toMount).isSome) with
  | none => rfl
  | some best =>
    obtain ⟨-, hbest⟩ := List.mem_filter.mp (mem_of_closest hclosest)
    obtain ⟨rest, hrest⟩ := Option.isSome_iff_exists.mp hbest
    have hsegments := (Mount.below?_eq_some_iff.mp hrest).isSegment
    simp only [Option.bind_some, Option.map_some, Function.comp_apply, Mapping.place?, hrest,
      leftOf, Option.getD_some, Mount.filter_pieces_intercalate hsegments]

end Written

/-- The mappings are those that the calls give: a mount for each normalized prefix, in one
spelling, with its last root. -/
structure Registers (overlay : Overlay) (calls : List (String × String)) : Prop where
  nodup : (overlay.mappings.map (·.mount.text)).Nodup
  normalized : ∀ mapping ∈ overlay.mappings, Mount.read mapping.mount.text = .ok mapping.mount
  mem_iff : ∀ mapping, mapping ∈ overlay.mappings ↔
    lastRoot? calls mapping.mount = some mapping.root

/-- Each path is served by the mapping that covers it with the most segments. The store is asked
for the one place that this gives, and no other mapping stands in for a file that is missing. -/
structure ServesLongest (overlay : Overlay) : Prop where
  locate_eq_some_iff : ∀ path place, overlay.locate path = some place ↔
    ∃ mapping ∈ overlay.mappings, overlay.PutsClosest path mapping place
  locate_eq_none_iff : ∀ path, overlay.locate path = none ↔
    ∀ mapping ∈ overlay.mappings, ∀ rest, ¬mapping.mount.Covers path.toMount rest
  locate_eq_locateWritten : ∀ path, overlay.locate path = overlay.locateWritten path
  resolve_of_missing : ∀ path place (store : Store), overlay.locate path = some place →
    store.isFile place = false → overlay.resolve store path = .error (.missing path place)
  resolve_congr : ∀ path (store other : Store),
    (∀ place, overlay.locate path = some place → store.isFile place = other.isFile place) →
    overlay.resolve store path = overlay.resolve other path

theorem registers_ofCalls (calls : List (String × String)) : (ofCalls calls).Registers calls where
  nodup := by
    have htexts := (nodup_ofCalls calls).map fun _ _ h => Mount.text_injective h
    rwa [List.map_map] at htexts
  normalized mapping _ := mapping.mount.read_text
  mem_iff _ := mem_ofCalls_iff

theorem resolve_congr {store other : Store} {others : Overlay}
    (hlocate : overlay.locate path = others.locate path)
    (hstands : ∀ place, overlay.locate path = some place →
      store.isFile place = other.isFile place) :
    overlay.resolve store path = others.resolve other path := by
  unfold resolve
  rw [← hlocate]
  cases hplace : overlay.locate path with
  | none => rfl
  | some place => simp only [hstands place hplace]

theorem servesLongest (hnodup : (overlay.mappings.map (·.mount)).Nodup) :
    overlay.ServesLongest where
  locate_eq_some_iff _ _ := locate_eq_some_iff hnodup
  locate_eq_none_iff _ := locate_eq_none_iff
  locate_eq_locateWritten path := overlay.locate_eq_locateWritten path
  resolve_of_missing path place store hplace hmissing := by
    simp [resolve, hplace, hmissing]
  resolve_congr _ _ _ hstands := resolve_congr rfl hstands

/-- However mappings are given one after the other, each mount has the root that came last for
it, and each path is served by the longest mount that covers it. The order in which they were
given, and what was replaced on the way, make no difference. -/
theorem longest_mount_serves (calls : List (String × String)) :
    (ofCalls calls).Registers calls ∧ (ofCalls calls).ServesLongest ∧
    ∀ others, (∀ mount, lastRoot? others mount = lastRoot? calls mount) → ∀ path,
      (ofCalls others).locate path = (ofCalls calls).locate path ∧
      ∀ store, (ofCalls others).resolve store path = (ofCalls calls).resolve store path := by
  refine ⟨registers_ofCalls calls, servesLongest (nodup_ofCalls calls), fun others hlast path => ?_⟩
  have hmem (mapping : Mapping) :
      mapping ∈ (ofCalls others).mappings ↔ mapping ∈ (ofCalls calls).mappings := by
    rw [mem_ofCalls_iff, mem_ofCalls_iff, hlast]
  have hlocate : (ofCalls others).locate path = (ofCalls calls).locate path := by
    refine Option.ext fun place => ?_
    rw [locate_eq_some_iff (nodup_ofCalls others), locate_eq_some_iff (nodup_ofCalls calls)]
    simp only [PutsClosest, hmem]
  exact ⟨hlocate, fun store => resolve_congr hlocate fun _ _ => rfl⟩

/-- A mount that is given twice, and the same mappings in another order with a refused one among
them. The file is missing under the longer mount, and the one under the shorter is left alone. -/
theorem longest_mount_serves_reordered : ∃ (calls others : List (String × String))
    (path : VirtualPath) (store : Store),
    calls = [("lib", "/first"), ("", "/base"), ("lib//", "/second")] ∧
    others = [("./lib", "/second"), ("a\\b", "/other"), ("", "/base")] ∧
    (∀ mount, lastRoot? others mount = lastRoot? calls mount) ∧
    (ofCalls calls).locate path = some ⟨"/second/x.proto"⟩ ∧
    (ofCalls others).locate path = some ⟨"/second/x.proto"⟩ ∧
    store.isFile ⟨"/base/lib/x.proto"⟩ = true ∧ store.isFile ⟨"/second/x.proto"⟩ = false ∧
    (ofCalls others).resolve store path = .error (.missing path ⟨"/second/x.proto"⟩) := by
  let calls := [("lib", "/first"), ("", "/base"), ("lib//", "/second")]
  let others := [("./lib", "/second"), ("a\\b", "/other"), ("", "/base")]
  let path : VirtualPath := ⟨⟨false, ["lib", "x.proto"], by decide⟩, by decide⟩
  let store := (MemoryFiles.mk [(⟨"/base/lib/x.proto"⟩, [])]).store
  let lib : Mount := ⟨false, ["lib"], by decide⟩
  let top : Mount := ⟨false, [], by decide⟩
  have hlast : ∀ mount, lastRoot? others mount = lastRoot? calls mount := by
    intro mount
    have hlib : (Mount.read "lib").toOption = some lib := rfl
    have hspelled : (Mount.read "./lib").toOption = some lib := rfl
    have hagain : (Mount.read "lib//").toOption = some lib := rfl
    have htop : (Mount.read "").toOption = some top := rfl
    have hrefused : (Mount.read "a\\b").toOption = none := rfl
    have hapart : lib ≠ top := by decide
    by_cases hmount : lib = mount
    · subst hmount
      simp [lastRoot?, calls, others, hlib, hspelled, hagain, htop, hrefused, hapart.symm]
    · simp [lastRoot?, calls, others, hlib, hspelled, hagain, htop, hrefused, hmount,
        List.filter_cons]
  have hplace : (ofCalls calls).locate path = some ⟨"/second/x.proto"⟩ := by decide +kernel
  have hmissing : store.isFile ⟨"/second/x.proto"⟩ = false := by decide +kernel
  obtain ⟨-, hserves, hreordered⟩ := longest_mount_serves calls
  obtain ⟨hlocate, hresolve⟩ := hreordered others hlast path
  exact ⟨calls, others, path, store, rfl, rfl, hlast, hplace, hlocate.trans hplace,
    by decide +kernel, hmissing, (hresolve store).trans
      (hserves.resolve_of_missing path _ store hplace hmissing)⟩

end Overlay

end ProtoSchema
