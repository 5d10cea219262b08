import ProtoSchema.Proofs.Overlay.Serving
import ProtoSchema.Proofs.Path.Canonical
import ProtoSchema.Proofs.Text.OneLine

/-!
Paths of one line. A path that is read from a text without a newline has none, and what is wrong
with such a text is told on one line. A place on disk is spelled with the root of a mapping and
the segments of the virtual path.
-/

namespace ProtoSchema

open Text (OneLine)

namespace Mount

variable {m : Mount} {raw : String}

theorem oneLine_of_mem_keptPieces (hraw : OneLine raw) : ∀ s ∈ keptPieces raw, OneLine s := by
  intro s hs
  obtain ⟨piece, hpiece, rfl⟩ := List.mem_map.mp (List.mem_of_mem_filter hs)
  exact Text.oneLine_ofList.mpr fun hmem => hraw (Text.mem_of_mem_splitAt hpiece hmem).1

theorem oneLine_text_iff : OneLine m.text ↔ ∀ s ∈ m.segments, OneLine s := by
  constructor
  · intro htext
    rw [← m.keptPieces_text]
    exact oneLine_of_mem_keptPieces htext
  · intro hsegments
    refine .append ?_ (.intercalate (by decide) hsegments)
    split
    · decide
    · decide

end Mount

namespace VirtualPath

variable {path : VirtualPath} {raw : String}

theorem oneLine_of_read (hraw : OneLine raw) (h : read raw = .ok path) : OneLine path.text := by
  refine Mount.oneLine_text_iff.mpr ?_
  rw [(Mount.read_eq_ok (read_eq_ok h)).2]
  exact Mount.oneLine_of_mem_keptPieces hraw

theorem oneLine_of_read_error {why : PathFault} (hraw : OneLine raw) (h : read raw = .error why) :
    OneLine why.message := by
  cases read_eq_error_iff.mp h with
  | backslash _ => exact .append (.append (by decide) hraw) (by decide)
  | parentReference _ _ => exact .append (.append (by decide) hraw) (by decide)
  | empty _ _ _ => decide

end VirtualPath

theorem PhysicalPath.oneLine_extend {root : PhysicalPath} {segments : List String}
    (hroot : OneLine root.spelling) (hsegments : ∀ s ∈ segments, OneLine s) :
    OneLine (root.extend segments).spelling := by
  unfold extend
  induction segments generalizing root with
  | nil => exact hroot
  | cons s rest ih =>
    obtain ⟨hs, hrest⟩ := List.forall_mem_cons.mp hsegments
    refine ih ?_ hrest
    unfold push
    split
    · exact .append hroot hs
    · exact .append (.append hroot (by decide)) hs

namespace Overlay

variable {overlay : Overlay} {store : Store} {path : VirtualPath} {place : PhysicalPath}

def OneLine (overlay : Overlay) : Prop :=
  ∀ mapping ∈ overlay.mappings, Text.OneLine mapping.root.spelling

theorem OneLine.locate (h : overlay.OneLine) (hpath : Text.OneLine path.text)
    (hlocate : overlay.locate path = some place) : Text.OneLine place.spelling := by
  obtain ⟨mapping, hmapping, hplace⟩ := exists_mapping_of_locate hlocate
  obtain ⟨rest, hcovers, rfl⟩ := Mapping.place?_eq_some_iff.mp hplace
  refine PhysicalPath.oneLine_extend (h mapping hmapping) fun s hs => ?_
  have hsegment : s ∈ path.segments := hcovers.segments_eq ▸ List.mem_append_right _ hs
  exact Mount.oneLine_text_iff.mp hpath s hsegment

end Overlay

end ProtoSchema
