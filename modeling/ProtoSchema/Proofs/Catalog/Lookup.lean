import Mathlib.Data.String.Basic
import ProtoSchema.Proofs.Catalog.Index
import ProtoSchema.Proofs.Linked.Naming

/-!
What lookups find. The files of a catalog are built when its roots are, and the declarations of a
built file have distinct full names. So a lookup finds the only declaration of the name in the
first file that has one, and it finds nothing only if no file has one. A simple name is the last
component of the full names that it is looked up among.
-/

namespace ProtoSchema

open Linked

namespace Catalog

section Correct

variable {α : Type} (Has : File → α → Prop) (fullName : α → DottedName) (files : List File)
  (text : String)

inductive IsFirst (declaration : α) : Prop
  | intro {before after : List File} {file : File} (hfiles : files = before ++ file :: after)
      (hhas : Has file declaration) (hname : (fullName declaration).text = text)
      (honly : ∀ other, Has file other → (fullName other).text = text → other = declaration)
      (hbefore : ∀ earlier ∈ before, ∀ other, Has earlier other → (fullName other).text ≠ text)

def LookupCorrect : Option α → Prop
  | some declaration => IsFirst Has fullName files text declaration
  | none => ∀ file ∈ files, ∀ declaration, Has file declaration → (fullName declaration).text ≠ text

variable {Has fullName files text}

theorem lookupCorrect_of_search {declarations : File → List α}
    (hhas : ∀ file declaration, declaration ∈ declarations file ↔ Has file declaration)
    (hspelled : ∀ file ∈ files, Spelled ((declarations file).map fullName)) :
    LookupCorrect Has fullName files text (files.findSome? fun file =>
      (declarations file).find? fun declaration => (fullName declaration).text = text) := by
  have hnone {file : File} (hsearch : (declarations file).find? (fun declaration =>
      (fullName declaration).text = text) = none) (declaration : α)
      (hdeclared : Has file declaration) : (fullName declaration).text ≠ text := by
    have hdiffers := List.find?_eq_none.mp hsearch declaration ((hhas _ _).mpr hdeclared)
    simpa using hdiffers
  cases hfound : files.findSome? fun file => (declarations file).find? fun declaration =>
      (fullName declaration).text = text with
  | none =>
    intro file hfile
    exact hnone (List.findSome?_eq_none_iff.mp hfound file hfile)
  | some declaration =>
    obtain ⟨before, file, after, rfl, hsearch, hbefore⟩ := List.findSome?_eq_some_iff.mp hfound
    obtain ⟨hnodup, hwords⟩ := hspelled file (by simp)
    have hmem := List.mem_of_find?_eq_some hsearch
    have hname : (fullName declaration).text = text := by simpa using List.find?_some hsearch
    refine .intro rfl ((hhas _ _).mp hmem) hname ?_ fun earlier hearlier =>
      hnone (hbefore earlier hearlier)
    intro other hother hsame
    have hlisted := (hhas _ _).mpr hother
    refine List.inj_on_of_nodup_map hnodup hlisted hmem ?_
    exact DottedName.text_injective (hwords _ (List.mem_map_of_mem hlisted))
      (hwords _ (List.mem_map_of_mem hmem)) (hsame.trans hname.symm)

structure Ends (files : List File) (base : String) (name : DottedName) : Prop where
  exists_message : ∃ file ∈ files, ∃ message, file.HasMessage message ∧ message.fullName = name
  getLast?_eq : name.getLast? = some base

def SoleCorrect (files : List File) (base : String) : Except CatalogError Message → Prop
  | .ok message =>
    IsFirst File.HasMessage (·.fullName) files message.fullName.text message ∧
      ∀ name, Ends files base name ↔ name = message.fullName
  | .error (.notFound name) => name = base ∧ ∀ name, ¬Ends files base name
  | .error (.ambiguous name candidates) =>
    name = base ∧ candidates.Pairwise (· < ·) ∧ 2 ≤ candidates.length ∧
      ∀ text, text ∈ candidates ↔ ∃ full, Ends files base full ∧ full.text = text

end Correct

variable {roots : List File}

/-- All that the roots lead to was linked as they were. -/
theorem built_of_mem (hroots : ∀ root ∈ roots, root.Built) {file : File}
    (hfile : file ∈ (ofFiles roots).files) : file.Built := by
  obtain ⟨root, hroot, hreaches⟩ := exists_reaches_of_mem_closure hfile
  clear hfile
  induction hreaches with
  | refl => exact hroots root hroot
  | tail _ hnext ih =>
    obtain ⟨edge, hedge, htarget⟩ := File.mem_dependencies.mp hnext
    exact ih.imported hedge htarget

theorem plainName_append (name : String) : plainName ("." ++ name) = name := by
  rw [plainName, Text.dropLeading?_eq_some_iff.mpr rfl, Option.getD_some]

theorem plainName_of_forall_ne {name : String} (h : ∀ rest, name ≠ "." ++ rest) :
    plainName name = name := by
  rw [plainName, Text.dropLeading?_eq_none_iff.mpr h, Option.getD_none]

section Lookups

variable (hroots : ∀ root ∈ roots, root.Built) (name : String)

include hroots

theorem lookupCorrect_message? :
    LookupCorrect File.HasMessage (·.fullName) (ofFiles roots).files (plainName name)
      ((ofFiles roots).message? name) := by
  rw [message?, declared?_eq (indexed_ofFiles roots).messages]
  exact lookupCorrect_of_search (fun _ _ => File.mem_allMessages_iff) fun file hfile =>
    (built_of_mem hroots hfile).wellNamed.messages

theorem lookupCorrect_enum? :
    LookupCorrect File.HasEnum (·.fullName) (ofFiles roots).files (plainName name)
      ((ofFiles roots).enum? name) := by
  rw [enum?, declared?_eq (indexed_ofFiles roots).enums]
  exact lookupCorrect_of_search (fun _ _ => File.mem_allEnums_iff) fun file hfile =>
    (built_of_mem hroots hfile).wellNamed.enums

theorem lookupCorrect_service? :
    LookupCorrect File.HasService (·.fullName) (ofFiles roots).files (plainName name)
      ((ofFiles roots).service? name) := by
  rw [service?, declared?_eq (indexed_ofFiles roots).services]
  exact lookupCorrect_of_search (fun _ _ => Iff.rfl) fun file hfile =>
    (built_of_mem hroots hfile).wellNamed.services

theorem ofWords_of_hasMessage {file : File} {message : Message}
    (hfile : file ∈ (ofFiles roots).files) (hmessage : file.HasMessage message) :
    message.fullName.OfWords :=
  (built_of_mem hroots hfile).wellNamed.messages.ofWords _
    (List.mem_map_of_mem (File.mem_allMessages_iff.mpr hmessage))

theorem Ends.ofWords {base : String} {full : DottedName}
    (h : Ends (ofFiles roots).files base full) : full.OfWords := by
  obtain ⟨⟨file, hfile, message, hmessage, rfl⟩, _⟩ := h
  exact ofWords_of_hasMessage hroots hfile hmessage

/-- The candidates for a simple name are the texts of the full names that end in it. -/
theorem mem_candidates_iff {base text : String} : text ∈ (ofFiles roots).candidates base ↔
    ∃ full, Ends (ofFiles roots).files base full ∧ full.text = text := by
  rw [candidates, List.mem_mergeSort, List.mem_filter, decide_eq_true_iff,
    (indexed_ofFiles roots).messages.mem_names_iff]
  constructor
  · rintro ⟨⟨file, hfile, htext⟩, hlast⟩
    obtain ⟨message, hlisted, rfl⟩ := mem_names_iff.mp htext
    have hmessage := File.mem_allMessages_iff.mp hlisted
    have hwords := ofWords_of_hasMessage hroots hfile hmessage
    exact ⟨message.fullName, ⟨⟨file, hfile, message, hmessage, rfl⟩,
      (DottedName.getLast?_splitAt_text hwords base).mp hlast⟩, rfl⟩
  · rintro ⟨full, hends, rfl⟩
    have hlast := (DottedName.getLast?_splitAt_text (hends.ofWords hroots) base).mpr
      hends.getLast?_eq
    obtain ⟨⟨file, hfile, message, hmessage, rfl⟩, _⟩ := hends
    exact ⟨⟨file, hfile, mem_names_iff.mpr ⟨message, File.mem_allMessages_iff.mpr hmessage, rfl⟩⟩,
      hlast⟩

omit hroots in
theorem pairwise_candidates (base : String) :
    ((ofFiles roots).candidates base).Pairwise (· < ·) := by
  have hnodup : ((ofFiles roots).candidates base).Nodup :=
    (List.mergeSort_perm _ _).nodup_iff.mpr ((indexed_ofFiles roots).messages.nodup.filter _)
  have hsorted : ((ofFiles roots).candidates base).Pairwise (· ≤ ·) := by
    refine (List.pairwise_mergeSort (fun a b c => ?_) (fun a b => ?_) _).imp fun h =>
      of_decide_eq_true h
    · simpa using le_trans
    · simpa using le_total a b
  exact hsorted.imp₂ (fun _ _ hle hne => lt_of_le_of_ne hle hne) hnodup

theorem soleCorrect_soleMessage (base : String) :
    SoleCorrect (ofFiles roots).files base ((ofFiles roots).soleMessage base) := by
  have hmem {text : String} : text ∈ (ofFiles roots).candidates base ↔
      ∃ full, Ends (ofFiles roots).files base full ∧ full.text = text := mem_candidates_iff hroots
  have hsorted : ((ofFiles roots).candidates base).Pairwise (· < ·) := pairwise_candidates base
  unfold soleMessage
  split
  · next hnone =>
    refine ⟨rfl, fun full hends => ?_⟩
    have hlisted := hmem.mpr ⟨full, hends, rfl⟩
    rw [hnone] at hlisted
    cases hlisted
  · next only honly =>
    obtain ⟨full, hends, htext⟩ := hmem.mp (by rw [honly]; exact List.mem_singleton.mpr rfl)
    have hfound := lookupCorrect_message? hroots only
    rw [← htext, plainName_text (hends.ofWords hroots).startsWithWord, htext] at hfound
    cases hmessage : (ofFiles roots).message? only with
    | none =>
      rw [hmessage] at hfound
      obtain ⟨⟨file, hfile, message, hmessage, rfl⟩, _⟩ := hends
      exact absurd htext (hfound file hfile message hmessage)
    | some message =>
      rw [hmessage] at hfound
      obtain ⟨hfiles, hhas, hname, _, _⟩ := id hfound
      have hwords := ofWords_of_hasMessage hroots (by rw [hfiles]; simp) hhas
      -- Names that end in the simple name have the one candidate as their text.
      have hsame {other : DottedName} (hother : Ends (ofFiles roots).files base other) :
          other = message.fullName := by
        have hlisted := hmem.mpr ⟨other, hother, rfl⟩
        rw [honly, List.mem_singleton] at hlisted
        exact DottedName.text_injective (hother.ofWords hroots) hwords (hlisted.trans hname.symm)
      refine ⟨by rwa [hname], fun other => ⟨hsame, ?_⟩⟩
      rintro rfl
      rwa [← hsame hends]
  · next hnil hsingle =>
    refine ⟨rfl, hsorted, ?_, fun text => hmem⟩
    match hcandidates : (ofFiles roots).candidates base with
    | [] => exact absurd hcandidates hnil
    | [only] => exact absurd hcandidates (hsingle only)
    | first :: second :: rest => simp

end Lookups

/-- A lookup finds the only declaration of the name in the first file that has one, and a simple
name stands for the one full name that ends in it. -/
theorem lookups_find_first_declared (hroots : ∀ root ∈ roots, root.Built) :
    (∀ entry ∈ (ofFiles roots).messages ++ (ofFiles roots).enums ++ (ofFiles roots).services,
      entry.2 < (ofFiles roots).files.length) ∧
    (∀ name, (∀ rest, name ≠ "." ++ rest) → ∀ spelling ∈ [name, "." ++ name],
      LookupCorrect File.HasMessage (·.fullName) (ofFiles roots).files name
        ((ofFiles roots).message? spelling) ∧
      LookupCorrect File.HasEnum (·.fullName) (ofFiles roots).files name
        ((ofFiles roots).enum? spelling) ∧
      LookupCorrect File.HasService (·.fullName) (ofFiles roots).files name
        ((ofFiles roots).service? spelling)) ∧
    (∀ base, SoleCorrect (ofFiles roots).files base ((ofFiles roots).soleMessage base)) ∧
    (∀ base, (ofFiles roots).messageNamed (".." ++ base) = (ofFiles roots).soleMessage base) ∧
    ∀ name, (∀ base, name ≠ ".." ++ base) → (ofFiles roots).messageNamed name =
      ((ofFiles roots).message? name).elim (.error (.notFound name)) .ok := by
  have hindexed := indexed_ofFiles roots
  refine ⟨?_, ?_, soleCorrect_soleMessage hroots, ?_, ?_⟩
  · intro entry hentry
    simp only [List.mem_append] at hentry
    rcases hentry with (hentry | hentry) | hentry
    · exact hindexed.messages.lt_length hentry
    · exact hindexed.enums.lt_length hentry
    · exact hindexed.services.lt_length hentry
  · intro name hname spelling hspelling
    have hplain : plainName spelling = name := by
      rcases List.mem_pair.mp hspelling with rfl | rfl
      · exact plainName_of_forall_ne hname
      · exact plainName_append name
    rw [← hplain]
    exact ⟨lookupCorrect_message? hroots spelling, lookupCorrect_enum? hroots spelling,
      lookupCorrect_service? hroots spelling⟩
  · intro base
    rw [messageNamed, Text.dropLeading?_eq_some_iff.mpr rfl]
  · intro name hname
    rw [messageNamed, Text.dropLeading?_eq_none_iff.mpr hname]
    cases (ofFiles roots).message? name with
    | none => rfl
    | some message => rfl

/-- Two files declare the same message, which is found in the first. Another simple name stands for
a message inside it and for one of the second file. -/
theorem lookups_find_first_declared_twice : ∃ (first second : File), first.Built ∧ second.Built ∧
    (ofFiles [first, second]).messages = [("p.M", 0), ("p.M.N", 0), ("p.N", 1)] ∧
    ((ofFiles [first, second]).message? ".p.M").map (·.position) = some ⟨1, 20⟩ ∧
    ((ofFiles [first, second]).messageNamed "..M").toOption.map (·.position) = some ⟨1, 20⟩ ∧
    (ofFiles [first, second]).soleMessage "N" = .error (.ambiguous "N" ["p.M.N", "p.N"]) ∧
    LookupCorrect File.HasEnum (·.fullName) (ofFiles [first, second]).files "p.E"
      ((ofFiles [first, second]).enum? ".p.E") ∧
    SoleCorrect (ofFiles [first, second]).files "M"
      ((ofFiles [first, second]).soleMessage "M") := by
  let a : VirtualPath := ⟨⟨false, ["a.proto"], by decide⟩, by decide⟩
  let b : VirtualPath := ⟨⟨false, ["b.proto"], by decide⟩, by decide⟩
  let first : File := File.ofText a "package p; message M { message N {} }" []
  let second : File := File.ofText b "package p; message N {} message M {} enum E { X = 0; }" []
  have hfirst : first.Built := File.built_ofText (by decide +kernel) (by decide +kernel) (by simp)
  have hsecond : second.Built := File.built_ofText (by decide +kernel) (by decide +kernel) (by simp)
  have hroots : ∀ root ∈ [first, second], root.Built := by simpa using ⟨hfirst, hsecond⟩
  obtain ⟨_, hlookup, hsole, _, _⟩ := lookups_find_first_declared hroots
  have hdot : ∀ rest, "p.E" ≠ "." ++ rest := Text.dropLeading?_eq_none_iff.mp (by decide)
  have hfilter : ((ofFiles [first, second]).messages.map (·.1)).filter (fun name =>
      (Text.splitAt '.' name.toList).getLast? = some "N".toList) = ["p.M.N", "p.N"] := by
    decide +kernel
  have hcandidates : (ofFiles [first, second]).candidates "N" = ["p.M.N", "p.N"] := by
    rw [candidates, hfilter]
    exact List.mergeSort_of_pairwise (by decide +kernel)
  refine ⟨first, second, hfirst, hsecond, by decide +kernel, by decide +kernel, by decide +kernel,
    ?_, (hlookup "p.E" hdot ".p.E" (by decide)).2.1, hsole "M"⟩
  rw [soleMessage, hcandidates]

end Catalog

end ProtoSchema
