import ProtoSchema.Proofs.Linked.References
import ProtoSchema.Proofs.Schema.Bodies
import ProtoSchema.Proofs.Text.Split

/-!
Full names and their texts. The components of the full names in a file that was linked are words
of its text. Words have no dots, so that the text of a full name has its components between its
dots and no other full name has the same text.
-/

namespace ProtoSchema

theorem Scanned.IsWord.dot_notMem {word : String} (h : Scanned.IsWord word) :
    '.' ∉ word.toList := by
  obtain ⟨c, cs, rfl, hstart, hrest⟩ := h
  rw [String.toList_ofList]
  intro hdot
  rcases List.mem_cons.mp hdot with rfl | hdot
  · exact absurd hstart (by decide)
  · exact absurd (hrest '.' hdot) (by decide)

namespace DottedName

structure OfWords (name : DottedName) : Prop where
  ne_nil : name ≠ []
  words : ∀ part ∈ name, Scanned.IsWord part

variable {name other : DottedName}

theorem ofWords_member {scope : DottedName} {last : String}
    (hscope : ∀ part ∈ scope, Scanned.IsWord part) (hlast : Scanned.IsWord last) :
    (scope.member last).OfWords :=
  ⟨by simp [member], List.forall_mem_append.mpr ⟨hscope, by rwa [List.forall_mem_singleton]⟩⟩

theorem OfWords.startsWithWord (h : name.OfWords) : name.StartsWithWord := by
  obtain ⟨first, rest, rfl⟩ := List.exists_cons_of_ne_nil h.ne_nil
  exact ⟨first, rest, rfl, h.words first List.mem_cons_self⟩

/-- The text of a name has its components between the dots. -/
theorem splitAt_text (h : name.OfWords) :
    Text.splitAt '.' name.text.toList = name.map String.toList := by
  have hdots : ∀ piece ∈ name.map String.toList, '.' ∉ piece := by
    intro piece hpiece
    obtain ⟨part, hpart, rfl⟩ := List.mem_map.mp hpiece
    exact (h.words part hpart).dot_notMem
  rw [text, String.toList_intercalate]
  exact Text.splitAt_intercalate '.' (by simpa using h.ne_nil) hdots

theorem text_injective (h : name.OfWords) (hother : other.OfWords)
    (htext : name.text = other.text) : name = other := by
  have hpieces : name.map String.toList = other.map String.toList := by
    rw [← splitAt_text h, htext, splitAt_text hother]
  exact List.map_injective_iff.mpr (fun _ _ => String.toList_injective) hpieces

/-- The last piece of the text is the last component. -/
theorem getLast?_splitAt_text (h : name.OfWords) (base : String) :
    (Text.splitAt '.' name.text.toList).getLast? = some base.toList ↔
      name.getLast? = some base := by
  rw [splitAt_text h, List.getLast?_map, Option.map_eq_some_iff]
  constructor
  · rintro ⟨last, hlast, hsame⟩
    rw [hlast, String.toList_injective hsame]
  · exact fun hlast => ⟨base, hlast, rfl⟩

end DottedName

namespace Schema.File

variable {tokens : List Token} {file : File} {region : Region}

theorem HasRegion.words_scope (hwords : ∀ word position, ⟨.word word, position⟩ ∈ tokens →
    Scanned.IsWord word) (h : file.ReadFrom tokens) (hregion : file.HasRegion region) :
    ∀ part ∈ region.scope, Scanned.IsWord part := by
  induction hregion with
  | outer =>
    intro part hpart
    change part ∈ file.package.getD [] at hpart
    cases hpackage : file.package with
    | none =>
      rw [hpackage] at hpart
      cases hpart
    | some name =>
      rw [hpackage] at hpart
      obtain ⟨position, hmem⟩ := h.package name hpackage part hpart
      exact hwords part position hmem
  | inner hregion hmessage ih =>
    obtain ⟨hname, _, _⟩ := (hregion.readFrom h).messages _ hmessage
    exact (DottedName.ofWords_member ih (hwords _ _ hname)).words

/-- What a file declares as a message, an enum or a service has a name made of words. -/
theorem Declares.ofWords (hwords : ∀ word position, ⟨.word word, position⟩ ∈ tokens →
    Scanned.IsWord word) (h : file.ReadFrom tokens) {name : DottedName} {kind : Linked.SymbolKind}
    (hkind : kind ∈ [.message, .enum, .service]) (hdeclares : file.Declares name kind) :
    name.OfWords := by
  cases hdeclares with
  | message hregion hmessage =>
    obtain ⟨hname, _, _⟩ := (hregion.readFrom h).messages _ hmessage
    exact DottedName.ofWords_member (hregion.words_scope hwords h) (hwords _ _ hname)
  | enum hregion henum =>
    have hname := (hregion.readFrom h).enums _ henum
    exact DottedName.ofWords_member (hregion.words_scope hwords h) (hwords _ _ hname)
  | service hservice =>
    exact DottedName.ofWords_member (HasRegion.outer.words_scope hwords h)
      (hwords _ _ (h.services _ hservice))
  | _ => simp at hkind

end Schema.File

namespace Linked

structure Spelled (names : List DottedName) : Prop where
  nodup : names.Nodup
  ofWords : ∀ name ∈ names, name.OfWords

namespace File

structure WellNamed (file : File) : Prop where
  messages : Spelled (file.allMessages.map (·.fullName))
  enums : Spelled (file.allEnums.map (·.fullName))
  services : Spelled (file.services.map (·.fullName))

theorem Built.wellNamed {file : File} (h : file.Built) : file.WellNamed := by
  induction h with
  | @link _ _ _ _ _ outcome hread hlink _ _ =>
    have hagree := symbolsAgree_of_link hlink
    obtain ⟨tokens, stop, htokens, hsteps⟩ := Schema.File.steps_of_read hread
    have hwords (word : String) (position : Position) (hmem : ⟨.word word, position⟩ ∈ tokens) :
        Scanned.IsWord word := (Token.wellRead htokens).words _ hmem word rfl
    have hspelled {kind : SymbolKind} {names : List DottedName}
        (hkind : kind ∈ [.message, .enum, .service]) (hlists : outcome.file.Lists kind names) :
        Spelled names := by
      refine ⟨hlists.nodup, fun name hname => ?_⟩
      have hdeclares := (hagree.symbol?_iff name kind).mp ((hlists.mem_iff name).mp hname)
      exact hdeclares.ofWords hwords (Schema.File.readFrom_of_steps hsteps) hkind
    exact ⟨hspelled (by simp) hagree.messages, hspelled (by simp) hagree.enums,
      hspelled (by simp) hagree.services⟩
  | incomplete _ ih => exact ⟨ih.messages, ih.enums, ih.services⟩

end File

end Linked

end ProtoSchema
