import ProtoSchema.Proofs.Session.Publication
import ProtoSchema.Proofs.Session.Trail

/-!
The files that a call collects. A file is added when it is found compiled or is handed in, once
for its path, since the ledger has one file for each. A file that is handed in has just been
linked against edges that were followed before, and whatever these reached is there already; so
it comes behind what it imports. A file from an earlier call may come before its imports, or
without them.
-/

namespace ProtoSchema

open Linked (File Import)

def Linked.ImportsFirst (older : File → Prop) (files : List File) : Prop :=
  ∀ earlier file later, files = earlier ++ file :: later → ¬older file →
    ∀ target ∈ file.dependencies, target ∈ earlier

theorem Linked.ImportsFirst.nil (older : File → Prop) : ImportsFirst older [] := by
  intro earlier file later heq
  cases (List.nil_eq_append_iff.mp heq).2

theorem Linked.ImportsFirst.concat {older : File → Prop} {files : List File} {file : File}
    (h : ImportsFirst older files)
    (hfile : ¬older file → ∀ target ∈ file.dependencies, target ∈ files) :
    ImportsFirst older (files ++ [file]) := by
  intro earlier other later heq
  rcases later.eq_nil_or_concat with rfl | ⟨later, last, rfl⟩
  · obtain ⟨rfl, hlast⟩ := List.append_inj' heq rfl
    rwa [← List.singleton_inj.mp hlast]
  · rw [List.concat_eq_append, ← List.cons_append, ← List.append_assoc] at heq
    exact h earlier other later (List.append_inj' heq rfl).1

namespace Call

variable {call between after claimed : Call} {path : VirtualPath} {entry : Ledger.Entry}
  {owner : Worker} {file : File} {base : Ledger} {edges : List Import}

structure Extends (after call : Call) : Prop where
  entry_stays : ∀ path entry, call.ledger.entry? path = some entry →
    after.ledger.entry? path = some entry
  obtained_grows : call.obtained <+: after.obtained

theorem Extends.of_eq (hledger : after.ledger = call.ledger)
    (hobtained : call.obtained <+: after.obtained) : after.Extends call :=
  ⟨fun _ _ hentry => hledger ▸ hentry, hobtained⟩

theorem Extends.refl (call : Call) : call.Extends call := .of_eq rfl (List.prefix_refl _)

theorem Extends.noting (call : Call) (ds : List Diagnostic) : (call.noting ds).Extends call :=
  .of_eq rfl (List.prefix_refl _)

theorem Extends.trans (h : between.Extends call) (h' : after.Extends between) :
    after.Extends call :=
  ⟨fun path entry hentry => h'.entry_stays path entry (h.entry_stays path entry hentry),
    h.obtained_grows.trans h'.obtained_grows⟩

/-- The one entry that is replaced is that of the claim. -/
theorem Extends.closing (h : between.Extends claimed) (habsent : call.ledger.entry? path = none)
    (hclaimed : claimed.ledger = call.ledger.put path (.pending owner))
    (hsame : claimed.obtained = call.obtained)
    (hledger : after.ledger = between.ledger.put path entry)
    (hobtained : between.obtained <+: after.obtained) : after.Extends call where
  entry_stays other found hfound := by
    have hne : other ≠ path := by
      rintro rfl
      rw [habsent] at hfound
      cases hfound
    rw [hledger, Ledger.entry?_put_of_ne _ _ _ _ hne]
    refine h.entry_stays other found ?_
    rwa [hclaimed, Ledger.entry?_put_of_ne _ _ _ _ hne]
  obtained_grows := hsame ▸ h.obtained_grows.trans hobtained

theorem prefix_obtaining (call : Call) (file : Option File) :
    call.obtained <+: (call.obtaining file).obtained := by
  cases file with
  | none => exact List.prefix_refl _
  | some file =>
    rw [obtaining]
    split
    · exact List.prefix_refl _
    · exact List.prefix_append _ _

theorem mem_obtaining {found : Option File} (h : file ∈ (call.obtaining found).obtained) :
    file ∈ call.obtained ∨ found = some file := by
  cases found with
  | none => exact .inl h
  | some other =>
    rw [obtaining] at h
    split at h
    · exact .inl h
    · rcases List.mem_append.mp h with hold | hnew
      · exact .inl hold
      · exact .inr (congrArg some (List.mem_singleton.mp hnew).symm)

/-- What a call has collected since the ledger was the base: one file for each path, the one that
is published there, and all that were published since, each behind its imports. -/
structure Collects (base : Ledger) (call : Call) : Prop where
  nodup : (call.obtained.map (·.path)).Nodup
  published : ∀ file ∈ call.obtained, call.ledger.entry? file.path = some (.compiled file)
  path_eq : ∀ path file, call.ledger.entry? path = some (.compiled file) → file.path = path
  collected : ∀ path file, call.ledger.entry? path = some (.compiled file) →
    base.entry? path = some (.compiled file) ∨ file ∈ call.obtained
  importsFirst : Linked.ImportsFirst
    (fun file => base.entry? file.path = some (.compiled file)) call.obtained

def HasTargets (call : Call) (edges : List Import) : Prop :=
  ∀ edge ∈ edges, ∀ target, edge.target = some target → target ∈ call.obtained

theorem HasTargets.mono (h : call.HasTargets edges)
    (hobtained : call.obtained <+: after.obtained) : after.HasTargets edges :=
  fun edge hedge target htarget => hobtained.subset (h edge hedge target htarget)

theorem Collects.of_eq (h : call.Collects base) (hledger : after.ledger = call.ledger)
    (hobtained : after.obtained = call.obtained) : after.Collects base where
  nodup := hobtained ▸ h.nodup
  published := by
    rw [hobtained, hledger]
    exact h.published
  path_eq := by
    rw [hledger]
    exact h.path_eq
  collected := by
    rw [hobtained, hledger]
    exact h.collected
  importsFirst := hobtained ▸ h.importsFirst

theorem Collects.path_ne (h : call.Collects base)
    (hopen : ∀ found, call.ledger.entry? path ≠ some (.compiled found))
    (hfile : file ∈ call.obtained) : file.path ≠ path := by
  rintro rfl
  exact hopen file (h.published file hfile)

/-- An entry without a file takes no part. -/
theorem Collects.put (h : call.Collects base)
    (hopen : ∀ found, call.ledger.entry? path ≠ some (.compiled found))
    (hledger : after.ledger = call.ledger.put path entry)
    (hobtained : after.obtained = call.obtained) (hentry : ∀ found, entry ≠ .compiled found) :
    after.Collects base := by
  have hcompiled (other : VirtualPath) (found : File) :
      after.ledger.entry? other = some (.compiled found) →
        call.ledger.entry? other = some (.compiled found) := by
    rw [hledger, Ledger.entry?_put]
    split
    · intro heq
      exact absurd (Option.some.inj heq) (hentry found)
    · exact id
  refine ⟨hobtained ▸ h.nodup, ?_, fun other found hfound => h.path_eq other found
    (hcompiled other found hfound), ?_, hobtained ▸ h.importsFirst⟩
  · intro found hfound
    rw [hobtained] at hfound
    rw [hledger, Ledger.entry?_put_of_ne _ _ _ _ (h.path_ne hopen hfound)]
    exact h.published found hfound
  · intro other found hfound
    rw [hobtained]
    exact h.collected other found (hcompiled other found hfound)

/-- A file that is published at a path of which there is none comes last. -/
theorem Collects.concat (h : call.Collects base) (hpath : file.path = path)
    (hnew : ∀ other ∈ call.obtained, other.path ≠ path)
    (hfound : after.ledger.entry? path = some (.compiled file))
    (hothers : ∀ other, other ≠ path → after.ledger.entry? other = call.ledger.entry? other)
    (hobtained : after.obtained = call.obtained ++ [file])
    (himports : base.entry? path ≠ some (.compiled file) →
      ∀ target ∈ file.dependencies, target ∈ call.obtained) : after.Collects base where
  nodup := by
    rw [hobtained, List.map_append, List.map_singleton, ← List.concat_eq_append, hpath]
    refine h.nodup.concat fun hold => ?_
    obtain ⟨other, hother, heq⟩ := List.mem_map.mp hold
    exact hnew other hother heq
  published other hother := by
    rw [hobtained, List.mem_append, List.mem_singleton] at hother
    rcases hother with hold | rfl
    · rw [hothers _ (hnew other hold)]
      exact h.published other hold
    · rwa [hpath]
  path_eq other found hentry := by
    by_cases hother : other = path
    · rw [hother, hfound] at hentry
      cases hentry
      exact hpath.trans hother.symm
    · rw [hothers other hother] at hentry
      exact h.path_eq other found hentry
  collected other found hentry := by
    rw [hobtained, List.mem_append, List.mem_singleton]
    by_cases hother : other = path
    · rw [hother, hfound] at hentry
      cases hentry
      exact .inr (.inr rfl)
    · rw [hothers other hother] at hentry
      exact (h.collected other found hentry).imp_right .inl
  importsFirst := by
    rw [hobtained]
    exact h.importsFirst.concat fun hnewer => himports (hpath ▸ hnewer)

theorem obtaining_of_new (hnew : ∀ other ∈ call.obtained, other.path ≠ file.path) :
    (call.obtaining (some file)).obtained = call.obtained ++ [file] := by
  have hany : ¬call.obtained.any (·.path = file.path) = true := by
    rintro hany
    obtain ⟨other, hother, heq⟩ := List.any_eq_true.mp hany
    exact hnew other hother (of_decide_eq_true heq)
  rw [obtaining, if_neg hany]

/-- A file that was compiled before is there, or is added. -/
theorem Collects.obtaining (h : call.Collects base)
    (hentry : call.ledger.entry? path = some (.compiled file)) :
    (call.obtaining (some file)).Collects base ∧ file ∈ (call.obtaining (some file)).obtained := by
  have hpath := h.path_eq path file hentry
  by_cases hmem : file ∈ call.obtained
  · have hany : call.obtained.any (·.path = file.path) = true :=
      List.any_eq_true.mpr ⟨file, hmem, decide_eq_true rfl⟩
    have hsame : (call.obtaining (some file)).obtained = call.obtained := by
      rw [Call.obtaining, if_pos hany]
    exact ⟨h.of_eq rfl hsame, hsame ▸ hmem⟩
  · have hnew : ∀ other ∈ call.obtained, other.path ≠ path := by
      rintro other hother rfl
      rw [h.published other hother, Option.some.injEq, Ledger.Entry.compiled.injEq] at hentry
      exact hmem (hentry ▸ hother)
    have hobtained := obtaining_of_new fun other hother => hpath ▸ hnew other hother
    -- Published and not collected, the file is from before the base and may lack its imports.
    refine ⟨h.concat hpath hnew hentry (fun _ _ => rfl) hobtained fun hnewer => ?_, ?_⟩
    · exact absurd ((h.collected path file hentry).resolve_right hmem) hnewer
    · rw [hobtained]
      exact List.mem_append_right _ (List.mem_singleton.mpr rfl)

/-- A file that is handed in is added behind what it imports. -/
theorem Collects.publishing (h : call.Collects base)
    (hopen : ∀ found, call.ledger.entry? path ≠ some (.compiled found)) (hpath : file.path = path)
    (himports : call.HasTargets file.imports) :
    ((call.closing path (.compiled file)).obtaining (some file)).Collects base ∧
      file ∈ ((call.closing path (.compiled file)).obtaining (some file)).obtained := by
  have hnew : ∀ other ∈ call.obtained, other.path ≠ path := fun _ => h.path_ne hopen
  have hnewer : ∀ other ∈ (call.closing path (.compiled file)).obtained,
      other.path ≠ file.path := fun other hother => hpath ▸ hnew other hother
  have hobtained : ((call.closing path (.compiled file)).obtaining (some file)).obtained =
      call.obtained ++ [file] := obtaining_of_new hnewer
  refine ⟨h.concat hpath hnew (Ledger.entry?_put_self _ _ _)
    (fun other hother => Ledger.entry?_put_of_ne _ _ _ _ hother) hobtained fun _ => ?_, ?_⟩
  · intro target htarget
    obtain ⟨edge, hedge, hreached⟩ := Linked.File.mem_dependencies.mp htarget
    exact himports edge hedge target hreached
  · rw [hobtained]
    exact List.mem_append_right _ (List.mem_singleton.mpr rfl)

end Call

namespace Walk

variable {shop : Workshop} {base : Ledger}

mutual

/-- A walk takes away no entry and no file. -/
theorem Relays.extends {depth path site relay file after}
    (h : Relays shop depth path site relay file after) : after.call.Extends relay.call := by
  match h with
  | .compiled file _ => exact .of_eq rfl (Call.prefix_obtaining _ _)
  | .failed _ _ => exact .noting _ _
  | .cycle _ _ => exact .noting _ _
  | .abandoned habsent =>
    exact (Call.Extends.refl (relay.call.claiming path)).closing habsent rfl rfl rfl
      (List.prefix_refl _)
  | .lost loss habsent _ =>
    exact (Call.Extends.refl (relay.call.claiming path)).closing habsent rfl rfl rfl
      (List.prefix_refl _)
  | .linked physical tree imports between habsent _ hfollow =>
    exact hfollow.extends.closing habsent rfl rfl (Call.obtaining_ledger _)
      (Call.prefix_obtaining ((between.call.noting _).closing path _) _)

theorem RelaysBelow.extends {depth path statements soFar relay imports after}
    (h : RelaysBelow shop depth path statements soFar relay imports after) :
    after.call.Extends relay.call := by
  match h with
  | .done => exact .refl _
  | .invalid _ _ hrest => exact (Call.Extends.noting relay.call _).trans hrest.extends
  | .repeated _ _ _ hrest => exact (Call.Extends.noting relay.call _).trans hrest.extends
  | .followed _ _ _ _ _ hrelay hrest => exact hrelay.extends.trans hrest.extends

end

mutual

/-- A walk collects what it obtains, under the path that was asked for. -/
theorem Relays.collects {depth path site relay file after}
    (h : Relays shop depth path site relay file after) (hkeeps : shop.KeepsEdges)
    (hjudges : shop.JudgesByEdges) (hcollects : relay.call.Collects base) :
    after.call.Collects base ∧
      ∀ found, file = some found → found ∈ after.call.obtained ∧ found.path = path := by
  match h with
  | .compiled file hentry =>
    obtain ⟨hafter, hmem⟩ := hcollects.obtaining hentry
    refine ⟨hafter, ?_⟩
    rintro _ ⟨⟩
    exact ⟨hmem, hcollects.path_eq path file hentry⟩
  | .failed _ _ => exact ⟨hcollects.of_eq rfl rfl, nofun⟩
  | .cycle _ _ => exact ⟨hcollects.of_eq rfl rfl, nofun⟩
  | .abandoned habsent =>
    have hclaimed : (relay.call.claiming path).Collects base :=
      hcollects.put (by simp [habsent]) rfl rfl nofun
    exact ⟨hclaimed.put (by simp) rfl rfl nofun, nofun⟩
  | .lost loss habsent _ =>
    have hclaimed : (relay.call.claiming path).Collects base :=
      hcollects.put (by simp [habsent]) rfl rfl nofun
    exact ⟨hclaimed.put (by simp) rfl rfl nofun, nofun⟩
  | .linked physical tree imports between habsent _ hfollow =>
    have hclaimed : ((relay.call.claiming path).loading [(path, physical)]).Collects base :=
      hcollects.put (by simp [habsent]) rfl rfl nofun
    obtain ⟨hbetween, htargets⟩ :=
      hfollow.collects hkeeps hjudges hclaimed fun edge hedge => nomatch hedge
    have hnoted : (between.call.noting (shop.verdict path tree imports).1).Collects base :=
      hbetween.of_eq rfl rfl
    -- The claim still stands, so nothing has been collected for the path in the meantime.
    have hpending : between.call.ledger.entry? path = some (.pending relay.call.worker) :=
      hfollow.extends.entry_stays path _ (Ledger.entry?_put_self _ _ _)
    have hopen : ∀ found, between.call.ledger.entry? path ≠ some (.compiled found) := by
      simp [hpending]
    cases hverdict : (shop.verdict path tree imports).2 with
    | pending owner =>
      exact absurd (hverdict ▸ shop.verdict_isFinal path tree imports)
        (Ledger.Entry.not_isFinal_pending owner)
    | failed reason => exact ⟨hnoted.put hopen rfl rfl nofun, nofun⟩
    | compiled file =>
      obtain ⟨hpath, himports, -⟩ := Workshop.verdict_eq_compiled hkeeps hjudges hverdict
      obtain ⟨hafter, hmem⟩ := hnoted.publishing hopen hpath (himports ▸ htargets)
      refine ⟨hafter, ?_⟩
      rintro _ ⟨⟩
      exact ⟨hmem, hpath⟩

/-- What the statements reach is collected before the file that they stand in. -/
theorem RelaysBelow.collects {depth path statements soFar relay imports after}
    (h : RelaysBelow shop depth path statements soFar relay imports after)
    (hkeeps : shop.KeepsEdges) (hjudges : shop.JudgesByEdges)
    (hcollects : relay.call.Collects base) (htargets : relay.call.HasTargets soFar.edges) :
    after.call.Collects base ∧ after.call.HasTargets imports.edges := by
  match h with
  | .done => exact ⟨hcollects, htargets⟩
  | .invalid _ _ hrest =>
    exact hrest.collects hkeeps hjudges (hcollects.of_eq rfl rfl) htargets
  | .repeated _ _ _ hrest =>
    exact hrest.collects hkeeps hjudges (hcollects.of_eq rfl rfl) htargets
  | .followed target file between _ _ hrelay hrest =>
    obtain ⟨hbetween, hfile⟩ := hrelay.collects hkeeps hjudges hcollects
    refine hrest.collects hkeeps hjudges hbetween ?_
    intro edge hedge found hfound
    rcases List.mem_append.mp hedge with hold | hnew
    · exact (htargets.mono hrelay.extends.obtained_grows) edge hold found hfound
    · rw [List.mem_singleton.mp hnew] at hfound
      exact (hfile found hfound).1

end

variable {call after : Call} {path : VirtualPath} {depth : Nat} {site : Option ImportSite}
  {file : Option File} {statements : List Schema.Import} {soFar imports : EdgeList}

theorem extends_of_follow
    (hrun : (statements.foldlM (followImport (resolve shop depth) path) soFar).run call =
      (imports, after)) : after.Extends call := by
  obtain ⟨outlet, hrelays⟩ := followImports_relays path (resolve_relays shop depth) statements
    soFar ⟨call, .silent⟩
  rw [hrun] at hrelays
  exact hrelays.extends

theorem collects_of_resolve (hkeeps : shop.KeepsEdges) (hjudges : shop.JudgesByEdges)
    (hcollects : call.Collects base)
    (hrun : (resolve shop depth path site).run call = (file, after)) :
    after.Collects base ∧
      ∀ found, file = some found → found ∈ after.obtained ∧ found.path = path := by
  obtain ⟨outlet, hrelays⟩ := resolve_relays shop depth path site ⟨call, .silent⟩
  rw [hrun] at hrelays
  exact hrelays.collects hkeeps hjudges hcollects

/-- The call with the path claimed collects what is found by its import statements. -/
theorem collects_of_claimed {physical : PhysicalPath} (hkeeps : shop.KeepsEdges)
    (hjudges : shop.JudgesByEdges) (hcollects : call.Collects base)
    (habsent : call.ledger.entry? path = none)
    (hrun : (followImports (resolve shop depth) path statements).run
      ((call.claiming path).loading [(path, physical)]) = (imports, after)) :
    after.Collects base := by
  have hclaimed : ((call.claiming path).loading [(path, physical)]).Collects base :=
    hcollects.put (by simp [habsent]) rfl rfl nofun
  obtain ⟨outlet, hrelays⟩ := followImports_relays path (resolve_relays shop depth) statements
    ⟨[], false⟩ ⟨(call.claiming path).loading [(path, physical)], .silent⟩
  rw [followImports] at hrun
  rw [hrun] at hrelays
  exact (hrelays.collects hkeeps hjudges hclaimed fun edge hedge => nomatch hedge).1

end Walk

end ProtoSchema
