import ProtoSchema.Proofs.Session.History
import ProtoSchema.Proofs.Session.Publication

/-!
The first answer for a root stands. A call that obtains a complete file has met no error on its
way, since a file is complete only when all its edges lead to complete files; so the answer of
a call is told by the entry of its root alone. That entry is final and stays, whatever is
compiled or changed afterwards, and a later call reads its answer off it.
-/

namespace ProtoSchema

open Linked (File Import)

namespace Walk

variable {shop : Workshop}

/-- Edges are only added. -/
theorem Follows.edges_prefix {path statements soFar call imports after}
    (h : Follows shop path statements soFar call imports after) :
    soFar.edges <+: imports.edges := by
  induction statements generalizing soFar call with
  | nil =>
    cases h
    exact List.prefix_refl _
  | cons statement rest ih =>
    cases h with
    | invalid why hread hrest =>
      have hlater := ih hrest
      exact hlater
    | repeated target hread hseen hrest => exact ih hrest
    | followed target file between hread hnew hobtain hrest =>
      exact (List.prefix_append _ _).trans (ih hrest)

/-- What a walk obtains is the file of the entry that it leaves. -/
theorem Obtains.exists_entry {path site call file after}
    (h : Obtains shop path site call file after) :
    ∃ entry, after.ledger.entry? path = some entry ∧ entry.file? = file := by
  cases h with
  | compiled file hentry => exact ⟨_, hentry, rfl⟩
  | failed reason hentry => exact ⟨_, hentry, rfl⟩
  | cycle owner hentry => exact ⟨_, hentry, rfl⟩
  | lost loss habsent hread => exact ⟨_, Ledger.entry?_put_self _ _ _, rfl⟩
  | linked physical tree imports between habsent hread hfollow =>
    refine ⟨(shop.verdict path tree imports).2, ?_, rfl⟩
    rw [Call.obtaining_ledger, Call.closing_ledger, Ledger.entry?_put_self]

mutual

/-- A walk that obtains a complete file reports no error. -/
theorem Obtains.clean_of_complete {path site call file after}
    (h : Obtains shop path site call file after) (hjudges : shop.JudgesByEdges)
    (hcomplete : ∃ found, file = some found ∧ found.complete = true) (hclean : call.Clean) :
    after.Clean := by
  match h with
  | .compiled found _ => exact hclean.obtaining (some found)
  | .failed _ _ =>
    obtain ⟨found, hfound, _⟩ := hcomplete
    cases hfound
  | .cycle _ _ =>
    obtain ⟨found, hfound, _⟩ := hcomplete
    cases hfound
  | .lost _ _ _ =>
    obtain ⟨found, hfound, _⟩ := hcomplete
    cases hfound
  | .linked physical tree imports between _ _ hfollow =>
    obtain ⟨hbroken, hintact, _⟩ := (Workshop.verdict_isComplete_iff hjudges).mp hcomplete
    have hbetween : between.Clean := hfollow.clean_of_intact hjudges hbroken hintact hclean
    exact ((hbetween.noting (not_isError_of_isComplete hcomplete)).closing path _).obtaining _

/-- Import statements that all give intact edges are followed without an error. -/
theorem Follows.clean_of_intact {path statements soFar call imports after}
    (h : Follows shop path statements soFar call imports after) (hjudges : shop.JudgesByEdges)
    (hbroken : imports.broken = false) (hintact : ∀ edge ∈ imports.edges, edge.IsIntact)
    (hclean : call.Clean) : after.Clean := by
  match h with
  | .done => exact hclean
  | .invalid why hread hrest =>
    have hmarked := (hrest.broken_iff.mp hbroken).1
    cases hmarked
  | .repeated target hread hseen hrest =>
    refine hrest.clean_of_intact hjudges hbroken hintact (hclean.noting ?_)
    intro d hd
    rw [List.mem_singleton.mp hd]
    exact nofun
  | .followed target file between hread hnew hobtain hrest =>
    have hedge := hintact _ (hrest.edges_prefix.subset
      (List.mem_append_right _ (List.mem_singleton.mpr rfl)))
    exact hrest.clean_of_intact hjudges hbroken hintact
      (hobtain.clean_of_complete hjudges hedge hclean)

end

end Walk

namespace Session

variable {shop : Workshop} {root path : VirtualPath} {session later : Session}
  {entry : Ledger.Entry}

/-- The session may come about from an earlier one by calls one after the other, whatever files,
settings and mappings each of them works with. -/
inductive Later (session : Session) : Session → Prop
  | refl : Later session session
  | compiled {later : Session} (shop : Workshop) (root : VirtualPath)
      (hfinite : shop.store.IsFinite) (hlater : Later session later) :
      Later session (later.compile shop root).2
  | drained {later : Session} (hlater : Later session later) : Later session later.drain.2

theorem Later.idle (h : session.Later later) (hidle : session.Idle) : later.Idle := by
  induction h with
  | refl => exact hidle
  | compiled shop root hfinite _ ih => exact ih.compile hfinite root
  | drained _ ih => exact ih

/-- An entry stays once no file is in progress. -/
theorem Later.entry_stays (h : session.Later later) (hidle : session.Idle)
    (hentry : session.ledger.entry? path = some entry) :
    later.ledger.entry? path = some entry := by
  induction h with
  | refl => exact hentry
  | compiled shop root hfinite hlater ih =>
    exact ((hlater.idle hidle).course_obtains hfinite root).final_stays ih (hidle.isFinal hentry)
  | drained _ ih => exact ih

/-- The failure of a call carries the file that the call obtained. -/
theorem file_of_conclude_eq_error {file : Option File} {call : Call} {failure : ImportFailure}
    (h : (conclude root file call).1 = .error failure) : failure.file = file :=
  congrArg ImportFailure.file (eq_of_conclude_eq_error h)

/-- A call answers with a file just when the entry of its root is complete. -/
theorem Idle.compile_eq_ok_iff (h : session.Idle) (hjudges : shop.JudgesByEdges)
    (hfinite : shop.store.IsFinite) {file : File} :
    (session.compile shop root).1 = .ok file ↔
      (session.compile shop root).2.ledger.entry? root = some (.compiled file) ∧
        file.complete = true := by
  have hcourse := h.course_obtains hfinite root
  obtain ⟨entry, hentry, hfile⟩ := hcourse.exists_entry
  rw [compile_eq]
  simp only [conclude_eq_ok]
  rw [hentry, Option.some.injEq]
  constructor
  · rintro ⟨_, hsome, hcomplete⟩
    rw [hsome] at hfile
    cases entry with
    | pending owner => cases hfile
    | compiled found =>
      cases hfile
      exact ⟨rfl, hcomplete⟩
    | failed reason => cases hfile
  · rintro ⟨rfl, hcomplete⟩
    refine ⟨?_, hfile.symm, hcomplete⟩
    exact hcourse.clean_of_complete hjudges ⟨file, hfile.symm, hcomplete⟩ (List.forall_mem_nil _)

/-- A root that was compiled is handed out again. -/
theorem course_of_compiled {file : File}
    (h : session.ledger.entry? root = some (.compiled file)) :
    session.course shop root = (some file, session.opening.obtaining (some file)) :=
  Walk.run_resolve_of_entry _ (Walk.run_request_of_compiled h) (by simp)

/-- A root that failed is told of once more. -/
theorem course_of_failed {reason : Failure}
    (h : session.ledger.entry? root = some (.failed reason)) :
    session.course shop root =
      (none, session.opening.noting [ImportFault.diagnostic root none (.failedBefore reason)]) :=
  Walk.run_resolve_of_entry _ (Walk.run_request_of_failed h) (by simp)

/-- A call answers and tells what its course comes to. -/
theorem compile_of_course {file : Option File} {call : Call}
    {answer : Except ImportFailure File} {told : List Diagnostic}
    (h : session.course shop root = (file, call))
    (hconclude : conclude root file call = (answer, told)) :
    (session.compile shop root).1 = answer ∧ session.reported shop root = told := by
  rw [compile_eq, reported_eq, h, hconclude]
  exact ⟨rfl, rfl⟩

/-- A root that was compiled to a complete file gives it again, without a diagnostic. -/
theorem compile_of_complete {file : File}
    (h : session.ledger.entry? root = some (.compiled file)) (hcomplete : file.complete = true) :
    (session.compile shop root).1 = .ok file ∧ session.reported shop root = [] := by
  have hconclude : conclude root (some file) (session.opening.obtaining (some file)) =
      (.ok file, []) := by
    have hdiagnostics : (session.opening.obtaining (some file)).diagnostics = [] := rfl
    rw [conclude, hdiagnostics, if_neg (by simp)]
    simp only [hcomplete, if_true]
  exact compile_of_course (course_of_compiled h) hconclude

/-- A root that was compiled to an incomplete file fails again with that file. -/
theorem compile_of_incomplete {file : File}
    (h : session.ledger.entry? root = some (.compiled file)) (hcomplete : file.complete = false) :
    (∃ failure, (session.compile shop root).1 = .error failure ∧ failure.file = some file) ∧
      session.reported shop root = [incompleteRoot root] := by
  have hconclude : conclude root (some file) (session.opening.obtaining (some file)) =
      (.error ⟨root, some file, (session.opening.obtaining (some file)).obtained,
        [incompleteRoot root]⟩, [incompleteRoot root]) := by
    have hdiagnostics : (session.opening.obtaining (some file)).diagnostics = [] := rfl
    rw [conclude, hdiagnostics, if_neg (by simp)]
    simp only [hcomplete, Bool.false_eq_true, if_false, List.nil_append]
  obtain ⟨hanswer, hreported⟩ := compile_of_course (course_of_compiled h) hconclude
  exact ⟨⟨_, hanswer, rfl⟩, hreported⟩

/-- A root that failed fails again, for the reason that it failed for. -/
theorem compile_of_failed {reason : Failure}
    (h : session.ledger.entry? root = some (.failed reason)) :
    (∃ failure, (session.compile shop root).1 = .error failure ∧ failure.file = none) ∧
      session.reported shop root =
        [ImportFault.diagnostic root none (.failedBefore reason)] := by
  have herror : ∃ d ∈ [ImportFault.diagnostic root none (.failedBefore reason)], d.IsError :=
    ⟨_, List.mem_singleton.mpr rfl, rfl⟩
  have hconclude : conclude root none
      (session.opening.noting [ImportFault.diagnostic root none (.failedBefore reason)]) =
      (.error ⟨root, none, [], [ImportFault.diagnostic root none (.failedBefore reason)]⟩,
        [ImportFault.diagnostic root none (.failedBefore reason)]) := by
    have hdiagnostics : (session.opening.noting
        [ImportFault.diagnostic root none (.failedBefore reason)]).diagnostics =
      [ImportFault.diagnostic root none (.failedBefore reason)] := rfl
    rw [conclude, hdiagnostics, if_pos herror]
    rfl
  obtain ⟨hanswer, hreported⟩ := compile_of_course (course_of_failed h) hconclude
  exact ⟨⟨_, hanswer, rfl⟩, hreported⟩

/-- A call for a root with a final entry changes no entry and loads nothing. -/
theorem unchanged_of_isFinal (h : session.ledger.entry? root = some entry)
    (hfinal : entry.IsFinal) :
    (session.compile shop root).2.ledger = session.ledger ∧
      (session.compile shop root).2.loaded = session.loaded := by
  rw [compile_eq]
  cases entry with
  | pending owner => exact absurd hfinal (Ledger.Entry.not_isFinal_pending owner)
  | compiled file =>
    rw [course_of_compiled h]
    exact ⟨rfl, rfl⟩
  | failed reason =>
    rw [course_of_failed h]
    exact ⟨rfl, rfl⟩

/-- Where a call for a root failed, a later one fails with the same file, if any, and tells of
one error at the root itself. -/
theorem fails_again
    (hentry : session.ledger.entry? root = some entry) (hfinal : entry.IsFinal)
    (hincomplete : ∀ found, entry = .compiled found → found.complete = false) :
    ∃ failure d, (session.compile shop root).1 = .error failure ∧ failure.file = entry.file? ∧
      session.reported shop root = [d] ∧ d.IsError ∧ d.path = root ∧ d.position = .none ∧
      (entry = .failed .notFound → d.kind = .pathNotFound) ∧
      (entry ≠ .failed .notFound → d.kind = .bindFailure) := by
  cases entry with
  | pending owner => exact absurd hfinal (Ledger.Entry.not_isFinal_pending owner)
  | compiled found =>
    obtain ⟨⟨failure, hfailure, hfile⟩, hreported⟩ :=
      compile_of_incomplete hentry (hincomplete found rfl)
    exact ⟨failure, _, hfailure, hfile, hreported, rfl, rfl, rfl, nofun, fun _ => rfl⟩
  | failed reason =>
    obtain ⟨⟨failure, hfailure, hfile⟩, hreported⟩ := compile_of_failed hentry
    refine ⟨failure, _, hfailure, hfile, hreported, rfl, rfl, rfl, ?_, ?_⟩
    · intro hreason
      cases hreason
      rfl
    · intro hreason
      cases reason with
      | notFound => exact absurd rfl hreason
      | unreadable => rfl
      | syntaxErrors => rfl
      | linkErrors => rfl
      | abandoned => rfl

/-- The first answer for a root stands. Whatever was compiled before and is compiled, added or
removed afterwards, a later call for the root gives the same file or fails with the same one; it
loads nothing and changes no entry, and when it fails it tells of one error at the root itself. -/
theorem outcome_is_final {outlet : Outlet} {warnUnused : Bool}
    (hsession : (start outlet).Later session) (hlink : shop.link = Linked.link warnUnused)
    (hfinite : shop.store.IsFinite) (hlater : (session.compile shop root).2.Later later)
    (again : Workshop) :
    (later.compile again root).2.ledger = later.ledger ∧
      (later.compile again root).2.loaded = later.loaded ∧
      (∀ file, (session.compile shop root).1 = .ok file →
        (later.compile again root).1 = .ok file ∧ later.reported again root = []) ∧
      ∀ failure, (session.compile shop root).1 = .error failure →
        ∃ repeated d, (later.compile again root).1 = .error repeated ∧
          repeated.file = failure.file ∧ later.reported again root = [d] ∧
          d.IsError ∧ d.path = root ∧ d.position = .none ∧
          ((session.compile shop root).2.ledger.entry? root = some (.failed .notFound) →
            d.kind = .pathNotFound) ∧
          ((session.compile shop root).2.ledger.entry? root ≠ some (.failed .notFound) →
            d.kind = .bindFailure) := by
  have hidle := hsession.idle (start_idle outlet)
  have hafter := hidle.compile hfinite root
  obtain ⟨entry, hentry, hfile⟩ := (hidle.course_obtains hfinite root).exists_entry
  have hfirst : (session.compile shop root).2.ledger.entry? root = some entry := hentry
  have hfinal : entry.IsFinal := hafter.isFinal hfirst
  have hstays := hlater.entry_stays hafter hfirst
  have hanswer (file : File) : (session.compile shop root).1 = .ok file ↔
      (session.compile shop root).2.ledger.entry? root = some (.compiled file) ∧
        file.complete = true :=
    hidle.compile_eq_ok_iff (judgesByEdges_of_link hlink) hfinite
  have hunchanged : (later.compile again root).2.ledger = later.ledger ∧
      (later.compile again root).2.loaded = later.loaded :=
    unchanged_of_isFinal hstays hfinal
  obtain ⟨hledger, hloaded⟩ := hunchanged
  refine ⟨hledger, hloaded, fun file hok => ?_, fun failure herror => ?_⟩
  · obtain ⟨hcompiled, hcomplete⟩ := (hanswer file).mp hok
    rw [hfirst] at hcompiled
    exact compile_of_complete (hcompiled ▸ hstays) hcomplete
  · have hincomplete : ∀ found, entry = .compiled found → found.complete = false := by
      rintro found rfl
      refine Bool.eq_false_iff.mpr fun hcomplete => ?_
      rw [(hanswer found).mpr ⟨hfirst, hcomplete⟩] at herror
      cases herror
    have hsame : failure.file = entry.file? := (file_of_conclude_eq_error herror).trans hfile.symm
    rw [hfirst, hsame]
    simp only [Option.some.injEq, ne_eq]
    exact fails_again hstays hfinal hincomplete

/-- One file imports a file that is missing, the other one is complete. The missing file is added
behind the first calls, and both answers stand. -/
theorem outcome_is_final_added :
    let bytes (text : String) : List UInt8 := text.toList.map fun c => UInt8.ofNat c.toNat
    let overlay : Overlay := ⟨[⟨⟨false, [], by decide⟩, ⟨"/r"⟩⟩]⟩
    let files : MemoryFiles := ⟨[(⟨"/r/a.proto"⟩, bytes "import \"b.proto\";"),
      (⟨"/r/c.proto"⟩, bytes "message C \x7b\x7d")]⟩
    let more := files.insert ⟨"/r/b.proto"⟩ (bytes "message B \x7b\x7d")
    let shop := workshop .standard overlay files.store
    let again := workshop .standard overlay more.store
    let partly : VirtualPath := ⟨⟨false, ["a.proto"], by decide⟩, by decide⟩
    let wholly : VirtualPath := ⟨⟨false, ["c.proto"], by decide⟩, by decide⟩
    let first := ((start .silent).compile shop partly).2
    let second := (first.compile shop wholly).2
    (∃ failure repeated d, ((start .silent).compile shop partly).1 = .error failure ∧
      (second.compile again partly).1 = .error repeated ∧ failure.file.isSome = true ∧
      repeated.file = failure.file ∧ second.reported again partly = [d] ∧
      d.kind = .bindFailure) ∧
    ∃ file, (first.compile shop wholly).1 = .ok file ∧
      (second.compile again wholly).1 = .ok file ∧ second.reported again wholly = [] := by
  intro bytes overlay files more shop again partly wholly first second
  have hfirst : (start .silent).Later first := .compiled shop partly files.isFinite_store .refl
  have hlink : shop.link = Linked.link Settings.standard.warnUnused := workshop_link _ _ _
  constructor
  · have hfile : ((first.ledger.entry? partly).bind Ledger.Entry.file?).isSome = true := by
      decide +kernel
    have hfound : first.ledger.entry? partly ≠ some (.failed .notFound) := by
      intro hfailed
      rw [hfailed] at hfile
      cases hfile
    have hfails : (match ((start .silent).compile shop partly).1 with
        | .ok _ => false
        | .error failure => failure.file.isSome) = true := by
      decide +kernel
    cases hanswer : ((start .silent).compile shop partly).1 with
    | ok file =>
      rw [hanswer] at hfails
      cases hfails
    | error failure =>
      rw [hanswer] at hfails
      obtain ⟨repeated, d, hrepeated, hsame, hreported, _, _, _, _, hkind⟩ :=
        (outcome_is_final (.refl : (start .silent).Later _) hlink files.isFinite_store
          (.compiled shop wholly files.isFinite_store .refl) again).2.2.2 failure hanswer
      exact ⟨failure, repeated, d, rfl, hrepeated, hfails, hsame, hreported, hkind hfound⟩
  · have hsucceeds : (first.compile shop wholly).1.toOption.isSome = true := by decide +kernel
    cases hanswer : (first.compile shop wholly).1 with
    | ok file =>
      exact ⟨file, rfl, (outcome_is_final hfirst hlink files.isFinite_store .refl again).2.2.1
        file hanswer⟩
    | error failure =>
      rw [hanswer] at hsucceeds
      cases hsucceeds

end Session

end ProtoSchema
