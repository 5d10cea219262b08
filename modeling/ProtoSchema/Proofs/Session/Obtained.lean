import ProtoSchema.Proofs.Session.Collecting
import ProtoSchema.Proofs.Session.Consistency

/-!
What a failed call delivers. In the course of a call files are asked for, by the call for its root
and by import statements for the paths that they name. Whatever is answered with a file is
collected, and nothing else is; so the failure has a file for just those paths for which one was
obtained, and has the files that the call itself has published behind all that they import.
-/

namespace ProtoSchema

open Linked (File Import)

namespace Walk

/-- In the course of a walk the file at `other` is asked for, with that answer: by the walk
itself, or inside an import statement of the file that is walked. -/
inductive Asks (shop : Workshop) : Nat → VirtualPath → Option ImportSite → Call →
    VirtualPath → Option File → Prop
  | itself {depth path site call answer} (after : Call)
      (hrun : (resolve shop depth path site).run call = (answer, after)) :
      Asks shop depth path site call path answer
  | inside {depth path site call other answer} (physical : PhysicalPath) (tree : Schema.File)
      (first : List Schema.Import) (statement : Schema.Import) (rest : List Schema.Import)
      (soFar : EdgeList) (between : Call) (target : VirtualPath)
      (habsent : call.ledger.entry? path = none)
      (hread : shop.read path = .ok (physical, tree))
      (hstatements : tree.imports = first ++ statement :: rest)
      (hfollow : (followImports (resolve shop depth) path first).run
        ((call.claiming path).loading [(path, physical)]) = (soFar, between))
      (htarget : VirtualPath.read statement.path = .ok target)
      (hnew : target ∉ soFar.edges.map (·.path))
      (hinside : Asks shop depth target (some ⟨path, statement.position⟩) between other answer) :
      Asks shop (depth + 1) path site call other answer

variable {shop : Workshop} {base : Ledger} {call between after : Call}
  {path other target : VirtualPath} {site : Option ImportSite} {depth : Nat} {file : File}
  {answer : Option File}

/-- What following all statements collects is there in the end. -/
private theorem obtained_grows_resolve (depth : Nat) (site : Option ImportSite)
    {physical : PhysicalPath} {tree : Schema.File} {imports : EdgeList}
    (habsent : call.ledger.entry? path = none) (hread : shop.read path = .ok (physical, tree))
    (hfollow : (followImports (resolve shop depth) path tree.imports).run
      ((call.claiming path).loading [(path, physical)]) = (imports, between)) :
    between.obtained <+: ((resolve shop (depth + 1) path site).run call).2.obtained := by
  rw [run_resolve_of_read depth site habsent hread hfollow]
  exact Call.prefix_obtaining ((between.noting _).closing path _) _

/-- An answer that is a file is collected. -/
theorem Asks.mem_obtained (h : Asks shop depth path site call other answer)
    (hkeeps : shop.KeepsEdges) (hjudges : shop.JudgesByEdges) (hcollects : call.Collects base)
    (hanswer : answer = some file) :
    file ∈ ((resolve shop depth path site).run call).2.obtained ∧ file.path = other := by
  induction h with
  | itself after hrun =>
    obtain ⟨-, hfile⟩ := collects_of_resolve hkeeps hjudges hcollects hrun
    rw [hrun]
    exact hfile file hanswer
  | @inside depth path site call other answer physical tree first statement rest soFar between
      target habsent hread hstatements hfollow htarget hnew _ ih =>
    have hbetween := collects_of_claimed hkeeps hjudges hcollects habsent hfollow
    obtain ⟨hmem, hpath⟩ := ih hbetween hanswer
    refine ⟨?_, hpath⟩
    generalize hrun : (resolve shop depth target (some ⟨path, statement.position⟩)).run between =
      found at hmem
    obtain ⟨answered, inner⟩ := found
    generalize hall : (followImports (resolve shop depth) path tree.imports).run
      ((call.claiming path).loading [(path, physical)]) = found
    obtain ⟨imports, outer⟩ := found
    -- What the inner request collects lasts through the other statements and the linking.
    have hrest := hall
    rw [hstatements, run_followImports_split rest hfollow htarget hnew hrun] at hrest
    exact ((extends_of_follow hrest).obtained_grows.trans
      (obtained_grows_resolve depth site habsent hread hall)).subset hmem

def AsksBelow (shop : Workshop) (depth : Nat) (path : VirtualPath)
    (statements : List Schema.Import) (call : Call) (other : VirtualPath)
    (answer : Option File) : Prop :=
  ∃ first statement rest soFar between target, statements = first ++ statement :: rest ∧
    (followImports (resolve shop depth) path first).run call = (soFar, between) ∧
    VirtualPath.read statement.path = .ok target ∧ target ∉ soFar.edges.map (·.path) ∧
    Asks shop depth target (some ⟨path, statement.position⟩) between other answer

theorem AsksBelow.append {statements : List Schema.Import}
    (h : AsksBelow shop depth path statements call other answer) (more : List Schema.Import) :
    AsksBelow shop depth path (statements ++ more) call other answer := by
  obtain ⟨first, statement, rest, soFar, between, target, rfl, hinside⟩ := h
  exact ⟨first, statement, rest ++ more, soFar, between, target, by simp, hinside⟩

theorem AsksBelow.asks {physical : PhysicalPath} {tree : Schema.File}
    (h : AsksBelow shop depth path tree.imports
      ((call.claiming path).loading [(path, physical)]) other answer)
    (habsent : call.ledger.entry? path = none) (hread : shop.read path = .ok (physical, tree)) :
    Asks shop (depth + 1) path site call other answer := by
  obtain ⟨first, statement, rest, soFar, between, target, hstatements, hfollow, htarget, hnew,
    hinside⟩ := h
  exact .inside physical tree first statement rest soFar between target habsent hread hstatements
    hfollow htarget hnew hinside

def Answers (shop : Workshop) (base : Ledger) (depth : Nat) : Prop :=
  ∀ path site (call : Call) file, call.Collects base →
    file ∈ ((resolve shop depth path site).run call).2.obtained →
    file ∈ call.obtained ∨ Asks shop depth path site call file.path (some file)

/-- What statements collect is there before, or is an answer inside one of them. -/
theorem Answers.followImports (h : Answers shop base depth) (hkeeps : shop.KeepsEdges)
    (hjudges : shop.JudgesByEdges) {physical : PhysicalPath} {statements : List Schema.Import}
    {imports : EdgeList} (hcollects : call.Collects base)
    (habsent : call.ledger.entry? path = none)
    (hfollow : (Walk.followImports (resolve shop depth) path statements).run
      ((call.claiming path).loading [(path, physical)]) = (imports, after))
    (hmem : file ∈ after.obtained) :
    file ∈ call.obtained ∨ AsksBelow shop depth path statements
      ((call.claiming path).loading [(path, physical)]) file.path (some file) := by
  induction statements using List.reverseRecOn generalizing imports after with
  | nil =>
    cases hfollow
    exact .inl hmem
  | append_singleton statements last ih =>
    generalize hfirst : (Walk.followImports (resolve shop depth) path statements).run
      ((call.claiming path).loading [(path, physical)]) = found
    obtain ⟨soFar, between⟩ := found
    have hearlier (hthere : file ∈ between.obtained) :=
      (ih hfirst hthere).imp_right (·.append [last])
    have hlast : (followImport (resolve shop depth) path soFar last).run between =
        (imports, after) := by
      rw [← hfollow]
      unfold Walk.followImports at hfirst ⊢
      rw [List.foldlM_append, run_bind hfirst, List.foldlM_cons]
      simp
    cases hread : VirtualPath.read last.path with
    | error why =>
      cases (run_followImport_of_invalid hread).symm.trans hlast
      exact hearlier hmem
    | ok target =>
      by_cases hseen : target ∈ soFar.edges.map (·.path)
      · cases (run_followImport_of_repeated hread hseen).symm.trans hlast
        exact hearlier hmem
      · generalize hrun : (resolve shop depth target (some ⟨path, last.position⟩)).run between =
          found
        obtain ⟨answered, inner⟩ := found
        cases (run_followImport_of_new hread hseen hrun).symm.trans hlast
        have hbetween := collects_of_claimed hkeeps hjudges hcollects habsent hfirst
        rcases h target (some ⟨path, last.position⟩) between file hbetween (hrun ▸ hmem) with
          hthere | hasks
        · exact hearlier hthere
        · exact .inr ⟨statements, last, [], soFar, between, target, rfl, hfirst, hread, hseen,
            hasks⟩

private theorem mem_or_asks_of_entry (hcollects : call.Collects base) {entry : Ledger.Entry}
    (hentry : call.ledger.entry? path = some entry)
    (hmem : file ∈ ((resolve shop depth path site).run call).2.obtained) :
    file ∈ call.obtained ∨ Asks shop depth path site call file.path (some file) := by
  cases entry with
  | pending owner =>
    rw [run_resolve_of_entry depth (run_request_of_pending hentry) (by simp)] at hmem
    exact .inl hmem
  | failed reason =>
    rw [run_resolve_of_failed depth site hentry] at hmem
    exact .inl hmem
  | compiled found =>
    have hrun : (resolve shop depth path site).run call =
        (some found, call.obtaining (some found)) :=
      run_resolve_of_entry depth (run_request_of_compiled hentry) (by simp)
    rw [hrun] at hmem
    refine (Call.mem_obtaining hmem).imp_right ?_
    rintro ⟨⟩
    rw [hcollects.path_eq path file hentry]
    exact .itself _ hrun

/-- The induction is on the depth: the files below a claimed one are walked one level down. -/
theorem answers_resolve (hkeeps : shop.KeepsEdges) (hjudges : shop.JudgesByEdges) (base : Ledger)
    (depth : Nat) : Answers shop base depth := by
  induction depth with
  | zero =>
    intro path site call file hcollects hmem
    cases hentry : call.ledger.entry? path with
    | some entry => exact mem_or_asks_of_entry hcollects hentry hmem
    | none =>
      rw [run_resolve_of_exhausted site hentry] at hmem
      exact .inl hmem
  | succ depth ih =>
    intro path site call file hcollects hmem
    cases hentry : call.ledger.entry? path with
    | some entry => exact mem_or_asks_of_entry hcollects hentry hmem
    | none =>
      cases hread : shop.read path with
      | error loss =>
        rw [run_resolve_of_lost depth site hentry hread] at hmem
        exact .inl hmem
      | ok found =>
        obtain ⟨physical, tree⟩ := found
        generalize hfollow : (Walk.followImports (resolve shop depth) path tree.imports).run
          ((call.claiming path).loading [(path, physical)]) = found
        obtain ⟨imports, between⟩ := found
        have hrun := run_resolve_of_read depth site hentry hread hfollow
        rw [hrun] at hmem
        rcases Call.mem_obtaining hmem with hbetween | hfile
        · exact (ih.followImports hkeeps hjudges hcollects hentry hfollow hbetween).imp_right
            (·.asks hentry hread)
        · obtain ⟨-, hanswer⟩ := collects_of_resolve hkeeps hjudges hcollects hrun
          rw [(hanswer file hfile).2]
          exact .inr (.itself _ (hfile ▸ hrun))

end Walk

namespace Session

variable {shop : Workshop} {session : Session} {root path : VirtualPath} {file : File}
  {failure : ImportFailure} {warnUnused : Bool}

/-- The sessions that come about when one call follows the other, each with the linker of this
library. Parser, mappings and files are any, for each call. -/
inductive WellLinked : Session → Prop
  | start (outlet : Outlet) : WellLinked (start outlet)
  | compiled {session : Session} (shop : Workshop) (root : VirtualPath) (warnUnused : Bool)
      (hlink : shop.link = Linked.link warnUnused) (hsession : WellLinked session) :
      WellLinked (session.compile shop root).2
  | drained {session : Session} (hsession : WellLinked session) : WellLinked session.drain.2

/-- A call begins with nothing collected. -/
theorem opening_collects
    (h : ∀ path file, session.ledger.entry? path = some (.compiled file) → file.path = path) :
    session.opening.Collects session.ledger where
  nodup := List.nodup_nil
  published := nofun
  path_eq := h
  collected _ _ := .inl
  importsFirst := .nil _

theorem course_collects (root : VirtualPath) (hlink : shop.link = Linked.link warnUnused)
    (h : session.opening.Collects session.ledger) :
    (session.course shop root).2.Collects session.ledger ∧
      ∀ found, (session.course shop root).1 = some found →
        found ∈ (session.course shop root).2.obtained ∧ found.path = root :=
  Walk.collects_of_resolve (keepsEdges_of_link hlink) (judgesByEdges_of_link hlink) h rfl

theorem WellLinked.opening_collects (h : session.WellLinked) :
    session.opening.Collects session.ledger := by
  induction h with
  | start outlet => exact Session.opening_collects nofun
  | compiled shop root warnUnused hlink _ ih =>
    exact Session.opening_collects (course_collects root hlink ih).1.path_eq
  | drained _ ih => exact Session.opening_collects ih.path_eq

/-- The files of a failed call: one for each path that was asked for and obtained, the one that is
published there. What this call published comes behind all that it imports. -/
structure Delivers (shop : Workshop) (root : VirtualPath) (session : Session)
    (failure : ImportFailure) : Prop where
  nodup : (failure.obtained.map (·.path)).Nodup
  published : ∀ file ∈ failure.obtained,
    (session.compile shop root).2.ledger.entry? file.path = some (.compiled file)
  file_eq_some_iff : ∀ file, failure.file = some file ↔
    file ∈ failure.obtained ∧ file.path = root
  importsFirst : ∀ path file,
    (session.compile shop root).2.ledger.entry? path = some (.compiled file) →
    session.ledger.entry? path ≠ some (.compiled file) →
    ∃ earlier later, failure.obtained = earlier ++ file :: later ∧
      ∀ target ∈ file.dependencies, target ∈ earlier
  mem_iff : ∀ path file, file ∈ failure.obtained ∧ file.path = path ↔
    Walk.Asks shop (depthBound shop) root none session.opening path (some file)

/-- A failed call delivers all that it obtained, in an order in which imports come first. -/
theorem partial_results_in_order (hsession : session.WellLinked)
    (hlink : shop.link = Linked.link warnUnused)
    (hfailure : (session.compile shop root).1 = .error failure) :
    session.Delivers shop root failure := by
  have hkeeps := keepsEdges_of_link hlink
  have hjudges := judgesByEdges_of_link hlink
  have hopening := hsession.opening_collects
  obtain ⟨hcourse, hroot⟩ := course_collects root hlink hopening
  have hanswer : failure = ⟨root, (session.course shop root).1,
      (session.course shop root).2.obtained, _⟩ := eq_of_conclude_eq_error hfailure
  rw [hanswer]
  refine ⟨hcourse.nodup, hcourse.published, fun file => ?_, fun path file hfile hnew => ?_,
    fun path file => ?_⟩
  · refine ⟨hroot file, ?_⟩
    rintro ⟨hmem, rfl⟩
    exact course_eq_some_iff.mpr (hcourse.published file hmem)
  · have hmem := (hcourse.collected path file hfile).resolve_left hnew
    obtain ⟨earlier, later, hsplit⟩ := List.append_of_mem hmem
    have hpath := hcourse.path_eq path file hfile
    exact ⟨earlier, later, hsplit,
      hcourse.importsFirst earlier file later hsplit fun hold => hnew (hpath ▸ hold)⟩
  · constructor
    · rintro ⟨hmem, rfl⟩
      exact (Walk.answers_resolve hkeeps hjudges session.ledger (depthBound shop) root none
        session.opening file hopening hmem).resolve_left nofun
    · intro hasks
      exact hasks.mem_obtained hkeeps hjudges hopening rfl

/-- A file that was compiled by an earlier call, one that imports it, and one that is missing. -/
theorem partial_results_in_order_cached : ∃ (shop : Workshop) (session : Session)
    (root cached : VirtualPath) (failure : ImportFailure), session.WellLinked ∧
    (session.ledger.entry? cached).isSome = true ∧
    (session.compile shop root).1 = .error failure ∧
    failure.obtained.map (·.path.text) = ["b.proto", "d.proto", "a.proto"] ∧
    session.Delivers shop root failure := by
  let bytes (text : String) : List UInt8 := text.toList.map fun c => UInt8.ofNat c.toNat
  let root : VirtualPath := ⟨⟨false, ["a.proto"], by decide⟩, by decide⟩
  let cached : VirtualPath := ⟨⟨false, ["b.proto"], by decide⟩, by decide⟩
  let overlay : Overlay := ⟨[⟨⟨false, [], by decide⟩, ⟨"/r"⟩⟩]⟩
  let files : MemoryFiles := ⟨[
    (⟨"/r/a.proto"⟩, bytes "import \"c.proto\"; import \"d.proto\"; import \"b.proto\";"),
    (⟨"/r/b.proto"⟩, bytes "message B \x7b\x7d"),
    (⟨"/r/d.proto"⟩, bytes "import \"b.proto\";")]⟩
  let shop : Workshop := workshop .standard overlay files.store
  let session : Session := ((start .silent).compile shop cached).2
  have hlink : shop.link = Linked.link Settings.standard.warnUnused := workshop_link _ _ _
  have hsession : session.WellLinked := .compiled shop cached _ hlink (.start .silent)
  have hpaths : (match (session.compile shop root).1 with
      | .ok _ => none
      | .error failure => some (failure.obtained.map (·.path.text))) =
        some ["b.proto", "d.proto", "a.proto"] := by
    decide +kernel
  cases hanswer : (session.compile shop root).1 with
  | ok file =>
    rw [hanswer] at hpaths
    cases hpaths
  | error failure =>
    rw [hanswer] at hpaths
    exact ⟨shop, session, root, cached, failure, hsession, by decide +kernel, hanswer,
      Option.some.inj hpaths, partial_results_in_order hsession hlink hanswer⟩

end Session

end ProtoSchema
