import ProtoSchema.Proofs.Session.Calls

/-!
What a walk claims, and how deep it goes. The course of a walk is told again along with the
paths that it claims and the depth to which their compilations nest. A path is claimed where
it has no entry and keeps one from then on, so it is claimed once over all calls. A file whose
imports are followed has a place, so the files in progress are at most as many as have one,
and a walk that may go as deep as its course does take that course.
-/

namespace ProtoSchema

open Linked (File Import)

namespace Walk

mutual

/-- How the file at a path is obtained, with the paths claimed for it in their order and the
depth to which their compilations nest. -/
inductive Claims (shop : Workshop) : VirtualPath → Option ImportSite → Call → Option File →
    Call → List VirtualPath → Nat → Prop
  | known {path site call file after} (hknown : (call.ledger.entry? path).isSome = true)
      (hobtain : Obtains shop path site call file after) :
      Claims shop path site call file after [] 0
  | lost {path site call} (loss : Loss) (habsent : call.ledger.entry? path = none)
      (hread : shop.read path = .error loss) :
      Claims shop path site call none
        ((((call.claiming path).loading (loss.loaded path)).noting
          (loss.diagnostics path site)).closing path (.failed loss.reason)) [path] 1
  | linked {path site call claims depth} (physical : PhysicalPath) (tree : Schema.File)
      (imports : EdgeList) (between : Call) (habsent : call.ledger.entry? path = none)
      (hread : shop.read path = .ok (physical, tree))
      (hfollow : ClaimsBelow shop path tree.imports ⟨[], false⟩
        ((call.claiming path).loading [(path, physical)]) imports between claims depth) :
      Claims shop path site call (shop.verdict path tree imports).2.file?
        (((between.noting (shop.verdict path tree imports).1).closing path
          (shop.verdict path tree imports).2).obtaining (shop.verdict path tree imports).2.file?)
        (path :: claims) (depth + 1)

inductive ClaimsBelow (shop : Workshop) : VirtualPath → List Schema.Import → EdgeList → Call →
    EdgeList → Call → List VirtualPath → Nat → Prop
  | done {path soFar call} : ClaimsBelow shop path [] soFar call soFar call [] 0
  | invalid {path statement rest soFar call imports after claims depth} (why : PathFault)
      (hread : VirtualPath.read statement.path = .error why)
      (hrest : ClaimsBelow shop path rest { soFar with broken := true }
        (call.noting [StatementFault.diagnostic ⟨path, statement.position⟩
          (.invalidPath statement.path why)]) imports after claims depth) :
      ClaimsBelow shop path (statement :: rest) soFar call imports after claims depth
  | repeated {path statement rest soFar call imports after claims depth} (target : VirtualPath)
      (hread : VirtualPath.read statement.path = .ok target)
      (hseen : target ∈ soFar.edges.map (·.path))
      (hrest : ClaimsBelow shop path rest soFar
        (call.noting [StatementFault.diagnostic ⟨path, statement.position⟩
          (.repeated target)]) imports after claims depth) :
      ClaimsBelow shop path (statement :: rest) soFar call imports after claims depth
  | followed {path statement rest soFar call imports after claims depth more deeper}
      (target : VirtualPath) (file : Option File) (between : Call)
      (hread : VirtualPath.read statement.path = .ok target)
      (hnew : target ∉ soFar.edges.map (·.path))
      (hobtain : Claims shop target (some ⟨path, statement.position⟩) call file between
        claims depth)
      (hrest : ClaimsBelow shop path rest
        { soFar with
          edges := soFar.edges ++ [⟨target, statement.kind, statement.position, file⟩] }
        between imports after more deeper) :
      ClaimsBelow shop path (statement :: rest) soFar call imports after (claims ++ more)
        (max depth deeper)

end

variable {shop : Workshop}

mutual

/-- Every course of a walk claims some paths to some depth. -/
theorem Obtains.claims {path site call file after} (h : Obtains shop path site call file after) :
    ∃ claims depth, Claims shop path site call file after claims depth := by
  match h with
  | .compiled file hentry => exact ⟨[], 0, .known (by rw [hentry]; rfl) (.compiled file hentry)⟩
  | .failed reason hentry => exact ⟨[], 0, .known (by rw [hentry]; rfl) (.failed reason hentry)⟩
  | .cycle owner hentry => exact ⟨[], 0, .known (by rw [hentry]; rfl) (.cycle owner hentry)⟩
  | .lost loss habsent hread => exact ⟨[path], 1, .lost loss habsent hread⟩
  | .linked physical tree imports between habsent hread hfollow =>
    obtain ⟨claims, depth, hbelow⟩ := hfollow.claims
    exact ⟨path :: claims, depth + 1, .linked physical tree imports between habsent hread hbelow⟩

theorem Follows.claims {path statements soFar call imports after}
    (h : Follows shop path statements soFar call imports after) :
    ∃ claims depth, ClaimsBelow shop path statements soFar call imports after claims depth := by
  match h with
  | .done => exact ⟨[], 0, .done⟩
  | .invalid why hread hrest =>
    obtain ⟨claims, depth, hbelow⟩ := hrest.claims
    exact ⟨claims, depth, .invalid why hread hbelow⟩
  | .repeated target hread hseen hrest =>
    obtain ⟨claims, depth, hbelow⟩ := hrest.claims
    exact ⟨claims, depth, .repeated target hread hseen hbelow⟩
  | .followed target file between hread hnew hobtain hrest =>
    obtain ⟨claims, depth, hfirst⟩ := hobtain.claims
    obtain ⟨more, deeper, hbelow⟩ := hrest.claims
    exact ⟨claims ++ more, max depth deeper,
      .followed target file between hread hnew hfirst hbelow⟩

end

mutual

theorem Claims.obtains {path site call file after claims depth}
    (h : Claims shop path site call file after claims depth) :
    Obtains shop path site call file after := by
  match h with
  | .known _ hobtain => exact hobtain
  | .lost loss habsent hread => exact .lost loss habsent hread
  | .linked physical tree imports between habsent hread hfollow =>
    exact .linked physical tree imports between habsent hread hfollow.follows

theorem ClaimsBelow.follows {path statements soFar call imports after claims depth}
    (h : ClaimsBelow shop path statements soFar call imports after claims depth) :
    Follows shop path statements soFar call imports after := by
  match h with
  | .done => exact .done
  | .invalid why hread hrest => exact .invalid why hread hrest.follows
  | .repeated target hread hseen hrest => exact .repeated target hread hseen hrest.follows
  | .followed target file between hread hnew hobtain hrest =>
    exact .followed target file between hread hnew hobtain.obtains hrest.follows

end

structure Fresh (before after : Ledger) (claims : List VirtualPath) : Prop where
  nodup : claims.Nodup
  absent : ∀ p ∈ claims, before.entry? p = none
  present : ∀ p ∈ claims, after.entry? p ≠ none

namespace Fresh

variable {before between after : Ledger} {path : VirtualPath} {claims more : List VirtualPath}

theorem nil : Fresh before after [] :=
  ⟨.nil, List.forall_mem_nil _, List.forall_mem_nil _⟩

/-- The file at a path is claimed, those below it, and then its result is handed in. -/
theorem cons {first last : Ledger.Entry} (habsent : before.entry? path = none)
    (h : Fresh (before.put path first) between claims) :
    Fresh before (between.put path last) (path :: claims) where
  nodup := by
    refine List.nodup_cons.mpr ⟨fun hmem => ?_, h.nodup⟩
    have hnone := h.absent path hmem
    rw [Ledger.entry?_put_self] at hnone
    cases hnone
  absent := by
    refine List.forall_mem_cons.mpr ⟨habsent, fun p hp => ?_⟩
    have hnone := h.absent p hp
    rw [Ledger.entry?_put] at hnone
    split at hnone
    · cases hnone
    · exact hnone
  present := by
    refine List.forall_mem_cons.mpr ⟨by simp, fun p hp => ?_⟩
    rw [Ledger.entry?_put]
    split
    · simp
    · exact h.present p hp

theorem append (h : Fresh before between claims) (hmore : Fresh between after more)
    (hbefore : ∀ p, between.entry? p = none → before.entry? p = none)
    (hafter : ∀ p, after.entry? p = none → between.entry? p = none) :
    Fresh before after (claims ++ more) where
  nodup := by
    refine List.nodup_append.mpr ⟨h.nodup, hmore.nodup, ?_⟩
    rintro p hp _ hp' rfl
    exact h.present p hp (hmore.absent p hp')
  absent := List.forall_mem_append.mpr ⟨h.absent, fun p hp => hbefore p (hmore.absent p hp)⟩
  present := List.forall_mem_append.mpr
    ⟨fun p hp hnone => h.present p hp (hafter p hnone), hmore.present⟩

end Fresh

mutual

/-- A walk claims only paths without an entry, each of them once. -/
theorem Claims.fresh {path site call file after claims depth}
    (h : Claims shop path site call file after claims depth) (hs : call.Standing) :
    Fresh call.ledger after.ledger claims := by
  match h with
  | .known _ _ => exact .nil
  | .lost loss habsent _ =>
    have hnone : Fresh (call.claiming path).ledger (call.claiming path).ledger [] := .nil
    exact .cons habsent hnone
  | .linked physical tree imports between habsent _ hfollow =>
    rw [Call.obtaining_ledger, Call.closing_ledger, Call.noting_ledger]
    exact .cons habsent (hfollow.fresh ((hs.claiming habsent).loading [(path, physical)]))

theorem ClaimsBelow.fresh {path statements soFar call imports after claims depth}
    (h : ClaimsBelow shop path statements soFar call imports after claims depth)
    (hs : call.Standing) : Fresh call.ledger after.ledger claims := by
  match h with
  | .done => exact .nil
  | .invalid _ _ hrest => exact hrest.fresh (hs.noting _)
  | .repeated _ _ _ hrest => exact hrest.fresh (hs.noting _)
  | .followed _ _ between _ _ hobtain hrest =>
    have hbetween := (hobtain.obtains.standing hs).1
    exact (hobtain.fresh hs).append (hrest.fresh hbetween)
      (fun p => hobtain.obtains.absent_before hs)
      fun p => hrest.follows.absent_before hbetween

end

mutual

/-- The files in progress and those that nest in them are at most one more than have a place,
for only the innermost may lack it. -/
theorem Claims.depth_le {path site call file after claims depth}
    (h : Claims shop path site call file after claims depth) (hfinite : shop.store.IsFinite)
    (hs : call.Standing) (hfile : ∀ p ∈ call.stack, shop.overlay.HasFile shop.store p) :
    depth + call.stack.length ≤ {p | shop.overlay.HasFile shop.store p}.ncard + 1 := by
  have hstack := Overlay.length_le_ncard hfinite hs.nodup hfile
  match h with
  | .known _ _ => omega
  | .lost _ _ _ => omega
  | .linked physical tree imports between habsent hread hfollow =>
    obtain ⟨place, _, hplace, _⟩ := Workshop.reads_iff.mpr ⟨physical, hread⟩
    have hbelow := hfollow.depth_le hfinite ((hs.claiming habsent).loading [(path, physical)]) (by
      rw [Call.loading_stack, Call.claiming_stack]
      exact List.forall_mem_append.mpr ⟨hfile, List.forall_mem_singleton.mpr ⟨place, hplace⟩⟩)
    rw [Call.loading_stack, Call.claiming_stack, List.length_append, List.length_singleton]
      at hbelow
    omega

theorem ClaimsBelow.depth_le {path statements soFar call imports after claims depth}
    (h : ClaimsBelow shop path statements soFar call imports after claims depth)
    (hfinite : shop.store.IsFinite) (hs : call.Standing)
    (hfile : ∀ p ∈ call.stack, shop.overlay.HasFile shop.store p) :
    depth + call.stack.length ≤ {p | shop.overlay.HasFile shop.store p}.ncard + 1 := by
  match h with
  | .done =>
    have hstack := Overlay.length_le_ncard hfinite hs.nodup hfile
    omega
  | .invalid _ _ hrest => exact hrest.depth_le hfinite (hs.noting _) hfile
  | .repeated _ _ _ hrest => exact hrest.depth_le hfinite (hs.noting _) hfile
  | .followed _ _ between _ _ hobtain hrest =>
    obtain ⟨hbetween, hstack, _⟩ := hobtain.obtains.standing hs
    have hfirst := hobtain.depth_le hfinite hs hfile
    have hbelow := hrest.depth_le hfinite hbetween (hstack ▸ hfile)
    rw [hstack] at hbelow
    omega

end

/-- An entry that is there is answered at any depth. -/
theorem run_resolve_of_known {path site call file after} (bound : Nat)
    (hknown : (call.ledger.entry? path).isSome = true)
    (h : Obtains shop path site call file after) :
    (resolve shop bound path site).run call = (file, after) := by
  cases h with
  | compiled file hentry =>
    exact run_resolve_of_entry bound (run_request_of_compiled hentry) (by simp)
  | failed reason hentry =>
    exact run_resolve_of_entry bound (run_request_of_failed hentry) (by simp)
  | cycle owner hentry =>
    exact run_resolve_of_entry bound (run_request_of_pending hentry) (by simp)
  | lost loss habsent hread =>
    rw [habsent] at hknown
    cases hknown
  | linked physical tree imports between habsent hread hfollow =>
    rw [habsent] at hknown
    cases hknown

mutual

/-- A walk that may go as deep as its course does takes it. -/
theorem Claims.run {path site call file after claims depth}
    (h : Claims shop path site call file after claims depth) {bound : Nat}
    (hbound : depth ≤ bound) :
    (resolve shop bound path site).run call = (file, after) := by
  match h with
  | .known hknown hobtain => exact run_resolve_of_known bound hknown hobtain
  | .lost loss habsent hread =>
    obtain ⟨b, rfl⟩ := Nat.exists_eq_add_of_le' hbound
    exact run_resolve_of_lost b site habsent hread
  | .linked physical tree imports between habsent hread hfollow =>
    obtain ⟨b, rfl⟩ := Nat.exists_eq_add_of_le' (Nat.le_trans (Nat.le_add_left 1 _) hbound)
    exact run_resolve_of_read b site habsent hread (hfollow.run (Nat.le_of_succ_le_succ hbound))

theorem ClaimsBelow.run {path statements soFar call imports after claims depth}
    (h : ClaimsBelow shop path statements soFar call imports after claims depth) {bound : Nat}
    (hbound : depth ≤ bound) :
    (statements.foldlM (followImport (resolve shop bound) path) soFar).run call =
      (imports, after) := by
  match h with
  | .done => rfl
  | .invalid why hread hrest =>
    rw [run_followImports_cons _ _ _ (run_followImport_of_invalid hread)]
    exact hrest.run hbound
  | .repeated target hread hseen hrest =>
    rw [run_followImports_cons _ _ _ (run_followImport_of_repeated hread hseen)]
    exact hrest.run hbound
  | .followed target file between hread hnew hobtain hrest =>
    have hfirst := hobtain.run (Nat.le_trans (Nat.le_max_left _ _) hbound)
    rw [run_followImports_cons _ _ _ (run_followImport_of_new hread hnew hfirst)]
    exact hrest.run (Nat.le_trans (Nat.le_max_right _ _) hbound)

end

end Walk

namespace Session

variable {shop : Workshop} {session : Session} {claimed : List VirtualPath}

/-- The session comes about by calls one after the other, whatever they work with, and these
have claimed the paths in this order. -/
inductive Claimed : List VirtualPath → Session → Prop
  | start (outlet : Outlet) : Claimed [] (start outlet)
  | compiled {claimed claims : List VirtualPath} {session : Session} {depth : Nat}
      (shop : Workshop) (root : VirtualPath) (hfinite : shop.store.IsFinite)
      (hsession : Claimed claimed session)
      (hcourse : Walk.Claims shop root none session.opening (session.course shop root).1
        (session.course shop root).2 claims depth) :
      Claimed (claimed ++ claims) (session.compile shop root).2
  | drained {claimed : List VirtualPath} {session : Session} (hsession : Claimed claimed session) :
      Claimed claimed session.drain.2

/-- Between calls nothing is in progress, and what was claimed has an entry, each claimed once. -/
theorem Claimed.settled (h : Claimed claimed session) :
    session.Idle ∧ claimed.Nodup ∧ ∀ p ∈ claimed, session.ledger.entry? p ≠ none := by
  induction h with
  | start outlet => exact ⟨start_idle outlet, .nil, List.forall_mem_nil _⟩
  | @compiled claimed claims session depth shop root hfinite hsession hcourse ih =>
    obtain ⟨hidle, hnodup, hpresent⟩ := ih
    have hstanding := hidle.opening_standing
    have hearlier : Walk.Fresh .empty session.ledger claimed :=
      ⟨hnodup, fun _ _ => rfl, hpresent⟩
    have hall := hearlier.append (hcourse.fresh hstanding) (fun _ _ => rfl)
      fun p => hcourse.obtains.absent_before hstanding
    exact ⟨hidle.compile hfinite root, hall.nodup, hall.present⟩
  | drained hsession ih => exact ih

/-- Every call comes to an end, also where files import themselves or each other: its course is
a finite one. No path is claimed twice in all calls of a session. Compilations nest at most one
deeper than there are paths with a file, and a walk that is let go at least as deep as the course
does is the same walk. -/
theorem calls_come_to_an_end (h : Claimed claimed session) (shop : Workshop)
    (hfinite : shop.store.IsFinite) (root : VirtualPath) :
    ∃ claims depth,
      Walk.Claims shop root none session.opening (session.course shop root).1
        (session.course shop root).2 claims depth ∧
      (claimed ++ claims).Nodup ∧
      {path | shop.overlay.HasFile shop.store path}.Finite ∧
      depth ≤ {path | shop.overlay.HasFile shop.store path}.ncard + 1 ∧
      ∀ bound, depth ≤ bound →
        (Walk.resolve shop bound root none).run session.opening = session.course shop root := by
  have hidle := h.settled.1
  have hstanding := hidle.opening_standing
  obtain ⟨claims, depth, hcourse⟩ := (hidle.course_obtains hfinite root).claims
  have hall := (Claimed.compiled shop root hfinite h hcourse).settled
  have hdepth := hcourse.depth_le hfinite hstanding (List.forall_mem_nil _)
  exact ⟨claims, depth, hcourse, hall.2.1, Overlay.finite_hasFile hfinite, hdepth,
    fun bound hbound => hcourse.run hbound⟩

/-- A file that imports itself and another one, which imports it back and one that is missing. -/
theorem calls_come_to_an_end_cycles :
    let bytes (text : String) : List UInt8 := text.toList.map fun c => UInt8.ofNat c.toNat
    let overlay : Overlay := ⟨[⟨⟨false, [], by decide⟩, ⟨"/r"⟩⟩]⟩
    let files : MemoryFiles := ⟨[
      (⟨"/r/a.proto"⟩, bytes "import \"a.proto\"; import \"b.proto\";"),
      (⟨"/r/b.proto"⟩, bytes "import \"a.proto\"; import \"c.proto\";")]⟩
    let shop := workshop .standard overlay files.store
    let root : VirtualPath := ⟨⟨false, ["a.proto"], by decide⟩, by decide⟩
    ((start .silent).course shop root).2.diagnostics.map (·.kind) =
        [.importCycle, .importCycle, .pathNotFound] ∧
      ∃ claims depth,
        Walk.Claims shop root none (start .silent).opening ((start .silent).course shop root).1
          ((start .silent).course shop root).2 claims depth ∧
        ([] ++ claims).Nodup ∧
        {path | shop.overlay.HasFile shop.store path}.Finite ∧
        depth ≤ {path | shop.overlay.HasFile shop.store path}.ncard + 1 ∧
        ∀ bound, depth ≤ bound → (Walk.resolve shop bound root none).run (start .silent).opening =
          (start .silent).course shop root := by
  intro bytes overlay files shop root
  exact ⟨by decide +kernel,
    calls_come_to_an_end (.start .silent) shop files.isFinite_store root⟩

end Session

end ProtoSchema
