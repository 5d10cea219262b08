import ProtoSchema.Proofs.Session.Course

/-!
What a walk hands in. As long as no cycle is reported, every entry that a walk
makes final is the one that its path settles to, whatever was compiled before
and in whichever order files are met. The edges of a file are then those that
its statements give by themselves.
-/

namespace ProtoSchema

open Linked (File)

def Ledger.entryOf (ledger : Ledger) (path : VirtualPath) : Ledger.Entry :=
  (ledger.entry? path).getD (.failed .abandoned)

namespace Schema

variable {statement : Import} {target : VirtualPath}

theorem Import.target?_of_read_ok (h : VirtualPath.read statement.path = .ok target) :
    statement.target? = some target := by
  rw [target?, h]
  rfl

theorem Import.target?_of_read_error {why : PathFault}
    (h : VirtualPath.read statement.path = .error why) : statement.target? = none := by
  rw [target?, h]
  rfl

theorem firstImports_of_none {seen : List VirtualPath} {rest : List Import}
    (h : statement.target? = none) :
    firstImports seen (statement :: rest) = firstImports seen rest := by
  rw [firstImports, h]

theorem firstImports_of_mem {seen : List VirtualPath} {rest : List Import}
    (h : statement.target? = some target) (hseen : target ∈ seen) :
    firstImports seen (statement :: rest) = firstImports seen rest := by
  rw [firstImports, h]
  simp only [hseen, if_true]

theorem firstImports_of_notMem {seen : List VirtualPath} {rest : List Import}
    (h : statement.target? = some target) (hnew : target ∉ seen) :
    firstImports seen (statement :: rest) =
      (target, statement) :: firstImports (seen ++ [target]) rest := by
  rw [firstImports, h]
  simp only [hnew, if_false]

end Schema

namespace Call

abbrev CycleFree (call : Call) : Prop := call.OnlyReports (·.kind ≠ .importCycle)

def Settled (shop : Workshop) (call : Call) : Prop :=
  ∀ path entry, call.ledger.entry? path = some entry → entry.IsFinal → shop.Settles path entry

def Knows (call : Call) (path : VirtualPath) : Prop :=
  ∃ entry, call.ledger.entry? path = some entry ∧ entry.IsFinal

structure Gathers (shop : Workshop) (statements : List Schema.Import) (soFar imports : EdgeList)
    (after : Call) : Prop where
  settled : after.Settled shop
  edges_eq : imports.edges = soFar.edges ++
    (Schema.firstImports (soFar.edges.map (·.path)) statements).map (edgeTo after.ledger.entryOf)
  broken_eq : imports.broken = (soFar.broken || statements.any (·.target?.isNone))
  knows : ∀ statement ∈ statements, ∀ target, statement.target? = some target →
    target ∈ soFar.edges.map (·.path) ∨ after.Knows target

variable {shop : Workshop} {call after : Call} {path : VirtualPath} {entry : Ledger.Entry}

theorem Settled.of_ledger_eq (h : call.Settled shop) (heq : after.ledger = call.ledger) :
    after.Settled shop := by
  intro path entry hentry
  rw [heq] at hentry
  exact h path entry hentry

theorem Settled.claiming (h : call.Settled shop) (path : VirtualPath) :
    (call.claiming path).Settled shop := by
  intro other entry hentry hfinal
  rw [claiming_ledger, Ledger.entry?_put] at hentry
  split at hentry
  · cases hentry
    exact absurd hfinal (Ledger.Entry.not_isFinal_pending call.worker)
  · exact h other entry hentry hfinal

theorem Settled.closing (h : call.Settled shop) (hentry : shop.Settles path entry) :
    (call.closing path entry).Settled shop := by
  intro other found hfound hfinal
  rw [closing_ledger, Ledger.entry?_put] at hfound
  split at hfound
  · next heq =>
    cases hfound
    rw [heq]
    exact hentry
  · exact h other found hfound hfinal

theorem Settled.settles_entryOf (h : call.Settled shop) (hknows : call.Knows path) :
    shop.Settles path (call.ledger.entryOf path) := by
  obtain ⟨entry, hentry, hfinal⟩ := hknows
  rw [Ledger.entryOf, hentry]
  exact h path entry hentry hfinal

/-- A file whose statements are all followed has the edges of its tree. -/
theorem Gathers.imports_eq {tree : Schema.File} {imports : EdgeList}
    (h : Gathers shop tree.imports ⟨[], false⟩ imports after) :
    imports = edgeList after.ledger.entryOf tree := by
  obtain ⟨edges, broken⟩ := imports
  have hedges := h.edges_eq
  have hbroken := h.broken_eq
  simp only [List.nil_append, List.map_nil, Bool.false_or] at hedges hbroken
  rw [hedges, hbroken, edgeList]

theorem Gathers.settles {tree : Schema.File} {imports : EdgeList}
    (h : Gathers shop tree.imports ⟨[], false⟩ imports after) {target : VirtualPath}
    (hnames : tree.Names target) : shop.Settles target (after.ledger.entryOf target) := by
  obtain ⟨statement, hmem, htarget⟩ := hnames
  rcases h.knows statement hmem target htarget with hnone | hknows
  · cases hnone
  · exact h.settled.settles_entryOf hknows

theorem Gathers.settles_verdict {physical : PhysicalPath} {tree : Schema.File}
    {imports : EdgeList} (h : Gathers shop tree.imports ⟨[], false⟩ imports after)
    (hread : shop.read path = .ok (physical, tree)) :
    shop.Settles path (shop.verdict path tree imports).2 := by
  rw [h.imports_eq]
  exact .linked physical tree _ hread fun target hnames => h.settles hnames

section Gathering

variable {statement : Schema.Import} {rest : List Schema.Import} {soFar imports : EdgeList}
  {target : VirtualPath}

/-- A statement without a target marks the edges broken and adds none. -/
theorem Gathers.cons_invalid (h : Gathers shop rest { soFar with broken := true } imports after)
    (htarget : statement.target? = none) :
    Gathers shop (statement :: rest) soFar imports after := by
  refine ⟨h.settled, ?_, ?_, ?_⟩
  · rw [h.edges_eq, Schema.firstImports_of_none htarget]
  · rw [h.broken_eq, List.any_cons, htarget]
    simp
  · intro other hmem named hnamed
    rcases List.mem_cons.mp hmem with rfl | hmem
    · rw [htarget] at hnamed
      cases hnamed
    · exact h.knows other hmem named hnamed

theorem Gathers.cons_repeated (h : Gathers shop rest soFar imports after)
    (htarget : statement.target? = some target) (hseen : target ∈ soFar.edges.map (·.path)) :
    Gathers shop (statement :: rest) soFar imports after := by
  refine ⟨h.settled, ?_, ?_, ?_⟩
  · rw [h.edges_eq, Schema.firstImports_of_mem htarget hseen]
  · rw [h.broken_eq, List.any_cons, htarget]
    simp
  · intro other hmem named hnamed
    rcases List.mem_cons.mp hmem with rfl | hmem
    · rw [htarget] at hnamed
      cases hnamed
      exact .inl hseen
    · exact h.knows other hmem named hnamed

/-- The first statement for a path adds the edge to what the path came to. -/
theorem Gathers.cons_followed
    (h : Gathers shop rest { soFar with
      edges := soFar.edges ++ [⟨target, statement.kind, statement.position, entry.file?⟩] }
      imports after)
    (htarget : statement.target? = some target) (hnew : target ∉ soFar.edges.map (·.path))
    (hentry : after.ledger.entry? target = some entry) (hfinal : entry.IsFinal) :
    Gathers shop (statement :: rest) soFar imports after := by
  refine ⟨h.settled, ?_, ?_, ?_⟩
  · rw [h.edges_eq, Schema.firstImports_of_notMem htarget hnew, List.map_cons,
      List.map_append, edgeTo, Ledger.entryOf, hentry, Option.getD_some]
    simp
  · rw [h.broken_eq, List.any_cons, htarget]
    simp
  · intro other hmem named hnamed
    rcases List.mem_cons.mp hmem with rfl | hmem
    · rw [htarget] at hnamed
      cases hnamed
      exact .inr ⟨entry, hentry, hfinal⟩
    · rcases h.knows other hmem named hnamed with hseen | hknows
      · rw [List.map_append, List.mem_append] at hseen
        rcases hseen with hseen | hseen
        · exact .inl hseen
        · cases List.mem_singleton.mp hseen
          exact .inr ⟨entry, hentry, hfinal⟩
      · exact .inr hknows

end Gathering

/-- The diagnostic of a cycle is of the kind of cycles. -/
theorem not_cycleFree_cycle {chain : List VirtualPath} {site : Option ImportSite} :
    ¬(call.noting [ImportFault.diagnostic path site (.cycle chain)]).CycleFree := by
  intro h
  refine h _ (List.mem_append_right _ (List.mem_singleton.mpr rfl)) ?_
  cases site <;> rfl

end Call

namespace Walk

variable {shop : Workshop}

mutual

/-- Where no cycle is reported, what a walk finds settles, and the file that is
obtained is that of the entry of its path. -/
theorem Obtains.settles {path site call file after}
    (h : Obtains shop path site call file after) (hsettled : call.Settled shop)
    (hfree : after.CycleFree) :
    after.Settled shop ∧
      ∃ entry, after.ledger.entry? path = some entry ∧ entry.IsFinal ∧ entry.file? = file := by
  match h with
  | .compiled file hentry => exact ⟨hsettled, _, hentry, trivial, rfl⟩
  | .failed reason hentry => exact ⟨hsettled, _, hentry, trivial, rfl⟩
  | .cycle owner hentry => exact absurd hfree Call.not_cycleFree_cycle
  | .lost loss habsent hread =>
    exact ⟨(hsettled.claiming path).closing (.lost loss hread), _,
      Ledger.entry?_put_self _ _ _, trivial, rfl⟩
  | .linked physical tree imports between habsent hread hfollow =>
    have hgathers := hfollow.gathers (hsettled.claiming path)
      (hfree.of_prefix (Call.prefix_linked between))
    refine ⟨?_, (shop.verdict path tree imports).2, ?_, shop.verdict_isFinal path tree imports, rfl⟩
    · exact (hgathers.settled.closing (hgathers.settles_verdict hread)).of_ledger_eq
        (Call.obtaining_ledger _)
    · rw [Call.obtaining_ledger, Call.closing_ledger]
      exact Ledger.entry?_put_self _ _ _

theorem Follows.gathers {path statements soFar call imports after}
    (h : Follows shop path statements soFar call imports after) (hsettled : call.Settled shop)
    (hfree : after.CycleFree) :
    Call.Gathers shop statements soFar imports after := by
  match h with
  | .done => exact ⟨hsettled, by simp [Schema.firstImports], by simp, by simp⟩
  | .invalid why hread hrest =>
    exact (hrest.gathers hsettled hfree).cons_invalid (Schema.Import.target?_of_read_error hread)
  | .repeated target hread hseen hrest =>
    exact (hrest.gathers hsettled hfree).cons_repeated
      (Schema.Import.target?_of_read_ok hread) hseen
  | .followed target file between hread hnew hobtain hrest =>
    obtain ⟨hsettled', entry, hentry, hfinal, hfile⟩ :=
      hobtain.settles hsettled (hfree.of_prefix hrest.diagnostics_prefix)
    have hgathers := hrest.gathers hsettled' hfree
    have hstays := hrest.final_stays hentry hfinal
    rw [← hfile] at hgathers
    exact hgathers.cons_followed (Schema.Import.target?_of_read_ok hread) hnew hstays hfinal

end

end Walk

end ProtoSchema
