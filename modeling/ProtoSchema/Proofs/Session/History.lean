import ProtoSchema.Proofs.Session.Cycles

/-!
Histories of a session: requests that follow one another, each served from the files
as they are at its turn. As long as the files stay the same and no root has a cycle
below it, every entry is the one that its path settles to. What was asked for before,
and in which order, then makes no difference to any entry.
-/

namespace ProtoSchema

open Linked (File)

inductive Request where
  | compile (root : VirtualPath)
  | compileAll (roots : List VirtualPath)

def Request.roots : Request → List VirtualPath
  | .compile root => [root]
  | .compileAll roots => roots

/-- A request with the settings, mappings and files at its time. -/
structure Turn where
  settings : Settings
  overlay : Overlay
  store : Store
  request : Request

def Turn.shop (turn : Turn) : Workshop :=
  Session.workshop turn.settings turn.overlay turn.store

namespace Session

def serve (session : Session) (turn : Turn) : Session :=
  match turn.request with
  | .compile root => (session.compile turn.shop root).2
  | .compileAll roots => (session.compileAll turn.shop roots).2

def after (outlet : Outlet) (turns : List Turn) : Session :=
  turns.foldl serve (start outlet)

variable {shop : Workshop} {session : Session} {root path : VirtualPath} {entry : Ledger.Entry}

theorem after_concat (outlet : Outlet) (turns : List Turn) (turn : Turn) :
    after outlet (turns ++ [turn]) = (after outlet turns).serve turn := by
  rw [after, after, List.foldl_concat]

/-- What each call keeps, calls one after the other keep. -/
theorem compileAll_induction {P : Session → Prop} {roots : List VirtualPath}
    (hstep : ∀ session, ∀ root ∈ roots, P session → P (session.compile shop root).2)
    (h : P session) : P (session.compileAll shop roots).2 := by
  induction roots generalizing session with
  | nil => exact h
  | cons root rest ih =>
    refine ih ?_ (hstep session root List.mem_cons_self h)
    intro later other hmem
    exact hstep later other (List.mem_cons_of_mem root hmem)

theorem serve_induction {P : Session → Prop} {turn : Turn}
    (hstep : ∀ session, ∀ root ∈ turn.request.roots, P session →
      P (session.compile turn.shop root).2)
    (h : P session) : P (session.serve turn) := by
  unfold serve
  cases hrequest : turn.request with
  | compile root =>
    rw [hrequest] at hstep
    exact hstep session root (List.mem_singleton.mpr rfl) h
  | compileAll roots =>
    rw [hrequest] at hstep
    exact compileAll_induction hstep h

structure Settled (shop : Workshop) (session : Session) : Prop where
  idle : session.Idle
  settles : ∀ path entry, session.ledger.entry? path = some entry → shop.Settles path entry

theorem Idle.isFinal (h : session.Idle) (hentry : session.ledger.entry? path = some entry) :
    entry.IsFinal := by
  cases entry with
  | pending owner => exact absurd hentry (h path owner)
  | compiled file => trivial
  | failed reason => trivial

theorem Settled.start (shop : Workshop) (outlet : Outlet) : (start outlet).Settled shop where
  idle := start_idle outlet
  settles path entry h := by cases h

/-- Where there is no cycle below the root none is reported. -/
theorem Idle.course_cycleFree (h : session.Idle) (hfinite : shop.store.IsFinite)
    (hplain : shop.LinksPlainly) (hacyclic : ¬shop.HasCycle root) :
    (session.course shop root).2.CycleFree := by
  intro d hd hkind
  exact hacyclic (h.course_told hfinite hplain root d hd hkind).hasCycle

/-- A call leaves all entries settled, and that of its root is among them. -/
theorem Settled.compile (h : session.Settled shop) (hfinite : shop.store.IsFinite)
    (hplain : shop.LinksPlainly) (hacyclic : ¬shop.HasCycle root) :
    (session.compile shop root).2.Settled shop ∧
      ∃ entry, (session.compile shop root).2.ledger.entry? root = some entry := by
  have hidle := h.idle.compile hfinite root
  have hopening : session.opening.Settled shop :=
    fun path entry hentry _ => h.settles path entry hentry
  obtain ⟨hsettled, entry, hentry, _⟩ := (h.idle.course_obtains hfinite root).settles hopening
    (h.idle.course_cycleFree hfinite hplain hacyclic)
  refine ⟨⟨hidle, ?_⟩, entry, hentry⟩
  intro path entry hentry
  exact hsettled path entry hentry (hidle.isFinal hentry)

/-- As long as the files stay the same, the entry of a path is the one that a first call
for the path alone gives, whatever was asked for and in which order. The import graph
below the roots must have no cycle. -/
theorem entries_independent_of_order (settings : Settings) (overlay : Overlay) (store : Store)
    (hfinite : store.IsFinite) (requests : List Request)
    (hacyclic : ∀ request ∈ requests, ∀ root ∈ request.roots,
      ¬(workshop settings overlay store).HasCycle root)
    (outlet other : Outlet) (path : VirtualPath) (entry : Ledger.Entry)
    (hentry : (after outlet
      (requests.map (Turn.mk settings overlay store))).ledger.entry? path = some entry) :
    ((start other).compile (workshop settings overlay store) path).2.ledger.entry? path =
      some entry := by
  have hplain := workshop_linksPlainly settings overlay store
  have hsettled : (after outlet (requests.map (Turn.mk settings overlay store))).Settled
      (workshop settings overlay store) := by
    clear hentry
    induction requests using List.reverseRecOn with
    | nil => exact .start _ outlet
    | append_singleton requests request ih =>
      rw [List.map_append, List.map_singleton, after_concat]
      refine serve_induction ?_ (ih fun r hmem => hacyclic r (List.mem_append_left _ hmem))
      intro session root hroot h
      exact (h.compile hfinite hplain (hacyclic request
        (List.mem_append_right _ (List.mem_singleton.mpr rfl)) root hroot)).1
  have hsettles := hsettled.settles path entry hentry
  obtain ⟨hfresh, found, hfound⟩ :=
    (Settled.start _ other).compile hfinite hplain hsettles.not_hasCycle
  rw [hfound, hsettles.unique (hfresh.settles path found hfound)]

/-- A file that was compiled behind its import, and then again with it, has the entry
that it has when it is compiled alone. -/
theorem entries_independent_of_order_two : ∃ (overlay : Overlay) (files : MemoryFiles)
    (a b : VirtualPath) (file : File),
    (after .silent ([.compile b, .compileAll [a, b]].map
      (Turn.mk .standard overlay files.store))).ledger.entry? a = some (.compiled file) ∧
    ((start .silent).compile (workshop .standard overlay files.store) a).2.ledger.entry? a =
      some (.compiled file) := by
  let bytes (text : String) : List UInt8 := text.toList.map fun c => UInt8.ofNat c.toNat
  let a : VirtualPath := ⟨⟨false, ["a.proto"], by decide⟩, by decide⟩
  let b : VirtualPath := ⟨⟨false, ["b.proto"], by decide⟩, by decide⟩
  let overlay : Overlay := ⟨[⟨⟨false, [], by decide⟩, ⟨"/r"⟩⟩]⟩
  let files : MemoryFiles := ⟨[
    (⟨"/r/a.proto"⟩, bytes "import \"b.proto\"; message A { optional B b = 1; }"),
    (⟨"/r/b.proto"⟩, bytes "message B {}")]⟩
  let requests : List Request := [.compile b, .compileAll [a, b]]
  have hacyclic : ∀ root ∈ [a, b], ¬(workshop .standard overlay files.store).HasCycle root := by
    have hfree : ∀ root ∈ [a, b], ∀ d ∈ ((start .silent).course
        (workshop .standard overlay files.store) root).2.diagnostics,
        d.kind ≠ .importCycle := by decide +kernel
    intro root hroot
    obtain ⟨entry, hsettles, _⟩ := start_settles files.isFinite_store .silent (hfree root hroot)
    exact hsettles.not_hasCycle
  have hroots : ∀ request ∈ requests, ∀ root ∈ request.roots, root ∈ [a, b] := by
    decide +kernel
  have hfound : (((after .silent (requests.map
      (Turn.mk .standard overlay files.store))).ledger.entry? a).bind
      Ledger.Entry.file?).isSome = true := by decide +kernel
  obtain ⟨file, hfile⟩ := Option.isSome_iff_exists.mp hfound
  obtain ⟨entry, hentry, hcompiled⟩ := Option.bind_eq_some_iff.mp hfile
  cases entry with
  | pending owner => cases hcompiled
  | failed reason => cases hcompiled
  | compiled found =>
    cases hcompiled
    refine ⟨overlay, files, a, b, file, hentry, ?_⟩
    exact entries_independent_of_order .standard overlay files.store files.isFinite_store
      requests (fun request hmem root hroot => hacyclic root (hroots request hmem root hroot))
      .silent .silent a _ hentry

end Session

end ProtoSchema
