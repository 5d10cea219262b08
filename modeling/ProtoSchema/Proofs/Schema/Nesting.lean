import ProtoSchema.Proofs.Schema.Files

/-!
Bodies without a limit. Message bodies are read up to a depth, and the items between separators
up to a number of rounds, but neither limit is ever met: a body in a body starts behind the
brace of the outer one, and a further item behind its separator. So there is exactly one reader
of bodies that calls itself for the bodies in them, and whatever is read with it is read with
any depth that the tokens do not reach.
-/

namespace ProtoSchema.Phrase

open Schema

variable {α β σ : Type} {n m : Nat} {p q : Phrase α} {f g : α → Phrase β} {t : Tape}
  {statement other : σ → Phrase σ}

theorem eq_of_on (h : ∀ t, p.on t = q.on t) : p = q := funext h

/-- Reading only goes on, and a success takes at least `m` tokens. -/
def MovesOn (m : Nat) (p : Phrase α) : Prop :=
  ∀ t : Tape, (p.on t).2.ahead <:+ t.ahead ∧
    ∀ a, (p.on t).1 = .ok a → (p.on t).2.ahead.length + m ≤ t.ahead.length

theorem MovesOn.length_le (h : MovesOn m p) (t : Tape) :
    (p.on t).2.ahead.length ≤ t.ahead.length := (h t).1.length_le

/-- What reads alike some other phrase goes on as that one does. -/
theorem movesOn_of_alike
    (h : ∀ (l : Bond) (n : Nat), (∀ word, l.Word word) → ∃ R q, l.Alike n m R q p) :
    MovesOn m p := by
  intro t
  -- The tape is tied to itself when no place is moved.
  let l : Bond := { Bond.moving t.stop id t.faults with earlier := t.faults }
  have hties : l.Ties t.ahead.length none t t := Bond.ties_self (l := l) rfl rfl rfl rfl rfl rfl
    (fun _ _ _ _ => trivial) ⟨fun _ => trivial, rfl, rfl⟩
  obtain ⟨R, q, halike⟩ := h l t.ahead.length fun _ => trivial
  obtain ⟨hresults, hends, hsuffix, htakes⟩ := halike none t t hties
  have hsame : (p.on t).2.ahead = (q.on t).2.ahead :=
    hends.ahead.trans (Bond.carried_self rfl rfl)
  rw [hsame]
  refine ⟨hsuffix, fun a ha => ?_⟩
  rw [ha] at hresults
  generalize (q.on t).1 = result at hresults htakes
  cases hresults with
  | ok hR => exact htakes _ rfl

def Agree (n : Nat) (p q : Phrase α) : Prop := ∀ t : Tape, t.ahead.length ≤ n → p.on t = q.on t

namespace Agree

theorem refl : Agree n p p := fun _ _ => rfl

theorem pure (a : α) : Agree n (Pure.pure a : Phrase α) (Pure.pure a) := fun _ _ => rfl

theorem ite {P : Prop} [Decidable P] {p' q' : Phrase α} (hp : Agree n p q) (hn : Agree n p' q') :
    Agree n (if P then p else p') (if P then q else q') := by
  split
  · exact hp
  · exact hn

theorem then_same (h : Agree n p q) (f : α → Phrase β) : Agree n (p >>= f) (q >>= f) := by
  intro t ht
  rw [on_bind, on_bind, h t ht]

theorem behind (hp : MovesOn m p) (h : ∀ a, Agree n (f a) (g a)) :
    Agree n (p >>= f) (p >>= g) := by
  intro t ht
  have hless := Nat.le_trans (hp.length_le t) ht
  refine on_bind_cases (P := fun r => r = (p >>= g).on t) (fun a u hon => ?_) fun e u hon => ?_
  · rw [hon] at hless
    rw [on_bind_of_ok hon]
    exact h a u hless
  · rw [on_bind_of_error hon]

/-- Looking ahead takes nothing. -/
theorem look_bind {f g : Option Lexeme → Phrase α} (k : Nat)
    (h : ∀ found, Agree n (f found) (g found)) : Agree n (look k >>= f) (look k >>= g) :=
  fun t ht => h (t.lexeme? k) t ht

theorem place_bind {f g : Position → Phrase α} (h : ∀ position, Agree n (f position) (g position)) :
    Agree n (place >>= f) (place >>= g) :=
  fun t ht => h t.place t ht

theorem failAt_bind (position : Position) (fault : SyntaxFault) :
    Agree n ((failAt position fault : Phrase α) >>= f) (failAt position fault >>= g) :=
  fun _ _ => rfl

theorem skip_bind {f g : Unit → Phrase α} (k : Nat) (h : Agree n (f ()) (g ())) :
    Agree n (skip k >>= f) (skip k >>= g) :=
  fun t ht => h (t.drop k) (Nat.le_trans (List.drop_suffix k t.ahead).length_le ht)

/-- Behind a lexeme that was there less is left. -/
theorem take?_bind {f g : Bool → Phrase α} (lexeme : Lexeme)
    (htrue : Agree (n - 1) (f true) (g true)) (hfalse : Agree n (f false) (g false)) :
    Agree n (take? lexeme >>= f) (take? lexeme >>= g) := by
  intro t ht
  by_cases hlook : t.lexeme? 0 = some lexeme
  · have hfound : (take? lexeme).on t = (.ok true, t.drop 1) := by rw [on_take?, if_pos hlook]
    have hdrop : (t.drop 1).ahead.length = t.ahead.length - 1 := List.length_drop
    rw [on_bind_of_ok hfound, on_bind_of_ok hfound]
    exact htrue (t.drop 1) (by omega)
  · have hnone : (take? lexeme).on t = (.ok false, t) := by rw [on_take?, if_neg hlook]
    rw [on_bind_of_ok hnone, on_bind_of_ok hnone]
    exact hfalse t ht

/-- Behind a keyword less is left. -/
theorem keyword_bind {f g : Unit → Phrase α} (word : String) (h : Agree (n - 1) (f ()) (g ())) :
    Agree n (keyword word >>= f) (keyword word >>= g) := by
  rw [keyword, bind_assoc, bind_assoc]
  exact .take?_bind _ h fun _ _ => rfl

theorem settled (h : ∀ s, Agree n (statement s) (other s)) (s : σ) (ht : t.ahead.length ≤ n) :
    settled statement s t = settled other s t := by
  rw [Phrase.settled, Phrase.settled, attempt, attempt, h s t ht]

theorem statements (h : ∀ s, Agree n (statement s) (other s)) (name : String) (s : σ) {t : Tape}
    (ht : t.ahead.length ≤ n) : statements name statement s t = statements name other s t := by
  cases hahead : t.ahead with
  | nil => rw [statements_of_nil hahead, statements_of_nil hahead]
  | cons token rest =>
    by_cases hclose : token.lexeme = .mark '\x7d'
    · rw [statements_of_close hahead hclose, statements_of_close hahead hclose]
    · have hless := length_settled other s (by simp [hahead] : t.ahead ≠ [])
      rw [statements_of_open hahead hclose, statements_of_open hahead hclose, settled h s ht]
      exact statements h name _ (Nat.le_trans (Nat.le_of_lt hless) ht)
termination_by t.ahead.length

/-- Inside a block less is left than in front of it. -/
theorem block (h : 0 < n → ∀ s, Agree (n - 1) (statement s) (other s)) (name : String) (s : σ) :
    Agree n (block name statement s) (block name other s) := by
  intro t ht
  by_cases hopen : t.lexeme? 0 = some (.mark '\x7b')
  · have hpos := Bond.length_pos_of_lexeme? hopen
    have hdrop : (t.drop 1).ahead.length = t.ahead.length - 1 := List.length_drop
    rw [on_block hopen, on_block hopen]
    exact statements (h (by omega)) name s (by omega)
  · rw [Phrase.block, Phrase.block, on_bind, on_bind, on_mark, if_neg hopen]

end Agree

/-- A further item stands behind its separator, so the tokens bound the number of the items. -/
theorem agree_moreSeparated (sep : Char) (h : MovesOn m p) (rounds others : Nat)
    (hrounds : n ≤ rounds) (hothers : n ≤ others) :
    Agree n (moreSeparated sep p rounds) (moreSeparated sep p others) := by
  induction n generalizing rounds others with
  | zero =>
    intro t ht
    have hahead : t.ahead = [] := List.length_eq_zero_iff.mp (Nat.le_zero.mp ht)
    rw [on_moreSeparated_nil hahead, on_moreSeparated_nil hahead]
  | succ n ih =>
    obtain ⟨rounds, rfl⟩ := Nat.exists_eq_add_of_le' (Nat.le_trans (Nat.le_add_left 1 n) hrounds)
    obtain ⟨others, rfl⟩ := Nat.exists_eq_add_of_le' (Nat.le_trans (Nat.le_add_left 1 n) hothers)
    have hmore := ih rounds others (Nat.le_of_succ_le_succ hrounds)
      (Nat.le_of_succ_le_succ hothers)
    exact .take?_bind _ (.behind h fun _ => hmore.then_same _) (.pure [])

section Bodies

variable {body reader : BodyReader}

def BodiesAgree (n : Nat) (body reader : BodyReader) : Prop :=
  ∀ name parent, Agree n (body name parent) (reader name parent)

theorem BodiesAgree.mono {k : Nat} (h : BodiesAgree n body reader) (hk : k ≤ n) :
    BodiesAgree k body reader :=
  fun name parent t ht => h name parent t (Nat.le_trans ht hk)

theorem movesOn_keyword (word : String) : MovesOn 1 (keyword word) :=
  movesOn_of_alike fun _ _ _ => ⟨_, _, .keyword word⟩

theorem movesOn_mark (c : Char) (hplain : (Lexeme.mark c).IsPlain) : MovesOn 1 (mark c) :=
  movesOn_of_alike fun _ _ _ => ⟨_, _, .mark hplain⟩

theorem movesOn_identifier : MovesOn 1 identifier :=
  movesOn_of_alike fun _ _ _ => ⟨_, _, .identifier⟩

theorem movesOn_startsField : MovesOn 0 startsField :=
  fun t => ⟨List.suffix_refl t.ahead, fun _ _ => Nat.le_refl _⟩

theorem agree_group (h : BodiesAgree n body reader) (label : Option Label) (oneof : Option Nat) :
    Agree n (group body label oneof) (group reader label oneof) := by
  refine .behind (movesOn_keyword _) fun _ => .place_bind fun position => ?_
  refine .behind movesOn_identifier fun name => ?_
  split
  · refine .behind (movesOn_mark '=' (by decide)) fun _ => ?_
    refine .behind (movesOn_of_alike fun _ _ _ => ⟨_, _, .integer⟩) fun number => ?_
    refine .behind (movesOn_of_alike fun _ _ _ => ⟨_, _, Bond.settings⟩) fun options => ?_
    exact (h _ _).then_same _
  · exact .failAt_bind position _

theorem agree_unlabelled (h : BodiesAgree n body reader) (label : Option Label)
    (oneof : Option Nat) : Agree n (unlabelled body label oneof) (unlabelled reader label oneof) :=
  .behind (movesOn_of_alike fun _ _ _ => ⟨_, _, Bond.isGroup⟩) fun _ =>
    .ite ((agree_group h label oneof).then_same _) .refl

theorem agree_field (h : BodiesAgree n body reader) (oneof : Option Nat) :
    Agree n (field body oneof) (field reader oneof) := by
  refine .behind (movesOn_of_alike fun _ _ _ => ⟨_, _, Bond.label?⟩) fun label => ?_
  split
  · split
    · exact .place_bind fun position => .failAt_bind position _
    · exact .skip_bind 1 (agree_unlabelled h label oneof)
  · exact agree_unlabelled h label oneof

theorem agree_fieldOf (h : BodiesAgree n body reader) (oneof : Option Nat) (parent : Message) :
    Agree n (fieldOf body oneof parent) (fieldOf reader oneof parent) :=
  (agree_field h oneof).then_same _

theorem agree_oneofStatement (h : BodiesAgree n body reader) (index : Nat) (parent : Message) :
    Agree n (oneofStatement body index parent) (oneofStatement reader index parent) :=
  .take?_bind _ (.pure parent)
    (.look_bind 0 fun _ => .ite .refl (agree_fieldOf h (some index) parent))

theorem agree_oneof (h : BodiesAgree (n - 1) body reader) (parent : Message) :
    Agree n (oneof body parent) (oneof reader parent) :=
  .behind (movesOn_keyword _) fun _ => .place_bind fun _ => .behind movesOn_identifier fun _ =>
    .block (fun _ s => agree_oneofStatement h _ s) "oneof" _

theorem agree_extendStatement (h : BodiesAgree n body reader) (extend : Extend) :
    Agree n (extendStatement body extend) (extendStatement reader extend) :=
  .take?_bind _ (.pure extend) ((agree_field h none).then_same _)

theorem agree_extend (h : BodiesAgree (n - 1) body reader) :
    Agree n (extend body) (extend reader) := by
  refine .behind (movesOn_keyword _) fun _ => .place_bind fun position => ?_
  refine .behind (movesOn_of_alike fun _ _ _ => ⟨_, _, Bond.typeName⟩) fun extendee => ?_
  exact .block (fun _ s => agree_extendStatement h s) "extend" _

theorem agree_message (h : BodiesAgree (n - 1) body reader) :
    Agree n (message body) (message reader) :=
  .keyword_bind _ (.place_bind fun _ => .behind movesOn_identifier fun _ => h _ _)

theorem agree_messageStatement (h : BodiesAgree n body reader) (parent : Message) :
    Agree n (messageStatement body parent) (messageStatement reader parent) := by
  have hinner := h.mono (Nat.sub_le n 1)
  refine .take?_bind _ (.pure parent) (.look_bind 0 fun found => ?_)
  refine .behind movesOn_startsField fun starts => ?_
  split
  · exact (agree_message hinner).then_same _
  · exact .refl
  · exact (agree_extend hinner).then_same _
  · exact agree_oneof hinner parent
  · exact .refl
  · exact .refl
  · exact .refl
  · exact agree_fieldOf h none parent

/-- Bodies of two depths agree when the tokens reach neither. -/
theorem bodiesAgree_bodyWithin (d e : Nat) (hd : n < d) (he : n < e) :
    BodiesAgree n (bodyWithin d) (bodyWithin e) := by
  induction d generalizing n e with
  | zero => exact absurd hd (Nat.not_lt_zero n)
  | succ d ih =>
    obtain ⟨e, rfl⟩ := Nat.exists_eq_add_one_of_ne_zero (Nat.ne_zero_of_lt he)
    intro name parent
    refine .block (fun hn s => agree_messageStatement (ih e ?_ ?_) s) name parent
    · omega
    · omega

/-- The reader calls itself for the bodies in a body, as deep as they nest. -/
def BodyReader.Recursive (body : BodyReader) : Prop :=
  ∀ name parent, body name parent = block name (messageStatement body) parent

def bodyOfAnyDepth : BodyReader := fun name parent =>
  ofFunction fun t => (bodyWithin (t.ahead.length + 1) name parent).on t

theorem on_ofFunction (f : Tape → Except SyntaxError α × Tape) (t : Tape) :
    (ofFunction f).on t = f t := rfl

theorem on_bodyOfAnyDepth (name : String) (parent : Message) (t : Tape) :
    (bodyOfAnyDepth name parent).on t = (bodyWithin (t.ahead.length + 1) name parent).on t := by
  rw [bodyOfAnyDepth, on_ofFunction]

theorem bodiesAgree_bodyOfAnyDepth (depth : Nat) (h : n < depth) :
    BodiesAgree n bodyOfAnyDepth (bodyWithin depth) := by
  intro name parent t ht
  rw [on_bodyOfAnyDepth]
  exact bodiesAgree_bodyWithin _ depth (Nat.lt_succ_self _) (Nat.lt_of_le_of_lt ht h) name parent t
    (Nat.le_refl _)

theorem recursive_bodyOfAnyDepth : bodyOfAnyDepth.Recursive := by
  intro name parent
  refine eq_of_on fun t => ?_
  rw [on_bodyOfAnyDepth, bodyWithin]
  have hinner (hpos : 0 < t.ahead.length) (s : Message) : Agree (t.ahead.length - 1)
      (messageStatement (bodyWithin t.ahead.length) s) (messageStatement bodyOfAnyDepth s) := by
    refine agree_messageStatement (fun name parent u hu => ?_) s
    exact (bodiesAgree_bodyOfAnyDepth t.ahead.length (by omega) name parent u hu).symm
  exact Agree.block hinner name parent t (Nat.le_refl _)

/-- By recursion no other reader comes about. -/
theorem BodyReader.Recursive.agree (h : body.Recursive) (hreader : reader.Recursive) :
    BodiesAgree n body reader := by
  induction n with
  | zero =>
    intro name parent
    rw [h, hreader]
    exact .block (fun hn => absurd hn (Nat.lt_irrefl 0)) name parent
  | succ n ih =>
    intro name parent
    rw [h, hreader]
    exact Agree.block (n := n + 1) (fun _ s => agree_messageStatement ih s) name parent

theorem BodyReader.Recursive.eq_bodyOfAnyDepth (h : body.Recursive) : body = bodyOfAnyDepth :=
  funext fun name => funext fun parent => eq_of_on fun t =>
    h.agree recursive_bodyOfAnyDepth name parent t (Nat.le_refl _)

end Bodies

section Files

variable {body reader : BodyReader}

theorem agree_fileStatement (h : BodiesAgree (n - 1) body reader) (isFirst : Bool) (file : File) :
    Agree n (fileStatement body isFirst file) (fileStatement reader isFirst file) := by
  refine .take?_bind _ (.pure file) (.look_bind 0 fun found => ?_)
  split
  · exact .refl
  · exact .refl
  · exact .refl
  · exact .refl
  · exact .refl
  · exact (agree_message h).then_same _
  · exact .refl
  · exact .refl
  · exact (agree_extend h).then_same _
  · exact .refl

/-- A file is read the same when its bodies are. -/
theorem fileStatements_agree (h : BodiesAgree (n - 1) body reader) (isFirst : Bool) (file : File)
    {t : Tape} (ht : t.ahead.length ≤ n) :
    fileStatements body isFirst file t = fileStatements reader isFirst file t := by
  by_cases hahead : t.ahead = []
  · rw [fileStatements_of_nil hahead, fileStatements_of_nil hahead]
  · have hless := length_settled (fileStatement reader isFirst) file hahead
    rw [fileStatements_of_ne_nil hahead, fileStatements_of_ne_nil hahead,
      Agree.settled (fun s => agree_fileStatement h isFirst s) file ht]
    exact fileStatements_agree h false _ (Nat.le_trans (Nat.le_of_lt hless) ht)
termination_by t.ahead.length

/-- Whatever bodies a file has, they do not nest as deep as there are tokens. -/
theorem fileStatements_bodyOfAnyDepth {depth : Nat} (h : t.ahead.length ≤ depth) (isFirst : Bool)
    (file : File) :
    fileStatements bodyOfAnyDepth isFirst file t =
      fileStatements (bodyWithin depth) isFirst file t := by
  by_cases hahead : t.ahead = []
  · rw [fileStatements_of_nil hahead, fileStatements_of_nil hahead]
  · have hpos := List.length_pos_iff.mpr hahead
    exact fileStatements_agree (bodiesAgree_bodyOfAnyDepth depth (by omega)) isFirst file
      (Nat.le_refl _)

end Files

end ProtoSchema.Phrase
