import ProtoSchema.Proofs.Schema.Alike
import ProtoSchema.Proofs.Token.Scanning

/-!
Reading the tokens of a text from any place on. From another place the same tokens are read
at shifted places. A piece of text is cut off when its tokens are the same whatever follows;
pieces that are cut off may be put together.
-/

namespace ProtoSchema

namespace Position

variable {p q r : Position} {c : Char} {cs : List Char}

theorem after_append (p : Position) (cs more : List Char) :
    p.after (cs ++ more) = (p.after cs).after more :=
  List.foldl_append

theorem before_step (p : Position) (c : Char) : p.Before (p.step c) := by
  unfold step Before
  split
  · exact .inl (Nat.lt_succ_self _)
  · exact .inr ⟨rfl, Nat.lt_succ_self _⟩

theorem Before.trans (h : p.Before q) (hnext : q.Before r) : p.Before r := by
  unfold Before at *
  omega

theorem not_before_self (p : Position) : ¬p.Before p := by
  unfold Before
  omega

theorem before_of_not_before (h : p.Before q) (hnext : ¬r.Before q) : p.Before r := by
  unfold Before at *
  omega

theorem not_before_after (p : Position) (cs : List Char) : ¬(p.after cs).Before p := by
  induction cs generalizing p with
  | nil => exact p.not_before_self
  | cons c rest ih =>
    intro hbefore
    exact ih (p.step c) (hbefore.trans (p.before_step c))

theorem before_after (p : Position) (hcs : cs ≠ []) : p.Before (p.after cs) := by
  cases cs with
  | nil => exact absurd rfl hcs
  | cons c rest => exact before_of_not_before (p.before_step c) (not_before_after _ rest)

theorem not_before_after_of (h : ¬r.Before p) : ¬(r.after cs).Before p :=
  fun hbefore => r.not_before_after cs (before_of_not_before hbefore h)

/-- The place that lies as far behind `q` as `r` lies behind `p`. -/
def shift (p q r : Position) : Position :=
  if r.line = p.line then ⟨q.line, q.column + (r.column - p.column)⟩
  else ⟨q.line + (r.line - p.line), r.column⟩

theorem shift_self (p q : Position) : shift p q p = q := by
  simp [shift]

theorem shift_step (h : ¬r.Before p) : shift p q (r.step c) = (shift p q r).step c := by
  unfold Before at h
  by_cases hc : c = '\n'
  · have hbehind : r.line + 1 ≠ p.line := by omega
    have hline : (shift p q r).line + 1 = q.line + (r.line + 1 - p.line) := by
      unfold shift
      split <;> simp only <;> omega
    rw [step, step, if_pos hc, if_pos hc, hline, shift, if_neg hbehind]
  · rw [step, step, if_neg hc, if_neg hc, shift, shift]
    by_cases hr : r.line = p.line
    · have hcolumn :
          q.column + (r.column + 1 - p.column) = q.column + (r.column - p.column) + 1 := by
        omega
      rw [if_pos hr, if_pos hr, hcolumn]
    · rw [if_neg hr, if_neg hr]

theorem shift_after (h : ¬r.Before p) : shift p q (r.after cs) = (shift p q r).after cs := by
  induction cs generalizing r with
  | nil => rfl
  | cons c rest ih =>
    have hstep : ¬(r.step c).Before p := fun hbefore => h ((r.before_step c).trans hbefore)
    have hrest : shift p q ((r.step c).after rest) = (shift p q (r.step c)).after rest := ih hstep
    rw [shift_step h] at hrest
    exact hrest

end Position

def Apart (more : List Char) : Prop :=
  more = [] ∨ ∃ blank rest, more = blank :: rest ∧ Text.isBlank blank = true

namespace Scanned

/-- A word of a text: it starts with a letter or an underscore, and has digits besides. -/
def IsWord (word : String) : Prop :=
  ∃ c cs, word = String.ofList (c :: cs) ∧ isWordStart c = true ∧ ∀ d ∈ cs, isWordChar d = true

def isWord (text : String) : Bool :=
  match text.toList with
  | [] => false
  | c :: cs => isWordStart c && cs.all isWordChar

theorem isWord_iff {text : String} : isWord text = true ↔ IsWord text := by
  unfold isWord
  constructor
  · intro h
    split at h
    · cases h
    · next c cs htext =>
      rw [Bool.and_eq_true, List.all_eq_true] at h
      exact ⟨c, cs, by rw [← htext, String.ofList_toList], h⟩
  · rintro ⟨c, cs, rfl, hstart, hrest⟩
    rw [String.toList_ofList]
    simp only [hstart, List.all_eq_true.mpr hrest, Bool.and_self]

instance (text : String) : Decidable (IsWord text) := decidable_of_iff _ isWord_iff

variable {c : Char} {rest : List Char} {width : Nat}

theorem isWord_of_first {word : String} (h : first c rest = .lexeme (.word word) width) :
    IsWord word := by
  cases starts_of_first h with
  | word hstart => exact ⟨c, _, rfl, hstart, fun d hd => List.mem_takeWhile_imp hd⟩

/-- A mark is its one character. -/
theorem eq_of_first_mark {d : Char} (h : first c rest = .lexeme (.mark d) width) :
    c = d ∧ width = 1 := by
  cases starts_of_first h with
  | mark => exact ⟨rfl, rfl⟩

theorem first_brace (h : c = '\x7b' ∨ c = '\x7d') (rest : List Char) :
    first c rest = .lexeme (.mark c) 1 := by
  rcases h with rfl | rfl
  · rfl
  · rfl

theorem first_blank (h : Text.isBlank c = true) (rest : List Char) : first c rest = .gap 1 :=
  (Starts.blank h).first_eq

theorem isAlphanum_of_isBlank (h : Text.isBlank c = true) : c.isAlphanum = false := by
  rw [Char.isAlphanum, Bool.or_eq_false_iff]
  refine ⟨Bool.eq_false_iff.mpr fun halpha => ?_, Bool.eq_false_iff.mpr fun hdigit => ?_⟩
  · exact not_isBlank_of_isWordStart (by rw [isWordStart, halpha, Bool.true_or]) h
  · exact not_isBlank_of_isDigit hdigit h

/-- A blank is none of the characters that are not blank. -/
theorem ne_of_isBlank {d : Char} (h : Text.isBlank c = true) (hd : Text.isBlank d = false) :
    c ≠ d := by
  rintro rfl
  rw [hd] at h
  cases h

theorem isWordChar_of_isBlank (h : Text.isBlank c = true) : isWordChar c = false := by
  rw [isWordChar, isAlphanum_of_isBlank h, Bool.false_or, beq_eq_false_iff_ne]
  exact ne_of_isBlank h rfl

def Ended (more : List Char) : Prop := ∀ d, more.head? = some d → isWordChar d = false

theorem Ended.of_apart {more : List Char} (hmore : Apart more) : Ended more := by
  rcases hmore with rfl | ⟨blank, rest, rfl, hblank⟩
  · intro d hd
    cases hd
  · intro d hd
    cases hd
    exact isWordChar_of_isBlank hblank

theorem takeWhile_ended {cs more : List Char} (hmore : Ended more)
    (h : ∀ d ∈ cs, isWordChar d = true) : (cs ++ more).takeWhile isWordChar = cs := by
  rw [List.takeWhile_append_of_pos h]
  cases more with
  | nil => exact List.append_nil cs
  | cons d rest =>
    have hstop : ¬isWordChar d = true := Bool.eq_false_iff.mp (hmore d rfl)
    rw [List.takeWhile_cons_of_neg hstop, List.append_nil]

/-- A word that does not go on is found as it stands. -/
theorem first_word {cs more : List Char} (hmore : Ended more) (hstart : isWordStart c = true)
    (hrest : ∀ d ∈ cs, isWordChar d = true) :
    first c (cs ++ more) = .lexeme (.word (String.ofList (c :: cs))) (c :: cs).length := by
  rw [(Starts.word hstart).first_eq, takeWhile_ended hmore hrest]

end Scanned

namespace Token

open Scanned (first)

variable {place : Position} {c : Char} {cs rest : List Char} {tokens more : List Token}
  {stop : Position} {width : Nat}

theorem readFrom_nil (place : Position) : readFrom place [] = .ok ([], place) := by
  rw [readFrom.eq_def]

theorem readFrom_of_gap (h : first c rest = .gap width) :
    readFrom place (c :: rest) =
      readFrom (place.after ((c :: rest).take width)) ((c :: rest).drop width) := by
  rw [readFrom.eq_def]
  dsimp only
  split <;> simp_all

theorem readFrom_of_lexeme {found : Lexeme} (h : first c rest = .lexeme found width) :
    readFrom place (c :: rest) =
      (readFrom (place.after ((c :: rest).take width)) ((c :: rest).drop width)).map
        (prepend ⟨found, place⟩) := by
  rw [readFrom.eq_def]
  dsimp only
  split <;> simp_all

theorem readFrom_of_fault {found : SyntaxFault} {offset : Nat}
    (h : first c rest = .fault found offset) :
    readFrom place (c :: rest) = .error ⟨place.after ((c :: rest).take offset), found⟩ := by
  rw [readFrom.eq_def]
  dsimp only
  split <;> simp_all

/-- Where the text goes on behind what was found first. -/
theorem after_take_drop (place : Position) (cs : List Char) (width : Nat) :
    (place.after (cs.take width)).after (cs.drop width) = place.after cs := by
  rw [← Position.after_append, List.take_append_drop]

/-- A token in front of those that were read. -/
theorem map_prepend_eq_ok {token : Token} {read : Except SyntaxError (List Token × Position)}
    (h : read.map (prepend token) = .ok (tokens, stop)) :
    ∃ others, read = .ok (others, stop) ∧ tokens = token :: others := by
  cases read with
  | error e => cases h
  | ok found =>
    obtain ⟨others, last⟩ := found
    cases h
    exact ⟨others, rfl, rfl⟩

/-- What can be said of tokens that were read: the text ends where its characters do, the
tokens stand in it one behind the other, and its words are words. -/
structure WellRead (place : Position) (cs : List Char) (tokens : List Token) (stop : Position) :
    Prop where
  stop_eq : stop = place.after cs
  from_place : ∀ token ∈ tokens, ¬token.position.Before place
  pairwise : tokens.Pairwise fun a b => a.position.Before b.position
  words : ∀ token ∈ tokens, ∀ word, token.lexeme = .word word → Scanned.IsWord word

theorem before_next (place : Position) (c : Char) (rest : List Char) :
    place.Before (place.after ((c :: rest).take (first c rest).width)) := by
  refine place.before_after ?_
  have hpos := Scanned.width_first_pos c rest
  rw [ne_eq, List.take_eq_nil_iff]
  rintro (hzero | hnil)
  · omega
  · cases hnil

/-- No two tokens stand at one place. -/
theorem WellRead.nodup (h : WellRead place cs tokens stop) :
    (tokens.map (·.position)).Nodup := by
  refine List.pairwise_map.mpr (h.pairwise.imp fun hbefore hsame => ?_)
  rw [hsame] at hbefore
  exact Position.not_before_self _ hbefore

theorem wellRead (h : readFrom place cs = .ok (tokens, stop)) :
    WellRead place cs tokens stop := by
  induction place, cs using readFrom.induct generalizing tokens with
  | case1 place =>
    rw [readFrom_nil] at h
    cases h
    exact ⟨rfl, by simp, .nil, by simp⟩
  | case2 place c rest width hgap ih =>
    have hnext := before_next place c rest
    rw [hgap, Scanned.width] at hnext
    rw [readFrom_of_gap hgap] at h
    obtain ⟨hstop, hfrom, hpairwise, hwords⟩ := ih h
    refine ⟨hstop.trans (after_take_drop place _ width), ?_, hpairwise, hwords⟩
    intro token htoken hbefore
    exact hfrom token htoken (hbefore.trans hnext)
  | case3 place c rest found width hlexeme ih =>
    have hnext := before_next place c rest
    rw [hlexeme, Scanned.width] at hnext
    rw [readFrom_of_lexeme hlexeme] at h
    obtain ⟨others, hread, rfl⟩ := map_prepend_eq_ok h
    obtain ⟨hstop, hfrom, hpairwise, hwords⟩ := ih hread
    refine ⟨hstop.trans (after_take_drop place _ width), ?_, ?_, ?_⟩
    · refine List.forall_mem_cons.mpr ⟨place.not_before_self, fun token htoken hbefore => ?_⟩
      exact hfrom token htoken (hbefore.trans hnext)
    · refine List.pairwise_cons.mpr ⟨fun token htoken => ?_, hpairwise⟩
      exact Position.before_of_not_before hnext (hfrom token htoken)
    · refine List.forall_mem_cons.mpr ⟨fun word hword => ?_, hwords⟩
      cases hword
      exact Scanned.isWord_of_first hlexeme
  | case4 place c rest found offset hfault =>
    rw [readFrom_of_fault hfault] at h
    cases h

/-- The text ends behind all its tokens. -/
theorem before_stop (h : readFrom place cs = .ok (tokens, stop)) :
    ∀ token ∈ tokens, token.position.Before stop := by
  induction place, cs using readFrom.induct generalizing tokens with
  | case1 place =>
    rw [readFrom_nil] at h
    cases h
    exact List.forall_mem_nil _
  | case2 place c rest width hgap ih =>
    rw [readFrom_of_gap hgap] at h
    exact ih h
  | case3 place c rest found width hlexeme ih =>
    have hstop := (wellRead h).stop_eq
    rw [readFrom_of_lexeme hlexeme] at h
    obtain ⟨others, hread, rfl⟩ := map_prepend_eq_ok h
    refine List.forall_mem_cons.mpr ⟨?_, ih hread⟩
    rw [hstop]
    exact place.before_after (List.cons_ne_nil c rest)
  | case4 place c rest found offset hfault =>
    rw [readFrom_of_fault hfault] at h
    cases h

def shifted (move : Position → Position) :
    Except SyntaxError (List Token × Position) → Except SyntaxError (List Token × Position)
  | .ok (tokens, stop) => .ok (tokens.map (Token.moved move), move stop)
  | .error e => .error (e.moved move)

/-- From another place the same is read, as far behind that place. -/
theorem readFrom_shift (p q : Position) (h : ¬place.Before p) :
    readFrom (p.shift q place) cs = shifted (p.shift q) (readFrom place cs) := by
  induction place, cs using readFrom.induct with
  | case1 place =>
    rw [readFrom_nil, readFrom_nil]
    rfl
  | case2 place c rest width hgap ih =>
    rw [readFrom_of_gap hgap, readFrom_of_gap hgap, ← Position.shift_after h]
    exact ih (Position.not_before_after_of h)
  | case3 place c rest found width hlexeme ih =>
    rw [readFrom_of_lexeme hlexeme, readFrom_of_lexeme hlexeme, ← Position.shift_after h,
      ih (Position.not_before_after_of h)]
    cases readFrom (place.after ((c :: rest).take width)) ((c :: rest).drop width) with
    | ok found => rfl
    | error e => rfl
  | case4 place c rest found offset hfault =>
    rw [readFrom_of_fault hfault, readFrom_of_fault hfault, ← Position.shift_after h]
    rfl

theorem readFrom_eq_shifted (p q : Position) (cs : List Char) :
    readFrom q cs = shifted (p.shift q) (readFrom p cs) := by
  rw [← readFrom_shift p q p.not_before_self, Position.shift_self]

def behind (tokens : List Token) :
    Except SyntaxError (List Token × Position) → Except SyntaxError (List Token × Position)
  | .ok (others, stop) => .ok (tokens ++ others, stop)
  | .error e => .error e

variable {read : Except SyntaxError (List Token × Position)}

theorem behind_nil : behind [] read = read := by
  cases read <;> rfl

theorem behind_append : behind (tokens ++ more) read = behind tokens (behind more read) := by
  cases read with
  | ok found => simp [behind]
  | error e => rfl

theorem map_prepend_behind (token : Token) :
    (behind tokens read).map (prepend token) = behind (token :: tokens) read := by
  cases read <;> rfl

def Cuts (place : Position) (cs : List Char) (tokens : List Token) : Prop :=
  ∀ others, readFrom place (cs ++ others) = behind tokens (readFrom (place.after cs) others)

theorem Cuts.append {cs others : List Char} (h : Cuts place cs tokens)
    (hrest : Cuts (place.after cs) others more) : Cuts place (cs ++ others) (tokens ++ more) := by
  intro last
  rw [List.append_assoc, h, hrest, Position.after_append, behind_append]

theorem cuts_nil (place : Position) : Cuts place [] [] := fun _ => behind_nil.symm

theorem Cuts.gap (h : ∀ others, first c (rest ++ others) = .gap width)
    (hwidth : width ≤ (c :: rest).length)
    (hrest : Cuts (place.after ((c :: rest).take width)) ((c :: rest).drop width) tokens) :
    Cuts place (c :: rest) tokens := by
  intro others
  have hfirst := hrest others
  rw [after_take_drop] at hfirst
  rw [List.cons_append, readFrom_of_gap (h others), ← List.cons_append,
    List.take_append_of_le_length hwidth, List.drop_append_of_le_length hwidth, hfirst]

theorem Cuts.lexeme {found : Lexeme} (h : ∀ others, first c (rest ++ others) = .lexeme found width)
    (hwidth : width ≤ (c :: rest).length)
    (hrest : Cuts (place.after ((c :: rest).take width)) ((c :: rest).drop width) tokens) :
    Cuts place (c :: rest) (⟨found, place⟩ :: tokens) := by
  intro others
  have hfirst := hrest others
  rw [after_take_drop] at hfirst
  rw [List.cons_append, readFrom_of_lexeme (h others), ← List.cons_append,
    List.take_append_of_le_length hwidth, List.drop_append_of_le_length hwidth, hfirst,
    map_prepend_behind]

theorem cuts_blank (place : Position) : Cuts place [' '] [] :=
  .gap (fun others => Scanned.first_blank rfl ([] ++ others)) (Nat.le_refl 1) (cuts_nil _)

theorem cuts_brace (place : Position) (h : c = '\x7b' ∨ c = '\x7d') :
    Cuts place [c] [⟨.mark c, place⟩] :=
  .lexeme (fun others => Scanned.first_brace h ([] ++ others)) (Nat.le_refl 1) (cuts_nil _)

theorem cuts_word (place : Position) {word : String} (h : Scanned.IsWord word) :
    Cuts place (word.toList ++ [' ']) [⟨.word word, place⟩] := by
  obtain ⟨c, cs, rfl, hstart, hrest⟩ := h
  rw [String.toList_ofList, List.cons_append]
  have hfirst (others : List Char) : first c (cs ++ [' '] ++ others) =
      .lexeme (.word (String.ofList (c :: cs))) (c :: cs).length := by
    rw [List.append_assoc]
    exact Scanned.first_word (.of_apart (.inr ⟨' ', others, rfl, rfl⟩)) hstart hrest
  refine .lexeme hfirst (by simp) ?_
  rw [← List.cons_append, List.drop_left]
  exact cuts_blank _

/-- A text that ends in a closing brace is cut off by the brace. -/
theorem cuts_of_close {last : Position}
    (h : readFrom place cs = .ok (tokens ++ [⟨.mark '\x7d', last⟩], last.step '\x7d')) :
    Cuts place cs (tokens ++ [⟨.mark '\x7d', last⟩]) := by
  induction place, cs using readFrom.induct generalizing tokens with
  | case1 place =>
    rw [readFrom_nil] at h
    simp at h
  | case2 place c rest width hgap ih =>
    rw [readFrom_of_gap hgap] at h
    have hwidth : width ≤ rest.length := by
      by_contra hall
      rw [List.drop_eq_nil_of_le (Nat.lt_of_not_le hall), readFrom_nil] at h
      simp at h
    refine .gap (fun others => ?_) (Nat.le_succ_of_le hwidth) (ih h)
    rw [Scanned.first_append (by simp [hgap]) (by simpa [hgap, Scanned.width] using hwidth), hgap]
  | case3 place c rest found width hlexeme ih =>
    have hstop := (wellRead h).stop_eq
    rw [readFrom_of_lexeme hlexeme] at h
    obtain ⟨others, hread, htokens⟩ := map_prepend_eq_ok h
    cases tokens with
    | nil =>
      -- The brace is what was found, and by its place nothing follows it.
      cases htokens
      obtain ⟨rfl, rfl⟩ := Scanned.eq_of_first_mark hlexeme
      have hrest : rest = [] := by
        by_contra hne
        have hbefore := (last.step '\x7d').before_after hne
        have hsame : (last.step '\x7d').after rest = last.step '\x7d' := hstop.symm
        rw [hsame] at hbefore
        exact Position.not_before_self _ hbefore
      subst hrest
      exact cuts_brace last (.inr rfl)
    | cons token tokens =>
      rw [List.cons_append, List.cons.injEq] at htokens
      obtain ⟨rfl, rfl⟩ := htokens
      have hwidth : width ≤ rest.length := by
        by_contra hall
        rw [List.drop_eq_nil_of_le (Nat.lt_of_not_le hall), readFrom_nil] at hread
        simp at hread
      refine .lexeme (fun others => ?_) (Nat.le_succ_of_le hwidth) (ih hread)
      rw [Scanned.first_append (by simp [hlexeme])
        (by simpa [hlexeme, Scanned.width] using hwidth), hlexeme]
  | case4 place c rest found offset hfault =>
    rw [readFrom_of_fault hfault] at h
    cases h

end Token

end ProtoSchema
