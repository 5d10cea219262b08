import Mathlib.Algebra.Group.Nat.Defs
import Mathlib.Data.List.Basic
import ProtoSchema.Proofs.Schema.Numbered
import ProtoSchema.Proofs.Token.Replaced

/-!
The numbers of fields and enum values. The number of a field is written behind its name and an
equals sign, perhaps with a minus sign; it is read exactly, in each of the three bases, and a
number that is too large is an error where it stands. To say this of any number at any place, a
text that was read is taken with the literal at that place written in another way: the texts
are cut into the same tokens but for this one, and the two readings go along with each other.
-/

namespace ProtoSchema

open Phrase (numberLimit)
open Numeral (Spells)
open Schema

namespace Renumbering

variable {text : String} {tokens : List Token} {stop : Position} {token : Token}
  {written : String}

def replacing (tokens : List Token) (token : Token) (written other : String)
    (h : token.lexeme = .integer written) : Renumbering where
  tokens := tokens
  target := token
  written := written
  hwritten := h
  other := other
  move := fun position =>
    let before := token.position.after written.toList
    if position.Before before then position
    else before.shift (token.position.after other.toList) position

theorem move_replacing {other : String} {h : token.lexeme = .integer written} {position : Position}
    (hne : written.toList ≠ []) (hposition : ¬token.position.Before position) :
    (replacing tokens token written other h).move position = position := by
  have hbefore := token.position.before_after hne
  refine if_pos ?_
  unfold Position.Before at *
  omega

theorem map_token_replacing {other : String} {before others : List Token}
    (hne : written.toList ≠ []) (h : token.lexeme = .integer written)
    (hbefore : ∀ b ∈ before, b.position.Before token.position)
    (hothers : ∀ o ∈ others, ¬o.position.Before (token.position.after written.toList)) :
    (before ++ token :: others).map (replacing tokens token written other h).token =
      before ++ ⟨.integer other, token.position⟩ ::
        others.map (Token.moved ((token.position.after written.toList).shift
          (token.position.after other.toList))) := by
  have hself := token.position.not_before_self
  have hafter := token.position.before_after hne
  generalize hr : replacing tokens token written other h = r
  have htarget : r.target = token := by rw [← hr]; rfl
  have hstays (b : Token) (hb : b ∈ before) : r.token b = b := by
    have hother : b ≠ r.target := by
      rintro rfl
      exact hself (htarget ▸ hbefore _ hb)
    have hplace : r.move b.position = b.position := by
      rw [← hr]
      exact if_pos ((hbefore b hb).trans hafter)
    rw [token_of_ne hother, hplace]
  have hshifts (o : Token) (ho : o ∈ others) : r.token o = o.moved
      ((token.position.after written.toList).shift (token.position.after other.toList)) := by
    have hother : o ≠ r.target := by
      rintro rfl
      exact hothers _ ho (htarget.symm ▸ hafter)
    rw [token_of_ne hother, ← hr]
    exact congrArg (Token.mk o.lexeme) (if_neg (hothers o ho))
  have htoken : r.token token = ⟨.integer other, token.position⟩ := by
    have hchanged := r.token_target
    rw [htarget, ← hr, move_replacing hne hself] at hchanged
    rw [← hr]
    exact hchanged
  rw [List.map_append, List.map_cons, htoken, List.map_congr_left hstays, List.map_id',
    List.map_congr_left hshifts]

/-- A text that is read, cut at one of its integers: the characters in front of it and behind it,
and the tokens of both. In front of it the same tokens are read, whatever number stands there. -/
structure CutAt (text : String) (tokens : List Token) (stop : Position) (token : Token)
    (written : String) (front back : List Char) (before others : List Token) : Prop where
  text_eq : text.toList = front ++ (written.toList ++ back)
  position_eq : token.position = .reached front
  tokens_eq : tokens = before ++ token :: others
  ends : Numeral.Ends back
  front_eq : ∀ other m, Spells m other → Token.readFrom .start (front ++ (other ++ back)) =
    Token.behind before (Token.readFrom token.position (other ++ back))
  rest_eq : Token.readFrom (token.position.after written.toList) back = .ok (others, stop)

theorem exists_cutAt (hread : Token.read text = .ok (tokens, stop)) (htoken : token ∈ tokens)
    (hwritten : token.lexeme = .integer written) :
    (∃ n, Spells n written.toList ∧ n < UInt64.size) ∧
      ∃ front back before others,
        CutAt text tokens stop token written front back before others := by
  unfold Token.read at hread
  obtain ⟨front, c, rest, width, htext, hplace, hfirst⟩ := Token.exists_first_of_mem hread htoken
  rw [hwritten] at hfirst
  obtain ⟨back, n, hback, hspells, hn, hends⟩ := Token.integer_of_first hfirst
  rw [hback] at htext
  obtain ⟨before, hbefore⟩ : ∃ before, ∀ other m, Spells m other →
      Token.readFrom .start (front ++ (other ++ back)) =
        Token.behind before (Token.readFrom token.position (other ++ back)) := by
    obtain ⟨d, ds, hds, hd⟩ := hspells.head_isDigit
    rw [htext, hds, List.cons_append] at hread
    obtain ⟨before, hbefore⟩ := Token.exists_before_digit hd hread htoken hplace
    refine ⟨before, fun other m hother => ?_⟩
    obtain ⟨e, es, hes, he⟩ := hother.head_isDigit
    rw [hes, List.cons_append, hplace]
    exact hbefore e (es ++ back) he
  rw [htext, hbefore _ _ hspells, Token.readFrom_spells hspells hn hends] at hread
  cases hrest : Token.readFrom (token.position.after written.toList) back with
  | error e =>
    rw [hrest] at hread
    cases hread
  | ok found =>
    obtain ⟨others, last⟩ := found
    rw [hrest] at hread
    cases hread
    have hsame : token = ⟨.integer written, token.position⟩ := by rw [← hwritten]
    exact ⟨⟨n, hspells, hn⟩, front, back, before, others, htext,
      hplace.trans (Position.reached_after [] front), congrArg (before ++ · :: others) hsame.symm,
      hends, hbefore, hrest⟩

namespace CutAt

variable {front back : List Char} {before others : List Token} {other : String} {m : Nat}

/-- With a number that fits in 64 bits in place of the integer just its token is another. -/
theorem read_of_fit (h : CutAt text tokens stop token written front back before others)
    (hread : Token.read text = .ok (tokens, stop)) (hwritten : token.lexeme = .integer written)
    (hne : written.toList ≠ []) (hother : Spells m other.toList) (hm : m < UInt64.size) :
    Token.read (String.ofList (front ++ (other.toList ++ back))) =
      .ok (tokens.map (replacing tokens token written other hwritten).token,
        (replacing tokens token written other hwritten).move stop) := by
  have hwell := Token.wellRead h.rest_eq
  have hearlier : ∀ b ∈ before, b.position.Before token.position := fun b hb =>
    (List.pairwise_append.mp (h.tokens_eq ▸ (Token.wellRead hread).pairwise)).2.2 b hb token
      List.mem_cons_self
  have hstop : ¬stop.Before (token.position.after written.toList) := by
    rw [hwell.stop_eq]
    exact Position.not_before_after _ back
  have hmove : (replacing tokens token written other hwritten).move stop =
      (token.position.after written.toList).shift (token.position.after other.toList) stop :=
    if_neg hstop
  have hmap : tokens.map (replacing tokens token written other hwritten).token = _ :=
    (congrArg (List.map _) h.tokens_eq).trans
      (map_token_replacing hne hwritten hearlier hwell.from_place)
  rw [Token.read, String.toList_ofList, h.front_eq _ _ hother,
    Token.readFrom_spells hother hm h.ends,
    Token.readFrom_eq_shifted (token.position.after written.toList), h.rest_eq, hmove, hmap]
  rfl

/-- A number that does not fit in 64 bits is rejected where the integer stood. -/
theorem read_of_large (h : CutAt text tokens stop token written front back before others)
    (hother : Spells m other.toList) (hm : UInt64.size ≤ m) :
    ∃ fault, Token.read (String.ofList (front ++ (other.toList ++ back))) =
      .error ⟨token.position, fault⟩ := by
  obtain ⟨e, es, hes, he⟩ := hother.head_isDigit
  have hrun := hother.run_eq h.ends
  have hlarge (k : Nat) (hk : Spells k (e :: es)) : UInt64.size ≤ k := by
    rw [← hes] at hk
    rwa [hk.eq_of_spells hother]
  have hinteger : ¬Numeral.Fraction (e :: es) := by
    intro hfraction
    have hkind := Numeral.kind_eq_decimal_iff.mpr hfraction
    rw [← hes, hother.kind_of_large hm] at hkind
    cases hkind
  rw [hes] at hrun
  obtain ⟨fault, hfault⟩ := Token.readFrom_run he hrun hlarge hinteger token.position
  refine ⟨fault, ?_⟩
  rw [Token.read, String.toList_ofList, h.front_eq _ _ hother, hes, hfault]
  rfl

end CutAt

/-- A text that is read, with one of its integers replaced by another number. -/
theorem read_replacing (hread : Token.read text = .ok (tokens, stop)) (htoken : token ∈ tokens)
    (hwritten : token.lexeme = .integer written) : ∃ front back n,
      text.toList = front ++ (written.toList ++ back) ∧ token.position = .reached front ∧
      Spells n written.toList ∧ n < UInt64.size ∧
      ∀ other m, Spells m other.toList →
        let replaced := String.ofList (front ++ (other.toList ++ back))
        let r := replacing tokens token written other hwritten
        (m < UInt64.size → Token.read replaced = .ok (tokens.map r.token, r.move stop)) ∧
        (UInt64.size ≤ m → ∃ fault, Token.read replaced = .error ⟨token.position, fault⟩) := by
  obtain ⟨⟨n, hspells, hn⟩, front, back, before, others, hcut⟩ := exists_cutAt hread htoken hwritten
  exact ⟨front, back, n, hcut.text_eq, hcut.position_eq, hspells, hn, fun other m hother =>
    ⟨hcut.read_of_fit hread hwritten hspells.ne_nil hother, hcut.read_of_large hother⟩⟩

theorem target_replacing {other : String} (hwritten : token.lexeme = .integer written)
    (hne : written.toList ≠ []) :
    (replacing tokens token written other hwritten).token token =
      ⟨.integer other, token.position⟩ :=
  token_target.trans (congrArg (Token.mk _) (move_replacing hne token.position.not_before_self))

theorem Unfit.lt {r : Renumbering} {m : Nat} (h : r.Unfit) (hother : Spells m r.other.toList) :
    numberLimit < m := by
  by_contra hfit
  cases (limited_eq_some_iff.mpr ⟨hother, Nat.le_of_not_lt hfit⟩).symm.trans h

/-- A file that was read is read with another number in place of an integer too, or that number
is too large and the file is rejected for it. -/
theorem file_replacing {file : File} {other replaced : String} {m : Nat}
    (hread : Token.read text = .ok (tokens, stop)) (hfile : File.read text = .ok file)
    (hwritten : token.lexeme = .integer written) (hne : written.toList ≠ [])
    (hother : Spells m other.toList)
    (hreplaced : Token.read replaced =
      .ok (tokens.map (replacing tokens token written other hwritten).token,
        (replacing tokens token written other hwritten).move stop)) :
    (∃ file', File.read replaced = .ok file' ∧
      (replacing tokens token written other hwritten).Keeps File.HasNumber file file') ∨
    (numberLimit < m ∧ ∃ more,
      File.read replaced = .error (⟨token.position, .integerRange other⟩ :: more)) := by
  rw [File.read, hread] at hfile
  rcases ofTokens (r := replacing tokens token written other hwritten) hfile with
    ⟨file', hfile', hkeeps⟩ | ⟨hunfit, more, herror⟩
  · refine .inl ⟨file', ?_, hkeeps⟩
    rw [File.read, hreplaced]
    exact hfile'
  · refine .inr ⟨hunfit.lt hother, more, ?_⟩
    rw [File.read, hreplaced]
    refine herror.trans (congrArg (fun p => Except.error (⟨p, .integerRange other⟩ :: more)) ?_)
    exact move_replacing hne token.position.not_before_self

/-- If a text can be read with another number in place of an integer, then it can be read as it
is, or the integer is too large and the text is rejected for it. -/
theorem read_of_replaced {front back : List Char} {other : String} {n m : Nat} {file : File}
    (hread : Token.read text = .ok (tokens, stop)) (htoken : token ∈ tokens)
    (hwritten : token.lexeme = .integer written)
    (htext : text.toList = front ++ (written.toList ++ back))
    (hplace : token.position = .reached front) (hspells : Spells n written.toList)
    (hother : Spells m other.toList)
    (hfile : File.read (String.ofList (front ++ (other.toList ++ back))) = .ok file) :
    (∃ file', File.read text = .ok file') ∨
    (numberLimit < n ∧ ∃ more,
      File.read text = .error (⟨token.position, .integerRange written⟩ :: more)) := by
  obtain ⟨front', back', n', htext', hplace', hspells', hn, hreplaced⟩ :=
    read_replacing hread htoken hwritten
  obtain rfl := Position.reached_inj (htext'.symm.trans htext) (hplace'.symm.trans hplace)
  obtain rfl := List.append_cancel_left (List.append_cancel_left (htext'.symm.trans htext))
  obtain rfl := hspells.eq_of_spells hspells'
  obtain ⟨hfits, hlarge⟩ := hreplaced other m hother
  rcases Nat.lt_or_ge m UInt64.size with hless | hmore
  · have hread' := hfits hless
    have hmem := List.mem_map_of_mem
      (f := (replacing tokens token written other hwritten).token) htoken
    rw [target_replacing hwritten hspells.ne_nil] at hmem
    -- In the text that was read the integer is put back.
    obtain ⟨front'', back'', _, htext'', hplace'', _, _, hrestored⟩ :=
      read_replacing hread' hmem rfl
    rw [String.toList_ofList] at htext''
    obtain rfl := Position.reached_inj htext'' (hplace.symm.trans hplace'')
    obtain rfl := List.append_cancel_left (List.append_cancel_left htext'')
    have hback := (hrestored written n hspells).1 hn
    rw [← htext, String.ofList_toList] at hback
    rcases file_replacing hread' hfile rfl hother.ne_nil hspells hback with
      ⟨file', hfile', _⟩ | hrejected
    · exact .inl ⟨file', hfile'⟩
    · exact .inr hrejected
  · obtain ⟨fault, herror⟩ := hlarge hmore
    rw [File.read, herror] at hfile
    cases hfile

theorem eq_of_append_of_nodup {front front' behind behind' : List Token} {token' : Token}
    (hapart : ((front ++ token :: behind).map (·.position)).Nodup)
    (h : front ++ token :: behind = front' ++ token' :: behind')
    (hposition : token'.position = token.position) : behind = behind' := by
  have hparts := hapart
  rw [List.map_append, List.map_cons, List.nodup_append, List.nodup_cons] at hparts
  obtain ⟨_, ⟨hbehind, _⟩, hfront⟩ := hparts
  refine ((List.append_cons_inj_of_notMem ?_ ?_).mp h).2.2
  · intro hmem
    exact hfront _ (List.mem_map_of_mem hmem) _ List.mem_cons_self hposition
  · intro hmem
    exact hbehind (hposition ▸ List.mem_map_of_mem hmem)

/-- One name is given a number by one literal only. -/
theorem Gives.unique {position : Position} {negative negative' : Bool} {literal literal' : Token}
    {other : String} (hapart : (tokens.map (·.position)).Nodup)
    (h : Gives tokens position negative literal) (h' : Gives tokens position negative' literal')
    (hwritten : literal.lexeme = .integer written)
    (hother : literal'.lexeme = .integer other) : negative' = negative ∧ literal' = literal := by
  obtain ⟨word, equals, sign, hsign, front, back, rfl⟩ := h
  obtain ⟨word', equals', sign', hsign', front', back', htokens⟩ := h'
  simp only [List.append_assoc, List.cons_append, List.nil_append] at hapart htokens
  have hbehind := eq_of_append_of_nodup hapart htokens.symm rfl
  exact hsign.eq_of_append hsign' hwritten hother (List.cons.inj hbehind).2

theorem Gives.map {r : Renumbering} {position : Position} {negative : Bool} {literal : Token}
    (h : Gives tokens position negative literal) :
    Gives (tokens.map r.token) (r.move position) negative (r.token literal) := by
  obtain ⟨word, equals, sign, hsign, hinfix⟩ := h
  have hword : r.token ⟨.word word, position⟩ = ⟨.word word, r.move position⟩ :=
    congrArg (Token.mk · _) ((r.lexeme_token_eq_iff _ (.word word) (by simp)).mpr rfl)
  have hmark : r.token ⟨.mark '=', equals⟩ = ⟨.mark '=', r.move equals⟩ :=
    congrArg (Token.mk · _) ((r.lexeme_token_eq_iff _ (.mark '=') (by simp)).mpr rfl)
  have hmoved := hinfix.map r.token
  rw [List.map_cons, List.map_cons, List.map_append, List.map_singleton, hword, hmark] at hmoved
  exact ⟨word, r.move equals, sign.map r.token, sign_token hsign, hmoved⟩

theorem Gives.mem {position : Position} {negative : Bool} {literal : Token}
    (h : Gives tokens position negative literal) : literal ∈ tokens := by
  obtain ⟨word, equals, sign, _, hinfix⟩ := h
  exact hinfix.subset (by simp)

/-- A number stands behind the name that it is given to. -/
theorem Gives.before {position : Position} {negative : Bool} {literal : Token}
    (hpairwise : tokens.Pairwise fun a b => a.position.Before b.position)
    (h : Gives tokens position negative literal) : position.Before literal.position := by
  obtain ⟨word, equals, sign, _, hinfix⟩ := h
  have hpart := List.Pairwise.sublist hinfix.sublist hpairwise
  exact (List.pairwise_cons.mp hpart).1 literal (by simp)

/-- Every number of a file that was read is that of a literal behind the name. -/
theorem exists_literal {file : File} {name : String} {position : Position} {x : Int}
    (hread : Token.read text = .ok (tokens, stop)) (hfile : File.read text = .ok file)
    (h : file.HasNumber name position x) : ∃ negative literal,
      Gives tokens position negative literal ∧ Amounts literal.lexeme negative x := by
  rw [File.read, hread] at hfile
  -- The text beside itself: no token of it is the changed one.
  let r : Renumbering := ⟨tokens, ⟨.integer "0", .none⟩, "0", rfl, "0", id⟩
  rcases ofTokens (r := r) hfile with ⟨file', _, hkeeps⟩ | ⟨hunfit, _⟩
  · obtain ⟨y, _, negative, literal, hgives, hamounts, _⟩ := hkeeps name position x h
    exact ⟨negative, literal, hgives, hamounts⟩
  · have hzero : (Numeral.value? "0".toList).filter (· ≤ numberLimit) = some 0 := by decide
    cases hzero.symm.trans hunfit

theorem Amounts.eq {lexeme : Lexeme} {negative : Bool} {x y : Int}
    (h : Amounts lexeme negative x) (h' : Amounts lexeme negative y) : x = y := by
  obtain ⟨written, n, rfl, hn, _, rfl⟩ := h
  obtain ⟨other, m, heq, hm, _, rfl⟩ := h'
  cases heq
  rw [hn.eq_of_spells hm]

/-- A name has no number but that of its literal. -/
theorem hasNumber_iff_of_gives {file : File} {name : String} {position : Position} {x y : Int}
    {negative : Bool} {literal : Token} (hread : Token.read text = .ok (tokens, stop))
    (hfile : File.read text = .ok file) (h : file.HasNumber name position x)
    (hgives : Gives tokens position negative literal) (hx : Amounts literal.lexeme negative y) :
    ∀ z, file.HasNumber name position z ↔ z = y := by
  have hapart := (Token.wellRead hread).nodup
  have heq (z : Int) (hz : file.HasNumber name position z) : z = y := by
    obtain ⟨negative', literal', hgives', hz⟩ := exists_literal hread hfile hz
    obtain ⟨written, n, hwritten, hn⟩ := hx
    obtain ⟨other, m, hother, hm⟩ := hz
    obtain ⟨rfl, rfl⟩ := hgives.unique hapart hgives' hwritten hother
    exact Amounts.eq ⟨other, m, hother, hm⟩ ⟨written, n, hwritten, hn⟩
  refine fun z => ⟨heq z, ?_⟩
  rintro rfl
  rwa [← heq x h]

/-- With another number behind the name either the name has that number, or the number is too
large and the file is rejected for it. -/
theorem replaced_number {file : File} {name other replaced : String} {position : Position} {x : Int}
    {negative : Bool} {m : Nat} (hread : Token.read text = .ok (tokens, stop))
    (hfile : File.read text = .ok file) (hx : file.HasNumber name position x)
    (hgives : Gives tokens position negative token) (hwritten : token.lexeme = .integer written)
    (hne : written.toList ≠ []) (hother : Spells m other.toList)
    (hreplaced : Token.read replaced =
      .ok (tokens.map (replacing tokens token written other hwritten).token,
        (replacing tokens token written other hwritten).move stop)) :
    (m ≤ numberLimit ∧ ∃ file', File.read replaced = .ok file' ∧
      ∀ y, file'.HasNumber name position y ↔ y = if negative then -(m : Int) else m) ∨
    (numberLimit < m ∧ ∃ more,
      File.read replaced = .error (⟨token.position, .integerRange other⟩ :: more)) := by
  have hplace : (replacing tokens token written other hwritten).move position = position := by
    refine move_replacing hne fun hbehind => token.position.not_before_self ?_
    exact hbehind.trans (hgives.before (Token.wellRead hread).pairwise)
  have hmapped := hgives.map (r := replacing tokens token written other hwritten)
  rw [hplace, target_replacing hwritten hne] at hmapped
  rcases file_replacing hread hfile hwritten hne hother hreplaced with
    ⟨file', hread', hkeeps⟩ | hrejected
  · obtain ⟨y, hy, _⟩ := hkeeps name position x hx
    rw [hplace] at hy
    obtain ⟨negative', literal, hliteral, hamounts⟩ := exists_literal hreplaced hread' hy
    have hlexeme := hamounts
    obtain ⟨digits, k, hdigits, hk, hlimit, _⟩ := hlexeme
    obtain ⟨rfl, rfl⟩ :=
      hmapped.unique (Token.wellRead hreplaced).nodup hliteral rfl hdigits
    cases hdigits
    obtain rfl := hk.eq_of_spells hother
    exact .inl ⟨hlimit, file', hread',
      hasNumber_iff_of_gives hreplaced hread' hy hmapped ⟨_, _, rfl, hk, hlimit, rfl⟩⟩
  · exact .inr hrejected

/-- With any number behind the name, be it one of 64 bits or not, the name has that number or the
file is rejected at the literal. -/
theorem replaced_number_of_spells {file : File} {name other replaced : String}
    {position : Position} {x : Int} {negative : Bool} {m : Nat}
    (hread : Token.read text = .ok (tokens, stop)) (hfile : File.read text = .ok file)
    (hx : file.HasNumber name position x) (hgives : Gives tokens position negative token)
    (hwritten : token.lexeme = .integer written) (hne : written.toList ≠ [])
    (hother : Spells m other.toList)
    (hfits : m < UInt64.size → Token.read replaced =
      .ok (tokens.map (replacing tokens token written other hwritten).token,
        (replacing tokens token written other hwritten).move stop))
    (hlarge : UInt64.size ≤ m → ∃ fault, Token.read replaced = .error ⟨token.position, fault⟩) :
    (m ≤ numberLimit → ∃ file', File.read replaced = .ok file' ∧
      ∀ y, file'.HasNumber name position y ↔ y = if negative then -(m : Int) else m) ∧
    (numberLimit < m → ∃ fault more,
      File.read replaced = .error (⟨token.position, fault⟩ :: more)) := by
  have hlimit : numberLimit < UInt64.size := by decide
  rcases Nat.lt_or_ge m UInt64.size with hless | hmore
  · rcases replaced_number hread hfile hx hgives hwritten hne hother (hfits hless) with
      ⟨hfit, hread'⟩ | ⟨hbeyond, more, herror⟩
    · exact ⟨fun _ => hread', fun hm => absurd hm (Nat.not_lt_of_le hfit)⟩
    · exact ⟨fun hm => absurd hbeyond (Nat.not_lt_of_le hm), fun _ => ⟨_, more, herror⟩⟩
  · refine ⟨fun hm => absurd (hlimit.trans_le hmore) (Nat.not_lt_of_le hm), fun _ => ?_⟩
    obtain ⟨fault, herror⟩ := hlarge hmore
    refine ⟨fault, [], ?_⟩
    rw [File.read, herror]

end Renumbering

namespace Schema

open Renumbering (Gives)

/-- The number that is meant with a minus sign or without one. -/
def signed (negative : Bool) (n : Nat) : Int := if negative then -(n : Int) else n

/-- What is written as a field or an enum value has the number of its literal, and no other. -/
theorem hasNumber_iff_of_numbered {text literal name : String} {tokens : List Token}
    {stop position place : Position} {negative : Bool} {n : Nat} {file : File}
    (hread : Token.read text = .ok (tokens, stop)) (hfile : File.read text = .ok file)
    (h : Numbered tokens name position negative ⟨.integer literal, place⟩)
    (hspells : Spells n literal.toList) :
    n ≤ numberLimit ∧ ∀ y, file.HasNumber name position y ↔ y = signed negative n := by
  obtain ⟨_, _, hread', hsteps⟩ := File.steps_of_read hfile
  cases hread.symm.trans hread'
  obtain ⟨x, hamounts, hx⟩ := File.hasNumber_of_numbered hsteps h rfl
  have hiff := Renumbering.hasNumber_iff_of_gives hread hfile hx h.gives hamounts
  obtain ⟨_, _, hsame, hspells', hlimit, rfl⟩ := hamounts
  cases hsame
  obtain rfl := hspells'.eq_of_spells hspells
  exact ⟨hlimit, hiff⟩

/-- The number of a field or an enum value is that of its literal, negative behind a minus sign.
Any other number in place of the literal is the number of the field or the enum value then, if it
is not too large, else the file is rejected with an error at the literal. Whatever is written as
a field or an enum value has its number in every file that is read, and if it is only its literal
that the file can be rejected for, the file is read or rejected with an error at the literal. A
run of digits and letters that starts with a digit is rejected if it spells neither a number
below 2^64 nor a fraction. -/
theorem numbers_are_exact :
    (∀ {text : String} {file : File}, File.read text = .ok file →
      ∀ {name : String} {position : Position} {x : Int}, file.HasNumber name position x →
      ∃ (tokens : List Token) (stop : Position) (negative : Bool) (front back : List Char)
          (literal : String) (n : Nat),
        Token.read text = .ok (tokens, stop) ∧
        Gives tokens position negative ⟨.integer literal, .reached front⟩ ∧
        text.toList = front ++ (literal.toList ++ back) ∧
        Spells n literal.toList ∧ n ≤ 2 ^ 63 - 1 ∧
        (∀ y, file.HasNumber name position y ↔ y = signed negative n) ∧
        ∀ (other : String) (m : Nat), Spells m other.toList →
          let replaced := String.ofList (front ++ (other.toList ++ back))
          (m ≤ 2 ^ 63 - 1 → ∃ file', File.read replaced = .ok file' ∧
            ∀ y, file'.HasNumber name position y ↔ y = signed negative m) ∧
          (2 ^ 63 - 1 < m → ∃ fault more,
            File.read replaced = .error (⟨.reached front, fault⟩ :: more))) ∧
    (∀ {text : String} {tokens : List Token} {stop : Position},
      Token.read text = .ok (tokens, stop) →
      ∀ {name : String} {position place : Position} {negative : Bool} {literal : String},
      Numbered tokens name position negative ⟨.integer literal, place⟩ →
      ∃ (front back : List Char) (n : Nat), place = .reached front ∧
        text.toList = front ++ (literal.toList ++ back) ∧ Spells n literal.toList ∧
        (∀ file, File.read text = .ok file →
          n ≤ 2 ^ 63 - 1 ∧ ∀ y, file.HasNumber name position y ↔ y = signed negative n) ∧
        ∀ (other : String) (m : Nat) (file : File), Spells m other.toList →
          File.read (String.ofList (front ++ (other.toList ++ back))) = .ok file →
          (n ≤ 2 ^ 63 - 1 → ∃ file', File.read text = .ok file') ∧
          (2 ^ 63 - 1 < n → ∃ fault more,
            File.read text = .error (⟨.reached front, fault⟩ :: more))) ∧
    ∀ {text : String} {front run back : List Char}, text.toList = front ++ (run ++ back) →
      Token.ComesTo text.toList (run ++ back) → Numeral.run (run ++ back) = run →
      (∃ d ds, run = d :: ds ∧ d.isDigit = true) →
      (∀ n, Spells n run → 2 ^ 64 ≤ n) → ¬Numeral.Fraction run →
      ∃ fault, File.read text = .error [⟨.reached front, fault⟩] := by
  refine ⟨?_, ?_, ?_⟩
  · intro text file hfile name position x hx
    obtain ⟨tokens, stop, hread, _⟩ := File.steps_of_read hfile
    obtain ⟨negative, literal, hgives, hamounts⟩ := Renumbering.exists_literal hread hfile hx
    have hiff := Renumbering.hasNumber_iff_of_gives hread hfile hx hgives hamounts
    obtain ⟨written, n, hwritten, hspells, hlimit, rfl⟩ := hamounts
    obtain ⟨front, back, _, htext, hplace, _, _, hreplaced⟩ :=
      Renumbering.read_replacing hread hgives.mem hwritten
    have hliteral : literal = ⟨.integer written, .reached front⟩ := by
      rw [← hwritten, ← hplace]
    refine ⟨tokens, stop, negative, front, back, written, n, hread, hliteral ▸ hgives, htext,
      hspells, hlimit, hiff, fun other m hother => ?_⟩
    obtain ⟨hfits, hlarge⟩ := hreplaced other m hother
    have hsettled := Renumbering.replaced_number_of_spells hread hfile hx hgives hwritten
      hspells.ne_nil hother hfits hlarge
    rwa [hplace] at hsettled
  · intro text tokens stop hread name position place negative literal hnumbered
    have hmem := hnumbered.gives.mem
    obtain ⟨front, back, n, htext, hplace, hspells, _, _⟩ :=
      Renumbering.read_replacing hread hmem rfl
    have hfound (file : File) (hfile : File.read text = .ok file) :=
      hasNumber_iff_of_numbered hread hfile hnumbered hspells
    refine ⟨front, back, n, hplace, htext, hspells, hfound, fun other m file hother hfile => ?_⟩
    have hsettled := Renumbering.read_of_replaced hread hmem rfl htext hplace hspells hother hfile
    refine ⟨fun hn => ?_, fun hn => ?_⟩
    · rcases hsettled with hread' | ⟨hmore, _⟩
      · exact hread'
      · exact absurd hn (Nat.not_le_of_lt hmore)
    · rcases hsettled with ⟨file', hfile'⟩ | ⟨_, more, herror⟩
      · exact absurd (hfound file' hfile').1 (Nat.not_le_of_lt hn)
      · exact ⟨_, more, hplace ▸ herror⟩
  · intro text front run back htext hcomes hrun hdigit hspells hfraction
    obtain ⟨d, ds, rfl, hd⟩ := hdigit
    obtain ⟨front', htext', hfront⟩ := hcomes.exists_front
    obtain rfl : front = front' := List.append_cancel_right (htext.symm.trans htext')
    obtain ⟨before, hbefore⟩ := hfront .start
    obtain ⟨fault, hfault⟩ :=
      Token.readFrom_run hd hrun hspells hfraction (Position.start.after front)
    refine ⟨fault, ?_⟩
    rw [File.read, Token.read, hbefore, hfault, show Position.start.after front = .reached front
      from Position.reached_after [] front]
    rfl

theorem eq_ok_of_toOption {ε α : Type} {result : Except ε α} {a : α}
    (h : result.toOption = some a) : result = .ok a := by
  cases result with
  | error e => cases h
  | ok found => exact congrArg Except.ok (Option.some.inj h)

/-- A negative number in base sixteen, which 2^63 in base eight cannot stand in for, the value of
an enum with the number 2^63, and a run of digits that spells nothing. -/
theorem numbers_are_exact_based : ∃ (text : String) (file : File),
    File.read text = .ok file ∧ file.HasNumber "a" ⟨1, 19⟩ (-31) ∧
    (∃ (front back : List Char) (literal : String) (n : Nat) (fault : SyntaxFault)
        (more : List SyntaxError),
      text.toList = front ++ (literal.toList ++ back) ∧ Spells n literal.toList ∧
      -31 = signed true n ∧
      File.read (String.ofList (front ++ ("01000000000000000000000".toList ++ back))) =
        .error (⟨.reached front, fault⟩ :: more)) ∧
    (∃ fault more, File.read "enum E \x7b A = 0x8000000000000000; \x7d" =
      .error (⟨⟨1, 14⟩, fault⟩ :: more)) ∧
    ∃ fault, File.read " 09;" = .error [⟨⟨1, 2⟩, fault⟩] := by
  have hlarge : Spells (2 ^ 63) "01000000000000000000000".toList :=
    Numeral.spells_of_unbounded? (by decide)
  obtain ⟨file, hfile, message, hmessage, field, hfield, hnumber⟩ : ∃ file ∈
      (File.read "message M \x7b int32 a = -0x1F; \x7d").toOption, ∃ message ∈ file.messages,
      ∃ field ∈ message.fields, field.name = "a" ∧ field.position = ⟨1, 19⟩ ∧
        field.number = -31 := by decide +kernel
  have hread := eq_ok_of_toOption hfile
  have hnumber : file.HasNumber "a" ⟨1, 19⟩ (-31) :=
    .inl ⟨message, hmessage, .field hfield hnumber⟩
  obtain ⟨_, _, negative, front, back, literal, n, _, _, htext, hspells, _, hiff, hothers⟩ :=
    numbers_are_exact.1 hread hnumber
  have hsame := (hiff _).mp hnumber
  have hnegative : negative = true := by
    cases negative with
    | true => rfl
    | false => simp [signed] at hsame
  obtain ⟨fault, more, herror⟩ := (hothers _ _ hlarge).2 (by decide)
  refine ⟨_, file, hread, hnumber,
    ⟨front, back, literal, n, fault, more, htext, hspells, hnegative ▸ hsame, herror⟩, ?_, ?_⟩
  · let digits := "0x8000000000000000"
    let value : List Token :=
      [⟨.word "A", ⟨1, 10⟩⟩, ⟨.mark '=', ⟨1, 12⟩⟩, ⟨.integer digits, ⟨1, 14⟩⟩]
    let inner : List Token := value ++ [⟨.mark ';', ⟨1, 32⟩⟩]
    let enum : List Token := ⟨.word "enum", ⟨1, 1⟩⟩ :: ⟨.word "E", ⟨1, 6⟩⟩ ::
      ⟨.mark '\x7b', ⟨1, 8⟩⟩ :: (inner ++ [⟨.mark '\x7d', ⟨1, 34⟩⟩])
    obtain ⟨⟨tokens, stop⟩, hcut, rfl⟩ : ∃ found ∈
        (Token.read "enum E \x7b A = 0x8000000000000000; \x7d").toOption, found.1 = enum := by
      decide +kernel
    obtain ⟨tree, htree, _⟩ : ∃ tree ∈ (File.read "enum E \x7b A = 0; \x7d").toOption,
        tree.enums.length = 1 := by decide +kernel
    have hblock : NamedBlock "enum" "E" ⟨1, 6⟩ inner enum := .intro _ (.intro _ _ (by decide))
    have hpiece : Piece false false value :=
      .inert (Lexeme.isInert_word _) (.equals (.inert (Lexeme.isInert_integer _) .nil))
    have hnumbered : Numbered enum "A" ⟨1, 10⟩ false ⟨.integer digits, ⟨1, 14⟩⟩ :=
      .enumValue (.intro .file (.inl rfl) hblock.statement.hasStatement hblock)
        (hpiece _ (.semicolon ⟨1, 32⟩)).hasStatement (by simp [StartsWith, value])
        (@NumberTokens.intro _ _ _ _ [] [] _ ⟨1, 12⟩ (List.forall_mem_nil _) .plus)
    obtain ⟨front, back, n, hplace, htext, hspells, _, hothers⟩ :=
      numbers_are_exact.2.1 (eq_ok_of_toOption hcut) hnumbered
    have hcut' : "enum E \x7b A = 0x8000000000000000; \x7d".toList =
        "enum E \x7b A = ".toList ++ (digits.toList ++ "; \x7d".toList) := by decide
    obtain rfl : "enum E \x7b A = ".toList = front :=
      Position.reached_inj (hcut'.symm.trans htext) (.trans (by decide) hplace)
    obtain rfl := List.append_cancel_left (List.append_cancel_left (hcut'.symm.trans htext))
    have hdigits : Spells (2 ^ 63) digits.toList := Numeral.spells_of_unbounded? (by decide)
    obtain rfl := hdigits.eq_of_spells hspells
    obtain ⟨fault, more, herror⟩ := (hothers "0" 0 tree (Numeral.spells_of_unbounded? (by decide))
      (eq_ok_of_toOption htree)).2 (by decide)
    exact ⟨fault, more, hplace ▸ herror⟩
  · have hkind : Numeral.kind "09".toList = .badInteger := by decide
    have hspells' : ∀ n, Spells n "09".toList → 2 ^ 64 ≤ n := by
      intro n hn
      by_contra hless
      cases hkind.symm.trans (Numeral.kind_eq_integer_iff.mpr ⟨n, Nat.lt_of_not_le hless, hn⟩)
    have hfraction : ¬Numeral.Fraction "09".toList := by
      intro hfraction
      cases hkind.symm.trans (Numeral.kind_eq_decimal_iff.mpr hfraction)
    exact numbers_are_exact.2.2 (show " 09;".toList = [' '] ++ ("09".toList ++ [';']) from rfl)
      (.gap rfl (.here _)) (by decide) ⟨'0', ['9'], rfl, rfl⟩ hspells' hfraction

end Schema

end ProtoSchema
