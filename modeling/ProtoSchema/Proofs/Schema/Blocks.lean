import ProtoSchema.Proofs.Schema.Files

/-!
Errors stay inside their block. The statements of a block end at the brace that matches its
opening one, whatever stands between them, and their errors stand there too. So what a text
says behind a block is read in the same way whatever the block has in it.
-/

namespace ProtoSchema

namespace Phrase

open Schema

/-- The readers of the statements in blocks: of messages and groups, oneofs, enums, services,
methods and extend blocks. Message bodies nest to any depth. -/
inductive ReadsItems : {σ : Type} → (σ → Phrase σ) → Prop
  | message (depth : Nat) : ReadsItems (messageStatement (bodyWithin depth))
  | oneof (depth index : Nat) : ReadsItems (oneofStatement (bodyWithin depth) index)
  | enum : ReadsItems enumStatement
  | service : ReadsItems serviceStatement
  | method : ReadsItems methodStatement
  | extend (depth : Nat) : ReadsItems (extendStatement (bodyWithin depth))

/-- Each of them reads alike, from any state on. -/
theorem ReadsItems.alike {σ : Type} {statement : σ → Phrase σ} (h : ReadsItems statement)
    {l : Bond} (hword : ∀ word, l.Word word) (n : Nat) :
    ∃ S : σ → σ → Prop, (∀ s, S s s) ∧
      ∀ s s', S s s' → l.Alike n 1 S (statement s) (statement s') := by
  cases h with
  | message depth =>
    exact ⟨l.Named, fun s => ⟨rfl, hword _⟩, fun s s' hs =>
      Bond.messageStatement (Bond.bodyWithin depth depth (.inl rfl)) hs⟩
  | oneof depth index =>
    exact ⟨l.Named, fun s => ⟨rfl, hword _⟩, fun s s' hs =>
      Bond.oneofStatement (Bond.bodyWithin depth depth (.inl rfl)) index hs⟩
  | enum => exact ⟨l.NamedEnum, fun s => ⟨rfl, hword _⟩, fun s s' hs => Bond.enumStatement hs⟩
  | service => exact ⟨Bond.Same Service.unplaced, fun _ => rfl, fun s s' hs =>
      Bond.serviceStatement hs⟩
  | method => exact ⟨Bond.Same (List.map OptionSetting.unplaced), fun _ => rfl, fun s s' hs =>
      Bond.methodStatement hs⟩
  | extend depth =>
    exact ⟨l.NamesGroups, fun s => ⟨rfl, fun m _ => hword _⟩, fun s s' hs =>
      Bond.extendStatement (Bond.bodyWithin depth depth (.inl rfl)) hs⟩

variable {σ : Type} {statement : σ → Phrase σ} {t : Tape} {open_ close : Token}
  {body rest : List Token}

structure StandIn (body : List Token) (close : Token) (errors : List SyntaxError) : Prop where
  position : ∀ e ∈ errors, ∃ token ∈ body ++ [close], e.position = token.position
  of_nil : body = [] → errors = []

/-- A block ends at the brace that matches its opening one, and its errors stand in it. -/
theorem block_ends (h : ReadsItems statement) (name : String) (s : σ)
    (hahead : t.ahead = open_ :: body ++ close :: rest) (hopen : open_.lexeme = .mark '\x7b')
    (hclose : close.lexeme = .mark '\x7d') (hbody : Token.Balanced body) :
    ∃ result errors, (block name statement s).on t =
        (.ok result, ⟨rest, t.stop, errors ++ t.faults⟩) ∧ StandIn body close errors := by
  let l : Bond := { Bond.moving t.stop id t.faults with
    Spot := fun p => ∃ token ∈ body ++ [close], p = token.position
    earlier := t.faults }
  have hdrop : (t.drop 1).ahead = body ++ close :: rest := by
    simp only [Tape.drop, hahead, List.cons_append, List.drop_one, List.tail_cons]
  have haround : l.Around (some rest) (t.drop 1).ahead :=
    ⟨body, close, hdrop, hclose, hbody, fun token htoken => ⟨token, htoken, rfl⟩⟩
  have hties := Bond.ties_self (l := l) (t := t.drop 1) rfl rfl rfl rfl rfl rfl
    (fun _ _ _ _ => trivial) haround
  obtain ⟨S, hrefl, halike⟩ := h.alike (l := l) (fun _ => trivial) (t.drop 1).ahead.length
  have hended := Bond.statements halike name (hrefl s) hties
  obtain ⟨⟨result, hresult⟩, hbehind⟩ := hended.closed rest rfl
  obtain ⟨errors, hfaults, _, hspots⟩ := hended.tied.faults
  refine ⟨result, errors, ?_, hspots, ?_⟩
  swap
  · rintro rfl
    rw [statements_of_close hdrop hclose] at hfaults
    exact List.self_eq_append_left.mp hfaults
  rw [on_block (by simp [Tape.lexeme?, hahead, hopen])]
  have hstop : (statements name statement s (t.drop 1)).2.stop = t.stop := hended.tied.ends.1
  generalize statements name statement s (t.drop 1) = outcome at hresult hbehind hfaults hstop ⊢
  obtain ⟨r, ahead, stop, faults⟩ := outcome
  simp only at hresult hbehind hfaults hstop
  subst hresult hbehind hfaults hstop
  rfl

/-- A message whose block is read whole is a statement of the file. -/
theorem fileStatements_of_message {depth : Nat} {word name : Token} {inner : List Token}
    {text : String} {result : Message} {errors : List SyntaxError}
    (hahead : t.ahead = word :: name :: inner) (hword : word.lexeme = .word "message")
    (hname : name.lexeme = .word text) (hless : rest.length < t.ahead.length)
    (hblock : (block "message" (messageStatement (bodyWithin depth))
      (emptyMessage text name.position)).on (t.drop 2) = (.ok result, ⟨rest, t.stop, errors⟩)) :
    fileStatements (bodyWithin (depth + 1)) true .empty t =
      fileStatements (bodyWithin (depth + 1)) false { File.empty with messages := [result] }
        ⟨rest, t.stop, errors⟩ := by
  have hkeyword : t.lexeme? 0 = some (.word "message") := by simp [Tape.lexeme?, hahead, hword]
  have hidentifier : (t.drop 1).lexeme? 0 = some (.word text) := by
    simp [Tape.lexeme?, Tape.drop, hahead, hname]
  have hplace : (t.drop 1).place = name.position := by simp [Tape.place, Tape.drop, hahead]
  have hdrop : (t.drop 1).drop 1 = t.drop 2 := by simp [Tape.drop]
  have hmessage : (message (bodyWithin (depth + 1))).on t =
      (.ok result, ⟨rest, t.stop, errors⟩) := by
    rw [message, on_bind, on_keyword hkeyword]
    simp only [on_place_bind, hplace]
    rw [on_bind, on_identifier hidentifier, hdrop]
    exact hblock
  have hstatement : (fileStatement (bodyWithin (depth + 1)) true .empty).on t =
      (.ok { File.empty with messages := [result] }, ⟨rest, t.stop, errors⟩) := by
    rw [fileStatement, on_bind, on_take?, if_neg (by simp [hkeyword])]
    change (look 0 >>= _).on t = _
    rw [on_look_bind, hkeyword]
    change (message (bodyWithin (depth + 1)) >>= _).on t = _
    rw [on_bind, hmessage]
    rfl
  exact fileStatements_of_ok hstatement hless

theorem fileStatements_message (depth : Nat) {word name : Token} {text : String}
    (hahead : t.ahead = word :: name :: open_ :: body ++ close :: rest)
    (hword : word.lexeme = .word "message") (hname : name.lexeme = .word text)
    (hopen : open_.lexeme = .mark '\x7b') (hclose : close.lexeme = .mark '\x7d')
    (hbody : Token.Balanced body) :
    ∃ message errors, fileStatements (bodyWithin (depth + 1)) true .empty t =
        fileStatements (bodyWithin (depth + 1)) false { File.empty with messages := [message] }
          ⟨rest, t.stop, errors ++ t.faults⟩ ∧ StandIn body close errors := by
  have hblock := block_ends (t := t.drop 2) (.message depth) "message"
    (emptyMessage text name.position) (by simp [Tape.drop, hahead]; rfl) hopen hclose hbody
  obtain ⟨result, errors, hresult, herrors⟩ := hblock
  have hless : rest.length < t.ahead.length := by
    rw [hahead]
    simp only [List.length_cons, List.length_append]
    omega
  exact ⟨result, errors, fileStatements_of_message hahead hword hname hless hresult, herrors⟩

end Phrase

namespace Schema.File

def errorsOf : Except (List SyntaxError) File → List SyntaxError
  | .ok _ => []
  | .error errors => errors

theorem errorsOf_ofTokens (tokens : List Token) (stop : Position) :
    errorsOf (ofTokens tokens stop) =
      (Phrase.fileStatements (Phrase.bodyWithin tokens.length) true .empty
        ⟨tokens, stop, []⟩).2.faults.reverse := by
  unfold ofTokens
  simp only
  split
  · next hnone =>
    rw [hnone]
    rfl
  · rfl

end Schema.File

def Position.behind (text : String) : Position := Position.start.after text.toList

/-- In front of a closing brace the text is read as the tokens. The brace is read as such, being
neither in a comment nor in a string, and is the last character. -/
def ReadsAs (text : String) (tokens : List Token) : Prop :=
  ∃ place, Token.read (text ++ "\x7d") =
    .ok (tokens ++ [⟨.mark '\x7d', place⟩], place.step '\x7d')

theorem Position.behind_append (text more : String) :
    Position.behind (text ++ more) = (Position.behind text).after more.toList := by
  rw [behind, behind, String.toList_append, after_append]

theorem Position.step_close_injective {p q : Position} (h : p.step '\x7d' = q.step '\x7d') :
    p = q := by
  obtain ⟨line, column⟩ := p
  obtain ⟨line', column'⟩ := q
  simp only [step, Char.reduceEq, if_false, mk.injEq, Nat.add_right_cancel_iff] at h
  rw [h.1, h.2]

/-- A body is read from any place on, and the closing brace stands right behind it. -/
theorem ReadsAs.cuts {text : String} {tokens : List Token} (h : ReadsAs text tokens)
    (place : Position) :
    Token.Cuts place (text.toList ++ ['\x7d'])
        (tokens.map (Token.moved (Position.start.shift place)) ++
          [⟨.mark '\x7d', place.after text.toList⟩]) ∧
      ∀ token ∈ tokens.map (Token.moved (Position.start.shift place)) ++
          [⟨.mark '\x7d', place.after text.toList⟩],
        ¬token.position.Before place ∧ ¬(place.after text.toList).Before token.position := by
  obtain ⟨last, hread⟩ := h
  have hlast : ¬last.Before .start :=
    (Token.wellRead hread).from_place ⟨.mark '\x7d', last⟩ (by simp)
  have hmoved := Token.readFrom_eq_shifted .start place (text ++ "\x7d").toList
  have hplace : Token.readFrom place (text.toList ++ ['\x7d']) =
      .ok (tokens.map (Token.moved (Position.start.shift place)) ++
        [⟨.mark '\x7d', Position.start.shift place last⟩],
        (Position.start.shift place last).step '\x7d') := by
    have hsame : Token.readFrom .start (text ++ "\x7d").toList =
        .ok (tokens ++ [⟨.mark '\x7d', last⟩], last.step '\x7d') := hread
    rw [hsame, String.toList_append] at hmoved
    refine hmoved.trans ?_
    simp only [Token.shifted, List.map_append, List.map_singleton, Position.shift_step hlast]
    rfl
  have hwell := Token.wellRead hplace
  have hend : Position.start.shift place last = place.after text.toList := by
    refine Position.step_close_injective (hwell.stop_eq.trans ?_)
    rw [Position.after_append]
    rfl
  rw [hend] at hplace hwell
  refine ⟨Token.cuts_of_close hplace, fun token htoken => ⟨hwell.from_place token htoken, ?_⟩⟩
  rcases List.mem_append.mp htoken with hinner | hclose
  · have hbefore := (List.pairwise_append.mp hwell.pairwise).2.2 token hinner _
      (List.mem_singleton.mpr rfl)
    intro hafter
    exact Position.not_before_self _ (hafter.trans hbefore)
  · rw [List.mem_singleton.mp hclose]
    exact Position.not_before_self _

theorem readsAs_of_cuts {text : String} {tokens : List Token}
    (h : Token.Cuts .start text.toList tokens) : ReadsAs text tokens := by
  have hclosed := h.append (Token.cuts_brace _ (.inr rfl)) []
  rw [Token.readFrom_nil, List.append_nil, Position.after_append] at hclosed
  refine ⟨.behind text, ?_⟩
  rw [Token.read, String.toList_append]
  refine hclosed.trans ?_
  simp only [Token.behind, List.append_nil]
  rfl

theorem Position.behind_brace (name : String) :
    (behind ("message " ++ name ++ " ")).after ['\x7b'] =
      behind ("message " ++ name ++ " \x7b") := by
  have htext : "message " ++ name ++ " \x7b" = "message " ++ name ++ " " ++ "\x7b" := by
    simp only [String.append_assoc]
    rfl
  rw [htext]
  exact (behind_append _ "\x7b").symm

def messageText (name body : String) : String := "message " ++ name ++ " \x7b" ++ body ++ "\x7d"

def bodyTokens (name : String) (tokens : List Token) : List Token :=
  tokens.map (Token.moved (Position.start.shift (.behind ("message " ++ name ++ " \x7b"))))

def messageTokens (name body : String) (tokens : List Token) : List Token :=
  ⟨.word "message", .start⟩ :: ⟨.word name, .behind "message "⟩ ::
    ⟨.mark '\x7b', .behind ("message " ++ name ++ " ")⟩ :: bodyTokens name tokens ++
      [⟨.mark '\x7d', .behind ("message " ++ name ++ " \x7b" ++ body)⟩]

theorem messageTokens_append (name body : String) (tokens more : List Token) :
    messageTokens name body tokens ++ more =
      ⟨.word "message", .start⟩ :: ⟨.word name, .behind "message "⟩ ::
        ⟨.mark '\x7b', .behind ("message " ++ name ++ " ")⟩ :: bodyTokens name tokens ++
          ⟨.mark '\x7d', .behind ("message " ++ name ++ " \x7b" ++ body)⟩ :: more := by
  simp only [messageTokens, List.cons_append, List.append_assoc, List.nil_append]

theorem balanced_bodyTokens (name : String) {tokens : List Token} (h : Token.Balanced tokens) :
    Token.Balanced (bodyTokens name tokens) := by
  rw [Token.Balanced, bodyTokens, Token.nest_map]
  exact h

theorem cuts_message {name body : String} {tokens : List Token} (hname : Scanned.IsWord name)
    (hbody : ReadsAs body tokens) :
    Token.Cuts .start (messageText name body).toList (messageTokens name body tokens) := by
  have hbefore : Position.start.after ("message".toList ++ [' ']) = .behind "message " := rfl
  have hafter : (Position.behind "message ").after (name.toList ++ [' ']) =
      .behind ("message " ++ name ++ " ") := by
    rw [String.append_assoc, Position.behind_append, String.toList_append]
    rfl
  have hbehind := Position.behind_brace name
  have htext : (messageText name body).toList =
      "message".toList ++ [' '] ++
        (name.toList ++ [' '] ++ (['\x7b'] ++ (body.toList ++ ['\x7d']))) := by
    simp only [messageText, String.toList_append, List.append_assoc]
    rfl
  have hinner := (hbody.cuts (.behind ("message " ++ name ++ " \x7b"))).1
  rw [← hbehind] at hinner
  have hopen := (Token.cuts_brace _ (.inl rfl)).append hinner
  rw [← hafter] at hopen
  have hnamed := (Token.cuts_word _ hname).append hopen
  rw [← hbefore] at hnamed
  have hword : Scanned.IsWord "message" := by decide
  have hall := (Token.cuts_word .start hword).append hnamed
  rw [hbefore, hafter, hbehind, ← Position.behind_append] at hall
  rw [htext]
  exact hall

/-- The tokens of the body stand behind the opening brace, and none behind the closing one. -/
theorem ReadsAs.inside {body : String} {tokens : List Token} (h : ReadsAs body tokens)
    (name : String) :
    ∀ token ∈ bodyTokens name tokens ++
        [⟨.mark '\x7d', .behind ("message " ++ name ++ " \x7b" ++ body)⟩],
      (Position.behind ("message " ++ name ++ " ")).Before token.position ∧
        ¬(Position.behind ("message " ++ name ++ " \x7b" ++ body)).Before token.position := by
  have hbegin : (Position.behind ("message " ++ name ++ " ")).Before
      (.behind ("message " ++ name ++ " \x7b")) := by
    rw [← Position.behind_brace]
    exact Position.before_step _ '\x7b'
  have hcuts := (h.cuts (.behind ("message " ++ name ++ " \x7b"))).2
  rw [← Position.behind_append] at hcuts
  intro token htoken
  obtain ⟨hopened, hclosed⟩ := hcuts token htoken
  exact ⟨Position.before_of_not_before hbegin hopened, hclosed⟩

namespace Schema.File

open Phrase (StandIn)

/-- The body of a message changes neither what is wrong behind it nor anything else there. -/
theorem errorsOf_message (name body : String) {tokens : List Token} (hbody : Token.Balanced tokens)
    (rest : List Token) (move : Position → Position) (stop : Position) :
    ∃ inner,
      errorsOf (ofTokens (messageTokens name body tokens ++ rest.map (Token.moved move))
        (move stop)) =
      inner ++ (errorsOf (ofTokens (messageTokens name " " [] ++ rest) stop)).map
        (SyntaxError.moved move) ∧ StandIn (bodyTokens name tokens)
          ⟨.mark '\x7d', .behind ("message " ++ name ++ " \x7b" ++ body)⟩ inner.reverse := by
  let long := messageTokens name body tokens ++ rest.map (Token.moved move)
  let short := messageTokens name " " [] ++ rest
  have hlong : long.length = tokens.length + rest.length + 3 + 1 := by
    simp only [long, messageTokens, bodyTokens, List.length_cons, List.length_append,
      List.length_map, List.length_nil]
    omega
  have hshort : short.length = rest.length + 3 + 1 := by
    simp only [short, messageTokens, bodyTokens, List.length_cons, List.length_append,
      List.length_map, List.length_nil]
    omega
  obtain ⟨message, errors, hread, herrors⟩ := Phrase.fileStatements_message
    (t := ⟨long, move stop, []⟩) (tokens.length + rest.length + 3)
    (messageTokens_append name body tokens _)
    rfl rfl rfl rfl (balanced_bodyTokens name hbody)
  obtain ⟨empty, none, hread', hnone⟩ := Phrase.fileStatements_message
    (t := ⟨short, stop, []⟩) (rest.length + 3)
    (messageTokens_append name " " [] rest)
    rfl rfl rfl rfl (balanced_bodyTokens name rfl)
  have hnil := hnone.of_nil rfl
  subst hnil
  -- Behind the block both go on with a file that has one message and no package.
  let l := Bond.moving stop move errors
  have hties := Bond.ties_moving rest stop move errors
  have hstart : l.SameStart { File.empty with messages := [empty] }
      { File.empty with messages := [message] } := by
    refine ⟨rfl, ⟨?_, fun _ _ => trivial, fun _ _ => trivial, fun _ _ _ _ => trivial⟩⟩
    intro name hname
    cases hname
  have hbodies : l.Bodies rest.length (Phrase.bodyWithin (rest.length + 3 + 1))
      (Phrase.bodyWithin (tokens.length + rest.length + 3 + 1)) :=
    Bond.bodyWithin _ _ (.inr ⟨by omega, by omega⟩)
  obtain ⟨new, hshorts, hlongs, _⟩ := (Bond.fileStatements hbodies false hstart hties).2.faults
  refine ⟨errors.reverse, ?_, by rwa [List.reverse_reverse]⟩
  rw [errorsOf_ofTokens, errorsOf_ofTokens]
  change (Phrase.fileStatements (Phrase.bodyWithin long.length) true .empty
    ⟨long, move stop, []⟩).2.faults.reverse = errors.reverse ++
      ((Phrase.fileStatements (Phrase.bodyWithin short.length) true .empty
        ⟨short, stop, []⟩).2.faults.reverse).map (SyntaxError.moved move)
  rw [hlong, hshort, hread, hread']
  simp only [List.append_nil] at hshorts hlongs ⊢
  rw [hshorts, hlongs, List.reverse_append, List.map_reverse]
  change errors.reverse ++ (new.map (SyntaxError.moved move)).reverse =
    errors.reverse ++ ((new ++ []).map (SyntaxError.moved move)).reverse
  rw [List.append_nil]

/-- Behind a piece of text that is cut off, reading goes on with what follows. -/
theorem errorsOf_read {text : String} {tokens : List Token}
    (h : Token.Cuts .start text.toList tokens) (rest : String) :
    errorsOf (File.read (text ++ rest)) =
      match Token.readFrom (.behind text) rest.toList with
      | .error e => [e]
      | .ok (others, stop) => errorsOf (ofTokens (tokens ++ others) stop) := by
  have hread : Token.read (text ++ rest) =
      Token.behind tokens (Token.readFrom (.behind text) rest.toList) := by
    rw [Token.read, String.toList_append]
    exact h rest.toList
  rw [File.read, hread]
  cases Token.readFrom (.behind text) rest.toList with
  | error e => rfl
  | ok found => rfl

/-- Behind the message the text is read as before, at shifted places. -/
theorem errorsOf_messageText {name body : String} {tokens : List Token}
    (hname : Scanned.IsWord name) (hbody : ReadsAs body tokens) (hbalanced : Token.Balanced tokens)
    (rest : String) :
    ∃ inner, errorsOf (File.read (messageText name body ++ rest)) =
        inner ++ (errorsOf (File.read (messageText name " " ++ rest))).map
          (SyntaxError.moved
            (Position.shift (.behind (messageText name " ")) (.behind (messageText name body)))) ∧
      ∀ e ∈ inner, ∃ token ∈ bodyTokens name tokens ++
        [⟨.mark '\x7d', .behind ("message " ++ name ++ " \x7b" ++ body)⟩],
        e.position = token.position := by
  have hblank : ReadsAs " " [] := readsAs_of_cuts (Token.cuts_blank .start)
  have hshift := Token.readFrom_eq_shifted (.behind (messageText name " "))
    (.behind (messageText name body)) rest.toList
  rw [errorsOf_read (cuts_message hname hbody) rest,
    errorsOf_read (cuts_message hname hblank) rest, hshift]
  cases Token.readFrom (.behind (messageText name " ")) rest.toList with
  | error e => exact ⟨[], rfl, by simp⟩
  | ok found =>
    obtain ⟨others, stop⟩ := found
    obtain ⟨inner, herrors, hstand⟩ := errorsOf_message name body hbalanced others
      (Position.shift (.behind (messageText name " ")) (.behind (messageText name body))) stop
    exact ⟨inner, herrors, fun e he => hstand.position e (List.mem_reverse.mpr he)⟩

/-- A block ends at its closing brace, with an `ok` and with all its errors inside, whatever
its statements are. So the errors of a text that starts with a message are those in the body
of the message, and then those that the text has with an empty body, at their places. -/
theorem syntax_errors_stay_in_block :
    (∀ {σ : Type} (statement : σ → Phrase σ), Phrase.ReadsItems statement →
      ∀ (name : String) (s : σ) (t : Tape) (open_ close : Token) (body rest : List Token),
        t.ahead = open_ :: body ++ close :: rest → open_.lexeme = .mark '\x7b' →
        close.lexeme = .mark '\x7d' → Token.Balanced body →
        ∃ (result : σ) (errors : List SyntaxError), (Phrase.block name statement s).on t =
            (.ok result, ⟨rest, t.stop, errors ++ t.faults⟩) ∧
          ∀ e ∈ errors, ∃ token ∈ body ++ [close], e.position = token.position) ∧
    ∀ (name body rest : String) (tokens : List Token), Scanned.IsWord name →
      ReadsAs body tokens → Token.Balanced tokens →
      let opening := Position.behind ("message " ++ name ++ " ")
      let closing := Position.behind ("message " ++ name ++ " \x7b" ++ body)
      let whole := "message " ++ name ++ " \x7b" ++ body ++ "\x7d"
      let empty := "message " ++ name ++ " \x7b \x7d"
      ∃ inner : List SyntaxError, errorsOf (File.read (whole ++ rest)) =
          inner ++ (errorsOf (File.read (empty ++ rest))).map
            (SyntaxError.moved (Position.shift (.behind empty) (.behind whole))) ∧
        ∀ e ∈ inner, opening.Before e.position ∧ ¬closing.Before e.position := by
  refine ⟨?_, ?_⟩
  · intro σ statement hstatement name s t open_ close body rest hahead hopen hclose hbody
    obtain ⟨result, errors, hblock, herrors⟩ :=
      Phrase.block_ends hstatement name s hahead hopen hclose hbody
    exact ⟨result, errors, hblock, herrors.position⟩
  · intro name body rest tokens hname hbody hbalanced opening closing whole empty
    have hempty : empty = messageText name " " := by
      simp only [empty, messageText, String.append_assoc]
      rfl
    obtain ⟨inner, herrors, hinner⟩ := errorsOf_messageText hname hbody hbalanced rest
    rw [hempty]
    refine ⟨inner, herrors, fun e he => ?_⟩
    obtain ⟨token, htoken, hposition⟩ := hinner e he
    rw [hposition]
    exact hbody.inside name token htoken

/-- A stray mark in the block of an enum, and a stray word in that of a message. -/
theorem syntax_errors_stay_in_block_word :
    (let open_ : Token := ⟨.mark '\x7b', ⟨1, 1⟩⟩
     let stray : Token := ⟨.mark '=', ⟨1, 2⟩⟩
     let close : Token := ⟨.mark '\x7d', ⟨1, 3⟩⟩
     ∃ (result : Enum) (errors : List SyntaxError),
        (Phrase.block "enum" Phrase.enumStatement ⟨"E", [], [], .start⟩).on
            ⟨[open_, stray, close], ⟨1, 4⟩, []⟩ = (.ok result, ⟨[], ⟨1, 4⟩, errors ++ []⟩) ∧
          ∀ e ∈ errors, ∃ token ∈ [stray] ++ [close], e.position = token.position) ∧
      let whole := "message " ++ "M" ++ " \x7b" ++ "x " ++ "\x7d"
      let empty := "message " ++ "M" ++ " \x7b \x7d"
      ∃ inner : List SyntaxError, errorsOf (File.read (whole ++ "y")) =
          inner ++ (errorsOf (File.read (empty ++ "y"))).map
            (SyntaxError.moved (Position.shift (.behind empty) (.behind whole))) ∧
        ∀ e ∈ inner, (Position.behind ("message " ++ "M" ++ " ")).Before e.position ∧
          ¬(Position.behind ("message " ++ "M" ++ " \x7b" ++ "x ")).Before e.position :=
  ⟨syntax_errors_stay_in_block.1 Phrase.enumStatement .enum "enum" _ _ _ _
      [⟨.mark '=', ⟨1, 2⟩⟩] [] rfl rfl rfl (by decide),
    syntax_errors_stay_in_block.2 "M" "x " "y" _ ⟨'M', [], rfl, rfl, by simp⟩
      (readsAs_of_cuts (Token.cuts_word .start ⟨'x', [], rfl, rfl, by simp⟩)) (by decide)⟩

end Schema.File

end ProtoSchema
