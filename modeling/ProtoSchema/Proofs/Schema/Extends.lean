import ProtoSchema.Proofs.Schema.Blocks
import ProtoSchema.Proofs.Schema.Parts

/-!
Extend blocks at the two places where they may stand. Behind its name a block is read in the
same way in a file and in a message, whatever its statements are. In a message the keyword may
also be the type of a field, and a dot behind it is taken for a sign of that. So a block for a
type with a dot in front is read in a file only.
-/

namespace ProtoSchema

open Schema
open Written (Reference takes_typeName)

/-- The tokens are those of an extend block for the type, up to the brace that closes it. -/
def Token.OpensExtend (type : Reference) (tokens : List Token) : Prop :=
  ∃ header open_ body, tokens = header ++ open_ :: body ∧
    header.map (·.lexeme) = .word "extend" :: type.lexemes ∧
    open_.lexeme = .mark '\x7b' ∧ Balanced body

theorem Token.OpensExtend.moved {type : Reference} {tokens : List Token}
    (h : OpensExtend type tokens) (move : Position → Position) :
    OpensExtend type (tokens.map (Token.moved move)) := by
  obtain ⟨header, open_, body, rfl, hheader, hopen, hbody⟩ := h
  refine ⟨header.map (Token.moved move), open_.moved move, body.map (Token.moved move), ?_, ?_,
    hopen, ?_⟩
  · rw [List.map_append, List.map_cons]
  · rw [List.map_map]
    exact hheader
  · rw [Balanced, nest_map]
    exact hbody

/-- With its closing brace the block has all its braces matched. -/
theorem Token.OpensExtend.balanced {type : Reference} {tokens : List Token} {close : Token}
    (h : OpensExtend type tokens) (hclose : close.lexeme = .mark '\x7d') :
    Balanced (tokens ++ [close]) := by
  obtain ⟨header, open_, body, rfl, hheader, hopen, hbody⟩ := h
  have hname : ∀ lexeme ∈ type.name.lexemes, lexeme.IsPlain := by
    refine List.forall_mem_cons.mpr ⟨by simp [Lexeme.IsPlain], fun lexeme hlexeme => ?_⟩
    obtain ⟨x, _, hx⟩ := List.mem_flatMap.mp hlexeme
    rcases List.mem_pair.mp hx with rfl | rfl
    · simp [Lexeme.IsPlain]
    · simp [Lexeme.IsPlain]
  have hplain : ∀ lexeme ∈ Lexeme.word "extend" :: type.lexemes, lexeme.IsPlain := by
    refine List.forall_mem_cons.mpr ⟨by simp [Lexeme.IsPlain], ?_⟩
    unfold Reference.lexemes
    split
    · exact List.forall_mem_cons.mpr ⟨by simp [Lexeme.IsPlain], hname⟩
    · exact hname
  rw [← hheader] at hplain
  rw [List.append_assoc]
  exact balanced_append (balanced_plain fun token htoken => hplain _ (List.mem_map_of_mem htoken))
    (balanced_braces hopen hclose hbody)

theorem Token.OpensExtend.lexemes {type : Reference} {tokens : List Token}
    (h : OpensExtend type tokens) : ∃ more,
      tokens.map (·.lexeme) = .word "extend" :: type.lexemes ++ Lexeme.mark '\x7b' :: more := by
  obtain ⟨header, open_, body, rfl, hheader, hopen, -⟩ := h
  exact ⟨body.map (·.lexeme), by simp [hheader, hopen]⟩

namespace Phrase

variable {type : Reference} {reader : BodyReader} {t u : Tape} {more : List Lexeme}
  {tokens extra : List Token} {close : Token}

/-- Behind the keyword and the name an extend block goes on with its statements. -/
theorem on_extend (reader : BodyReader)
    (h : t.ahead.map (·.lexeme) = .word "extend" :: type.lexemes ++ more)
    (hmore : more[0]? ≠ some (Lexeme.mark '.')) :
    ∃ position, (extend reader).on t =
      (block "extend" (extendStatement reader) ⟨type.typeName, [], [], position⟩).on
        (t.drop (type.lexemes.length + 1)) := by
  have hkeyword : t.lexeme? 0 = some (.word "extend") := lexeme?_eq h 0
  have hdrop : (t.drop 1).ahead.map (·.lexeme) = type.lexemes ++ more :=
    @ahead_drop [.word "extend"] _ t h
  obtain ⟨found, hname, rfl⟩ := takes_typeName type hmore (t.drop 1) hdrop
  refine ⟨(t.drop 1).place, ?_⟩
  rw [extend, on_bind, on_keyword hkeyword]
  simp only [on_place_bind]
  rw [on_bind, hname, drop_drop, Nat.add_comm 1]

/-- In a message the keyword starts an extend block when no dot follows it. -/
theorem on_messageStatement_of_relative (hrelative : type.absolute = false)
    (h : t.ahead.map (·.lexeme) = .word "extend" :: type.lexemes ++ .mark '\x7b' :: more)
    (parent : Message) :
    (messageStatement reader parent).on t =
      (do
        let block ← extend reader
        return { parent with extendBlocks := parent.extendBlocks ++ [block] }).on t := by
  have hkeyword : t.lexeme? 0 = some (.word "extend") := lexeme?_eq h 0
  have hfield : ¬(t.lexeme? 1 = some (.mark '.') ∨ t.lexeme? 2 = some (.mark '=')) := by
    obtain ⟨absolute, first, rest⟩ := type
    cases hrelative
    rw [lexeme?_eq h, lexeme?_eq h]
    cases rest with
    | nil => simp [Reference.lexemes, Written.Name.lexemes]
    | cons second rest => simp [Reference.lexemes, Written.Name.lexemes]
  rw [messageStatement, on_bind, on_take?, if_neg (by simp [hkeyword])]
  change (look 0 >>= _).on t = _
  rw [on_look_bind, hkeyword, Bond.on_startsField_bind, decide_eq_false hfield]
  rfl

/-- With a dot in front of the name the keyword is the first word of the type of a field, which
then has no name. -/
theorem on_messageStatement_of_absolute (reader : BodyReader) (habsolute : type.absolute = true)
    (h : t.ahead.map (·.lexeme) = .word "extend" :: type.lexemes ++ .mark '\x7b' :: more)
    (parent : Message) :
    ∃ e, (messageStatement reader parent).on t =
      (.error e, t.drop (type.lexemes.length + 1)) := by
  obtain ⟨absolute, name⟩ := type
  cases habsolute
  -- The dot goes on with a name that starts at the keyword.
  let whole : Reference := ⟨false, ⟨"extend", by decide⟩, name.first :: name.rest⟩
  have hwhole : t.ahead.map (·.lexeme) = whole.lexemes ++ .mark '\x7b' :: more := h
  obtain ⟨found, hname, -⟩ := takes_typeName whole (by simp) t hwhole
  have hbehind : (t.drop whole.lexemes.length).lexeme? 0 = some (.mark '\x7b') :=
    lexeme?_eq (ahead_drop hwhole) 0
  have hkeyword : t.lexeme? 0 = some (.word "extend") := lexeme?_eq h 0
  have hdot : t.lexeme? 1 = some (.mark '.') := lexeme?_eq h 1
  have hlabel : label?.on t = (.ok none, t) := by
    rw [label?, on_look_bind, hdot, if_neg (by decide), on_look_bind, hkeyword]
    rfl
  have hgroup : isGroup.on t = (.ok false, t) := by
    rw [isGroup, on_look_bind, on_look_bind, hkeyword, if_neg (by simp)]
    rfl
  have htype : fieldType.on t = (.ok (.single found), t.drop whole.lexemes.length) := by
    rw [fieldType, on_look_bind, on_look_bind, hkeyword, if_neg (by simp), on_bind_of_ok hname]
    rfl
  let e : SyntaxError := ⟨(t.drop whole.lexemes.length).place,
    .expected .identifier (some (.mark '\x7b'))⟩
  have hidentifier : identifier.on (t.drop whole.lexemes.length) =
      (.error e, t.drop whole.lexemes.length) := by
    rw [identifier, on_look_bind, hbehind]
    change (expected .identifier).on _ = _
    rw [on_expected, hbehind]
  have hplain : (plainField none none).on t = (.error e, t.drop whole.lexemes.length) := by
    rw [plainField, on_place_bind, on_bind_of_ok htype, on_place_bind, on_bind_of_error hidentifier]
  have hfield : (field reader none).on t = (.error e, t.drop whole.lexemes.length) := by
    rw [field, on_bind_of_ok hlabel]
    change (isGroup >>= _).on t = _
    rw [on_bind_of_ok hgroup]
    change (plainField none none >>= _).on t = _
    rw [on_bind_of_error hplain]
  refine ⟨e, ?_⟩
  rw [messageStatement, on_bind, on_take?, if_neg (by simp [hkeyword])]
  change (look 0 >>= _).on t = _
  rw [on_look_bind, hkeyword, Bond.on_startsField_bind, decide_eq_true (.inl hdot)]
  change (fieldOf reader none parent).on t = _
  rw [fieldOf, on_bind_of_error hfield]
  rfl

/-- Two readings of the block at moved places, with closing braces behind the second one. -/
theorem block_extend_alike {move : Position → Position} {open_ : Token} {body : List Token}
    (ht : t.ahead = open_ :: body ++ [close])
    (hu : u.ahead = t.ahead.map (Token.moved move) ++ extra) (hopen : open_.lexeme = .mark '\x7b')
    (hclose : close.lexeme = .mark '\x7d') (hbody : Token.Balanced body)
    (hextra : ∀ token ∈ extra, token.lexeme = .mark '\x7d') {d e : Nat}
    (hd : body.length + 1 < d) (he : body.length + 1 < e) (extendee : TypeName)
    (position position' : Position) :
    ∃ a b errors,
      (block "extend" (extendStatement (bodyWithin d)) ⟨extendee, [], [], position⟩).on t =
          (.ok a, ⟨[], t.stop, errors ++ t.faults⟩) ∧
        (block "extend" (extendStatement (bodyWithin e)) ⟨extendee, [], [], position'⟩).on u =
          (.ok b, ⟨extra, u.stop, errors.map (SyntaxError.moved move) ++ u.faults⟩) ∧
        unplacedExtends [a] = unplacedExtends [b] := by
  let l : Bond :=
    { Bond.moving t.stop move u.faults with
      last := u.stop, earlier := t.faults, extra := extra, closing := hextra }
  have hinside : (t.drop 1).ahead = body ++ [close] := by simp [Tape.drop, ht]
  have hties : l.Ties (body.length + 1) (some []) (t.drop 1) (u.drop 1) := by
    refine ⟨⟨?_, ⟨rfl, rfl⟩, fun _ _ _ _ => trivial, ⟨[], rfl, rfl, by simp⟩, ?_⟩,
      ⟨body, close, hinside, hclose, hbody, fun _ _ => trivial⟩⟩
    · simp only [Tape.drop, hu, ht]
      rfl
    · rw [hinside]
      simp
  have hbodies : l.Bodies (body.length + 1) (bodyWithin d) (bodyWithin e) :=
    Bond.bodyWithin d e (.inr ⟨hd, he⟩)
  have hstate : l.NamesGroups ⟨extendee, [], [], position⟩ ⟨extendee, [], [], position'⟩ :=
    ⟨rfl, List.forall_mem_nil _⟩
  have hended := Bond.statements (fun s s' hs => Bond.extendStatement hbodies hs) "extend" hstate
    hties
  rw [on_block (by simp [Tape.lexeme?, ht, hopen]),
    on_block (by simp [Tape.lexeme?, hu, ht, hopen])]
  generalize statements "extend" (extendStatement (bodyWithin d)) _ (t.drop 1) = r at hended ⊢
  generalize statements "extend" (extendStatement (bodyWithin e)) _ (u.drop 1) = r' at hended ⊢
  obtain ⟨result, ahead, stop, faults⟩ := r
  obtain ⟨result', ahead', stop', faults'⟩ := r'
  obtain ⟨hresults, htied, -, hclosed⟩ := hended
  obtain ⟨⟨a, rfl⟩, rfl⟩ := hclosed [] rfl
  obtain ⟨errors, rfl, rfl, -⟩ := htied.faults
  obtain ⟨rfl, rfl⟩ := htied.ends
  obtain rfl : ahead' = extra := htied.ahead
  cases hresults with
  | @ok a b hsame => exact ⟨a, b, errors, rfl, rfl, hsame.1⟩

/-- The same for the whole of an extend block. -/
theorem extend_alike {move : Position → Position} (h : Token.OpensExtend type tokens)
    (ht : t.ahead = tokens ++ [close]) (hu : u.ahead = t.ahead.map (Token.moved move) ++ extra)
    (hclose : close.lexeme = .mark '\x7d') (hextra : ∀ token ∈ extra, token.lexeme = .mark '\x7d')
    {d e : Nat} (hd : tokens.length < d) (he : tokens.length < e) :
    ∃ a b errors,
      (extend (bodyWithin d)).on t = (.ok a, ⟨[], t.stop, errors ++ t.faults⟩) ∧
        (extend (bodyWithin e)).on u =
          (.ok b, ⟨extra, u.stop, errors.map (SyntaxError.moved move) ++ u.faults⟩) ∧
        unplacedExtends [a] = unplacedExtends [b] := by
  obtain ⟨header, open_, body, rfl, hheader, hopen, hbody⟩ := h
  have hlength : header.length = type.lexemes.length + 1 := by
    simpa using congrArg List.length hheader
  have htop : t.ahead.map (·.lexeme) = .word "extend" :: type.lexemes ++
      (open_ :: body ++ [close]).map (·.lexeme) := by simp [ht, hheader]
  have hinner : u.ahead.map (·.lexeme) = .word "extend" :: type.lexemes ++
      (open_ :: body ++ close :: extra).map (·.lexeme) := by
    simp [hu, ht, ← hheader, Function.comp_def]
  obtain ⟨position, hone⟩ := on_extend (bodyWithin d) htop (by simp [hopen])
  obtain ⟨position', htwo⟩ := on_extend (bodyWithin e) hinner (by simp [hopen])
  simp only [List.length_append, List.length_cons] at hd he
  rw [hone, htwo, ← hlength]
  have hbehind : (t.drop header.length).ahead = open_ :: body ++ [close] := by
    simp [Tape.drop, ht]
  have hmoved : (u.drop header.length).ahead =
      (t.drop header.length).ahead.map (Token.moved move) ++ extra := by
    simp [Tape.drop, hu, ht]
  exact block_extend_alike hbehind hmoved hopen hclose hbody hextra (by omega) (by omega) _ _ _

/-- A file of one extend block. -/
theorem fileStatements_extend {block : Extend} {faults : List SyntaxError}
    (hkeyword : t.lexeme? 0 = some (.word "extend"))
    (h : (extend reader).on t = (.ok block, ⟨[], t.stop, faults⟩)) :
    fileStatements reader true .empty t =
      ({ File.empty with extendBlocks := [block] }, ⟨[], t.stop, faults⟩) := by
  have hstatement : (fileStatement reader true .empty).on t =
      (.ok { File.empty with extendBlocks := [block] }, ⟨[], t.stop, faults⟩) := by
    rw [fileStatement, on_bind, on_take?, if_neg (by simp [hkeyword])]
    change (look 0 >>= _).on t = _
    rw [on_look_bind, hkeyword]
    change (extend reader >>= _).on t = _
    rw [on_bind_of_ok h]
    rfl
  rw [fileStatements_of_ok hstatement (Bond.length_pos_of_lexeme? hkeyword),
    fileStatements_of_nil rfl]

/-- A message of one extend block. -/
theorem block_message_extend {block : Extend} {faults : List SyntaxError}
    (hopen : t.lexeme? 0 = some (.mark '\x7b')) (hrelative : type.absolute = false)
    (h : (t.drop 1).ahead.map (·.lexeme) = .word "extend" :: type.lexemes ++ .mark '\x7b' :: more)
    (hclose : close.lexeme = .mark '\x7d')
    (hblock : (extend reader).on (t.drop 1) = (.ok block, ⟨[close], t.stop, faults⟩))
    (parent : Message) :
    (Phrase.block "message" (messageStatement reader) parent).on t =
      (.ok { parent with extendBlocks := parent.extendBlocks ++ [block] },
        ⟨[], t.stop, faults⟩) := by
  have hstatement : (messageStatement reader parent).on (t.drop 1) =
      (.ok { parent with extendBlocks := parent.extendBlocks ++ [block] },
        ⟨[close], t.stop, faults⟩) := by
    rw [on_messageStatement_of_relative hrelative h, on_bind_of_ok hblock]
    rfl
  have hlength := congrArg List.length h
  rw [List.length_map, List.length_append, List.length_cons, List.length_cons] at hlength
  cases hahead : (t.drop 1).ahead with
  | nil => simp [hahead] at h
  | cons token rest =>
    have htoken : token.lexeme = .word "extend" := by
      rw [hahead] at h
      exact (List.cons.inj h).1
    rw [on_block hopen, statements_of_open hahead (by simp [htoken]),
      settled_of_ok hstatement (by simp only [List.length_singleton]; omega)]
    exact statements_of_close rfl hclose

/-- Errors that were put down stay there. -/
theorem faults_suffix_statements {σ : Type} {statement : σ → Phrase σ} (h : ReadsItems statement)
    (name : String) (s : σ) (t : Tape) :
    t.faults <:+ (statements name statement s t).2.faults := by
  let l : Bond := { Bond.moving t.stop id t.faults with earlier := t.faults }
  have hties := Bond.ties_self (l := l) (t := t) (c := none) rfl rfl rfl rfl rfl rfl
    (fun _ _ _ _ => trivial) ⟨fun _ => trivial, rfl, rfl⟩
  obtain ⟨S, hrefl, halike⟩ := h.alike (l := l) (fun _ => trivial) t.ahead.length
  obtain ⟨errors, hfaults, -⟩ := (Bond.statements halike name (hrefl s) hties).tied.faults
  exact ⟨errors, hfaults.symm⟩

/-- A message with a block for a type with a dot in front has an error. -/
theorem block_message_absolute (depth : Nat) (hopen : t.lexeme? 0 = some (.mark '\x7b'))
    (habsolute : type.absolute = true)
    (h : (t.drop 1).ahead.map (·.lexeme) = .word "extend" :: type.lexemes ++ .mark '\x7b' :: more)
    (parent : Message) :
    ((Phrase.block "message" (messageStatement (bodyWithin depth)) parent).on t).2.faults ≠
      t.faults := by
  obtain ⟨e, he⟩ := on_messageStatement_of_absolute (bodyWithin depth) habsolute h parent
  cases hahead : (t.drop 1).ahead with
  | nil => simp [hahead] at h
  | cons token rest =>
    have htoken : token.lexeme = .word "extend" := by
      rw [hahead] at h
      exact (List.cons.inj h).1
    have hfaults : (settled (messageStatement (bodyWithin depth)) parent (t.drop 1)).2.faults =
        e :: t.faults := by
      rw [settled, attempt, he]
      simp only
      split
      · rfl
      · rfl
    rw [on_block hopen, statements_of_open hahead (by simp [htoken])]
    have hsuffix := faults_suffix_statements (.message depth) "message"
      (settled (messageStatement (bodyWithin depth)) parent (t.drop 1)).1
      (settled (messageStatement (bodyWithin depth)) parent (t.drop 1)).2
    rw [hfaults] at hsuffix
    intro hsame
    have hlength := hsuffix.length_le
    rw [hsame, List.length_cons] at hlength
    omega

end Phrase

namespace Schema.File

variable {type : Reference} {tokens : List Token} {close : Token} {stop : Position}

theorem ofTokens_of_statements {file : File} {rest : List Token} {last : Position}
    {faults : List SyntaxError}
    (h : Phrase.fileStatements (Phrase.bodyWithin tokens.length) true .empty ⟨tokens, stop, []⟩ =
      (file, ⟨rest, last, faults⟩)) :
    ofTokens tokens stop = if faults = [] then .ok file else .error faults.reverse := by
  rw [ofTokens, h]

/-- A text of one message is read as the block behind its name is. -/
theorem ofTokens_message {name body : String} {last : Position} {depth : Nat} {result : Message}
    {errors : List SyntaxError} (hdepth : (messageTokens name body tokens).length = depth + 1)
    (hblock : (Phrase.block "message" (Phrase.messageStatement (Phrase.bodyWithin depth))
        (Phrase.emptyMessage name (.behind "message "))).on
          (Tape.drop ⟨messageTokens name body tokens, last, []⟩ 2) =
      (.ok result, ⟨[], last, errors⟩)) :
    ofTokens (messageTokens name body tokens) last =
      if errors = [] then .ok { empty with messages := [result] } else .error errors.reverse := by
  let t : Tape := ⟨messageTokens name body tokens, last, []⟩
  have hpos : ([] : List Token).length < t.ahead.length := by simp [t, hdepth]
  have hstatements := Phrase.fileStatements_of_message (t := t) rfl rfl rfl hpos hblock
  rw [Phrase.fileStatements_of_nil (t := ⟨[], _, _⟩) rfl, ← hdepth] at hstatements
  exact ofTokens_of_statements hstatements

theorem read_of_cuts {text : String} (h : Token.Cuts .start text.toList tokens) :
    read text = ofTokens tokens (.behind text) := by
  have hread := h []
  rw [List.append_nil, Token.readFrom_nil] at hread
  rw [read, Token.read, hread]
  simp only [Token.behind, List.append_nil]
  rfl

/-- The block as it stands in the message, with the closing brace of that behind it. -/
theorem lexemes_inside (h : Token.OpensExtend type tokens) (close : Token) (name body : String)
    (last : Position) :
    ∃ more, (Tape.drop ⟨messageTokens name body (tokens ++ [close]), last, []⟩ 3).ahead.map
      (·.lexeme) = .word "extend" :: type.lexemes ++ Lexeme.mark '\x7b' :: more := by
  obtain ⟨more, hlexemes⟩ := h.lexemes
  refine ⟨more ++ [close.lexeme, Lexeme.mark '\x7d'], ?_⟩
  simp only [Tape.drop, messageTokens, bodyTokens, List.cons_append, List.drop_succ_cons,
    List.drop_zero, List.map_append, List.map_map, List.map_cons, List.map_nil]
  change tokens.map (·.lexeme) ++ [close.lexeme] ++ [Lexeme.mark '\x7d'] = _
  rw [hlexemes]
  simp

/-- The block is read in the message as it is in the file. -/
theorem ofTokens_extend_alike (h : Token.OpensExtend type tokens)
    (hclose : close.lexeme = .mark '\x7d') (hrelative : type.absolute = false)
    (name body : String) (stop last : Position) :
    ∃ top inner errors move,
      ofTokens (tokens ++ [close]) stop =
          (if errors = [] then .ok { empty with extendBlocks := [top] }
            else .error errors.reverse) ∧
        ofTokens (messageTokens name body (tokens ++ [close])) last =
          (if errors = [] then .ok { empty with messages :=
              [{ Phrase.emptyMessage name (.behind "message ") with extendBlocks := [inner] }] }
            else .error (errors.map (SyntaxError.moved move)).reverse) ∧
        unplacedExtends [top] = unplacedExtends [inner] := by
  let move := Position.start.shift (.behind ("message " ++ name ++ " \x7b"))
  let brace : Token := ⟨.mark '\x7d', .behind ("message " ++ name ++ " \x7b" ++ body)⟩
  let t : Tape := ⟨tokens ++ [close], stop, []⟩
  let v : Tape := ⟨messageTokens name body (tokens ++ [close]), last, []⟩
  have hlength : v.ahead.length = tokens.length + 4 + 1 := by
    simp [v, messageTokens, bodyTokens]
  obtain ⟨more, hlexemes⟩ := h.lexemes
  obtain ⟨others, hothers⟩ := lexemes_inside h close name body last
  have hinside : ((v.drop 2).drop 1).ahead = t.ahead.map (Token.moved move) ++ [brace] := rfl
  have hfew : tokens.length < (tokens ++ [close]).length := by simp
  have hless : tokens.length < tokens.length + 4 := by omega
  obtain ⟨top, inner, errors, htop, hinner, hsame⟩ := Phrase.extend_alike (t := t) h rfl hinside
    hclose (by simp [brace]) hfew hless
  refine ⟨top, inner, errors, move, ?_, ?_, hsame⟩
  · have hkeyword : t.lexeme? 0 = some (.word "extend") := by
      have hfirst : t.ahead.map (·.lexeme) =
          .word "extend" :: (type.lexemes ++ .mark '\x7b' :: more ++ [close.lexeme]) := by
        simp [t, hlexemes]
      exact Phrase.lexeme?_eq hfirst 0
    rw [ofTokens_of_statements (Phrase.fileStatements_extend hkeyword htop)]
    simp [t]
  · have hblock := Phrase.block_message_extend (t := v.drop 2) rfl hrelative hothers rfl hinner
      (Phrase.emptyMessage name (.behind "message "))
    rw [ofTokens_message hlength hblock]
    simp [v, Tape.drop, Phrase.emptyMessage]

/-- In the message a block for a type with a dot in front has an error. -/
theorem ofTokens_extend_absolute (h : Token.OpensExtend type tokens)
    (hclose : close.lexeme = .mark '\x7d') (habsolute : type.absolute = true)
    (name body : String) (last : Position) :
    ∃ errors, ofTokens (messageTokens name body (tokens ++ [close])) last = .error errors := by
  let v : Tape := ⟨messageTokens name body (tokens ++ [close]), last, []⟩
  have hlength : v.ahead.length = tokens.length + 4 + 1 := by
    simp [v, messageTokens, bodyTokens]
  obtain ⟨others, hothers⟩ := lexemes_inside h close name body last
  have hfaults := Phrase.block_message_absolute (t := v.drop 2) (tokens.length + 4) rfl
    habsolute hothers (Phrase.emptyMessage name (.behind "message "))
  let brace : Token := ⟨.mark '\x7d', .behind ("message " ++ name ++ " \x7b" ++ body)⟩
  have hahead : (v.drop 2).ahead = ⟨.mark '\x7b', .behind ("message " ++ name ++ " ")⟩ ::
      bodyTokens name (tokens ++ [close]) ++ brace :: [] := rfl
  obtain ⟨result, errors, hblock, -⟩ := Phrase.block_ends (.message (tokens.length + 4)) "message"
    (Phrase.emptyMessage name (.behind "message ")) hahead rfl rfl
    (balanced_bodyTokens name (h.balanced hclose))
  rw [hblock] at hfaults
  have hsome : errors ++ (v.drop 2).faults ≠ [] := hfaults
  rw [ofTokens_message hlength hblock, if_neg hsome]
  exact ⟨_, rfl⟩

/-- An extend block for a type with no dot in front is read alike in a file and in a message:
either without errors at both places, and then as the same block, or with the same errors. With
a dot in front it is never read in a message. The block may have anything in it. -/
theorem extend_blocks_read_alike {type : Reference} {name front : String} {tokens : List Token}
    (hname : Scanned.IsWord name) (hfront : ReadsAs front tokens)
    (hextend : Token.OpensExtend type tokens) :
    let block := front ++ "\x7d"
    let nested := "message " ++ name ++ " \x7b" ++ block ++ "\x7d"
    (type.absolute = false →
      (∃ top inner, read block = .ok { empty with extendBlocks := [top] } ∧
        read nested = .ok { empty with messages :=
          [{ Phrase.emptyMessage name (.behind "message ") with extendBlocks := [inner] }] } ∧
        unplacedExtends [top] = unplacedExtends [inner]) ∨
      ∃ errors others, read block = .error errors ∧ read nested = .error others ∧
        errors.map (·.fault) = others.map (·.fault)) ∧
    (type.absolute = true → ∃ errors, read nested = .error errors) := by
  intro block nested
  obtain ⟨hcuts, -⟩ := hfront.cuts .start
  have htext : front.toList ++ ['\x7d'] = block.toList := by simp [block]
  rw [htext] at hcuts
  have hextend := hextend.moved (Position.start.shift .start)
  generalize tokens.map (Token.moved (Position.start.shift .start)) = tokens at hcuts hextend
  generalize hlast : (⟨.mark '\x7d', Position.start.after front.toList⟩ : Token) = close at hcuts
  have hclose : close.lexeme = .mark '\x7d' := by rw [← hlast]
  have hnested : read nested = ofTokens (messageTokens name block (tokens ++ [close]))
      (.behind (messageText name block)) :=
    read_of_cuts (cuts_message hname (readsAs_of_cuts hcuts))
  rw [read_of_cuts hcuts, hnested]
  refine ⟨fun hrelative => ?_, fun habsolute =>
    ofTokens_extend_absolute hextend hclose habsolute name block _⟩
  obtain ⟨top, inner, errors, move, htop, hinner, hsame⟩ := ofTokens_extend_alike
    hextend hclose hrelative name block (.behind block) (.behind (messageText name block))
  rw [htop, hinner]
  by_cases hnone : errors = []
  · rw [if_pos hnone, if_pos hnone]
    exact .inl ⟨top, inner, rfl, rfl, hsame⟩
  · rw [if_neg hnone, if_neg hnone]
    refine .inr ⟨_, _, rfl, rfl, ?_⟩
    simp [Function.comp_def, SyntaxError.moved]

/-- A block with a group in it, in a message. -/
theorem extend_blocks_read_alike_group :
    let front := "extend a.T \x7b optional group G = 1 \x7b \x7d"
    let tokens : List Token := [⟨.word "extend", ⟨1, 1⟩⟩, ⟨.word "a", ⟨1, 8⟩⟩, ⟨.mark '.', ⟨1, 9⟩⟩,
      ⟨.word "T", ⟨1, 10⟩⟩, ⟨.mark '\x7b', ⟨1, 12⟩⟩, ⟨.word "optional", ⟨1, 14⟩⟩,
      ⟨.word "group", ⟨1, 23⟩⟩, ⟨.word "G", ⟨1, 29⟩⟩, ⟨.mark '=', ⟨1, 31⟩⟩,
      ⟨.integer "1", ⟨1, 33⟩⟩, ⟨.mark '\x7b', ⟨1, 35⟩⟩, ⟨.mark '\x7d', ⟨1, 37⟩⟩]
    let type : Reference := ⟨false, ⟨"a", by decide⟩, [⟨"T", by decide⟩]⟩
    (Scanned.IsWord "M" ∧ ReadsAs front tokens ∧ Token.OpensExtend type tokens) ∧
      ((∃ top inner, read (front ++ "\x7d") = .ok { empty with extendBlocks := [top] } ∧
        read ("message " ++ "M" ++ " \x7b" ++ (front ++ "\x7d") ++ "\x7d") = .ok
          { empty with messages :=
            [{ Phrase.emptyMessage "M" (.behind "message ") with extendBlocks := [inner] }] } ∧
        unplacedExtends [top] = unplacedExtends [inner]) ∨
      ∃ errors others, read (front ++ "\x7d") = .error errors ∧
        read ("message " ++ "M" ++ " \x7b" ++ (front ++ "\x7d") ++ "\x7d") = .error others ∧
        errors.map (·.fault) = others.map (·.fault)) := by
  intro front tokens type
  have hname : Scanned.IsWord "M" := by decide
  have hfront : ReadsAs front tokens := ⟨⟨1, 38⟩, by decide +kernel⟩
  have hextend : Token.OpensExtend type tokens :=
    ⟨tokens.take 4, ⟨.mark '\x7b', ⟨1, 12⟩⟩, tokens.drop 5, rfl, rfl, rfl, by decide⟩
  exact ⟨⟨hname, hfront, hextend⟩, (extend_blocks_read_alike hname hfront hextend).1 rfl⟩

/-- With a dot in front of the name one of the two readings may fail alone. -/
theorem extend_block_of_absolute_name_lost :
    ¬∀ (type : Reference) (name front : String) (tokens : List Token), Scanned.IsWord name →
      ReadsAs front tokens → Token.OpensExtend type tokens →
      ((∃ file, read (front ++ "\x7d") = .ok file) ↔ ∃ file,
        read ("message " ++ name ++ " \x7b" ++ (front ++ "\x7d") ++ "\x7d") = .ok file) := by
  intro h
  let front := " extend .pkg.Foo \x7b optional int32 x = 1; "
  let tokens : List Token := [⟨.word "extend", ⟨1, 2⟩⟩, ⟨.mark '.', ⟨1, 9⟩⟩, ⟨.word "pkg", ⟨1, 10⟩⟩,
    ⟨.mark '.', ⟨1, 13⟩⟩, ⟨.word "Foo", ⟨1, 14⟩⟩, ⟨.mark '\x7b', ⟨1, 18⟩⟩,
    ⟨.word "optional", ⟨1, 20⟩⟩, ⟨.word "int32", ⟨1, 29⟩⟩, ⟨.word "x", ⟨1, 35⟩⟩,
    ⟨.mark '=', ⟨1, 37⟩⟩, ⟨.integer "1", ⟨1, 39⟩⟩, ⟨.mark ';', ⟨1, 40⟩⟩]
  let type : Reference := ⟨true, ⟨"pkg", by decide⟩, [⟨"Foo", by decide⟩]⟩
  have hfront : ReadsAs front tokens := ⟨⟨1, 42⟩, by decide +kernel⟩
  have hextend : Token.OpensExtend type tokens :=
    ⟨tokens.take 5, ⟨.mark '\x7b', ⟨1, 18⟩⟩, tokens.drop 6, rfl, rfl, rfl, by decide⟩
  have hblock : (read (front ++ "\x7d")).toOption.isSome = true := by decide +kernel
  have hnested :
      (read ("message " ++ "M" ++ " \x7b" ++ (front ++ "\x7d") ++ "\x7d")).toOption.isSome =
        false := by decide +kernel
  have hboth := h type "M" front tokens (by decide) hfront hextend
  obtain ⟨file, hfile⟩ : ∃ file, read (front ++ "\x7d") = .ok file := by
    cases hread : read (front ++ "\x7d") with
    | ok file => exact ⟨file, rfl⟩
    | error errors =>
      rw [hread] at hblock
      cases hblock
  obtain ⟨other, hother⟩ := hboth.mp ⟨file, hfile⟩
  rw [hother] at hnested
  cases hnested

end Schema.File

end ProtoSchema
