import Cicode.Proofs.Lex.Extents
import Cicode.Proofs.Lex.Names

/-!
# Tokens as pieces of text

A token that is read somewhere is a piece of the text: some blanks and a word after them.  Which piece it
is depends on the state and on the text that follows (`pieceAt`), not on the position; and the token that
is made of it depends on the state and on the piece (`tokenOf`), not on what follows, because a word that
is looked up among the keywords ends before the first character that could belong to it.

Main statement (`nextToken_piece`): the next token is the one of the piece, and unreadable if there is no
piece.
-/

namespace Cicode.Lex

open Grammar Text

/-! ## Pieces -/

/-- A token as it stands in the text. -/
structure Piece where
  /-- What the automaton recognised, before keywords are looked up. -/
  symbol : Symbol
  /-- What was passed over before the word. -/
  blank : List Char
  /-- The text of the token. -/
  word : List Char
  deriving DecidableEq

/-- The piece after more blanks. -/
def Piece.after (blank : List Char) (p : Piece) : Piece := { p with blank := blank ++ p.blank }

/-- All that a piece takes up. -/
def Piece.text (p : Piece) : List Char := p.blank ++ p.word

@[simp] theorem Piece.symbol_after (blank : List Char) (p : Piece) : (p.after blank).symbol = p.symbol := rfl

@[simp] theorem Piece.word_after (blank : List Char) (p : Piece) : (p.after blank).word = p.word := rfl

@[simp] theorem Piece.blank_after (blank : List Char) (p : Piece) :
    (p.after blank).blank = blank ++ p.blank := rfl

@[simp] theorem Piece.text_after (blank : List Char) (p : Piece) : (p.after blank).text = blank ++ p.text :=
  List.append_assoc ..

/-- The piece that the automaton reads from a fresh state: blanks are passed over, and from the first
character of the word the longest token is read. -/
def piece? : Nat → List Char → Option Piece
  | number, [] =>
    ((stateOf lexStates number).atEnd.bind fun target => (stateOf lexStates target).accepts).map (⟨·, [], []⟩)
  | number, c :: rest =>
    match (stateOf lexStates number).edgeOn c with
    | none => none
    | some edge =>
      if edge.skips then (piece? edge.target rest).map (Piece.after [c])
      else (longest edge.target rest).map fun found => ⟨found.1, [], c :: found.2⟩

section

variable {number : Nat} {c : Char} {rest text : List Char} {p : Piece}

theorem piece?_stop (h : (stateOf lexStates number).edgeOn c = none) : piece? number (c :: rest) = none := by
  rw [piece?, h]

theorem piece?_skip {edge : Edge} (h : (stateOf lexStates number).edgeOn c = some edge)
    (hs : edge.skips = true) :
    piece? number (c :: rest) = (piece? edge.target rest).map (Piece.after [c]) := by
  rw [piece?, h]
  exact if_pos hs

theorem piece?_go {edge : Edge} (h : (stateOf lexStates number).edgeOn c = some edge)
    (hs : edge.skips = false) : piece? number (c :: rest) =
      (longest edge.target rest).map fun found => ⟨found.1, [], c :: found.2⟩ := by
  rw [piece?, h]
  exact if_neg (by simp [hs])

/-- The word of a token is what the text begins with. -/
theorem exists_post_of_longest {symbol : Symbol} {word : List Char}
    (h : longest number text = some (symbol, word)) : ∃ post, text = word ++ post := by
  induction text generalizing number word with
  | nil =>
    rw [longest, complete, Option.map_eq_some_iff] at h
    obtain ⟨_, -, heq⟩ := h
    cases heq
    exact ⟨[], rfl⟩
  | cons c rest ih =>
    have hcomplete : complete number = some (symbol, word) → ∃ post, c :: rest = word ++ post := by
      intro hfound
      obtain ⟨_, -, heq⟩ := Option.map_eq_some_iff.mp hfound
      cases heq
      exact ⟨c :: rest, rfl⟩
    cases hafter : Lex.after number c with
    | none => exact hcomplete (longest_stop hafter ▸ h)
    | some next =>
      rw [longest_go hafter, Option.or_eq_some_iff] at h
      rcases h with h | ⟨-, h⟩
      · obtain ⟨⟨symbol', word'⟩, hnext, heq⟩ := Option.map_eq_some_iff.mp h
        cases heq
        obtain ⟨post, rfl⟩ := ih hnext
        exact ⟨post, rfl⟩
      · exact hcomplete h

/-- A piece is what the text begins with. -/
theorem exists_post (h : piece? number text = some p) : ∃ post, text = p.blank ++ (p.word ++ post) := by
  induction text generalizing number p with
  | nil =>
    rw [piece?, Option.map_eq_some_iff] at h
    obtain ⟨_, -, rfl⟩ := h
    exact ⟨[], rfl⟩
  | cons c rest ih =>
    cases hedge : (stateOf lexStates number).edgeOn c with
    | none =>
      rw [piece?_stop hedge] at h
      cases h
    | some edge =>
      cases hs : edge.skips with
      | true =>
        rw [piece?_skip hedge hs, Option.map_eq_some_iff] at h
        obtain ⟨q, hq, rfl⟩ := h
        obtain ⟨post, rfl⟩ := ih hq
        exact ⟨post, rfl⟩
      | false =>
        rw [piece?_go hedge hs, Option.map_eq_some_iff] at h
        obtain ⟨⟨symbol, word⟩, hfound, rfl⟩ := h
        obtain ⟨post, rfl⟩ := exists_post_of_longest hfound
        exact ⟨post, rfl⟩

/-- In a fresh state no token is complete. -/
theorem accepts_of_fresh (hf : isFresh (stateOf lexStates number) = true) :
    (stateOf lexStates number).accepts = none := by
  have htest := tested_of_all stateTested_lexStates number
  simp only [stateTested, Bool.and_eq_true, Bool.or_eq_true, Bool.not_eq_true'] at htest
  simpa using htest.1.1.2.resolve_left (by simp [hf])

/-- An edge that passes over a character leads to a fresh state, and no other one does. -/
theorem isFresh_target {edge : Edge} (h : (stateOf lexStates number).edgeOn c = some edge) :
    isFresh (stateOf lexStates edge.target) = edge.skips := by
  have htest := tested_of_all stateTested_lexStates number
  simp only [stateTested, Bool.and_eq_true, List.all_eq_true, beq_iff_eq] at htest
  exact htest.2 edge (List.mem_of_find?_eq_some h)

/-- **A scan finds the piece.** -/
theorem scan_piece (text : List Char) (hf : isFresh (stateOf lexStates number) = true) (position : Extent) :
    (scan lexStates number ⟨text, position⟩).token =
        (piece? number text).map (fun p => (p.symbol, position + Extent.of p.blank + Extent.of p.word)) ∧
      ∀ p post, piece? number text = some p → text = p.blank ++ (p.word ++ post) →
        (scan lexStates number ⟨text, position⟩).start = ⟨p.word ++ post, position + Extent.of p.blank⟩ := by
  induction text generalizing number position with
  | nil =>
    have hnone := accepts_of_fresh hf
    rw [scan, runAutomaton, piece?]
    rw [stateOf] at hnone ⊢
    refine ⟨?_, fun p post hp htext => ?_⟩
    · simp only [hnone, LexState.tokenAt]
      cases (lexStates[number]?.getD {}).atEnd with
      | none => rfl
      | some target =>
        simp only [Option.bind_some, stateOf]
        cases (lexStates[target]?.getD {}).accepts with
        | none => rfl
        | some symbol => simp
    · obtain ⟨symbol, -, rfl⟩ := Option.map_eq_some_iff.mp hp
      simp only [List.nil_append] at htext
      rw [← htext]
      simp
  | cons c rest ih =>
    have hnone := accepts_of_fresh hf
    cases hedge : (stateOf lexStates number).edgeOn c with
    | none =>
      rw [piece?_stop hedge]
      rw [stateOf] at hnone hedge
      rw [scan, runAutomaton]
      simp only [hedge, LexState.tokenAt, hnone, Option.map_none, true_and]
      exact fun p post hp => by cases hp
    | some edge =>
      have hnext := isFresh_target hedge
      cases hs : edge.skips with
      | true =>
        obtain ⟨htoken, hstart⟩ := ih (hnext.trans hs) (position + Extent.ofChar c)
        rw [piece?_skip hedge hs]
        rw [stateOf] at hnone hedge
        rw [scan, runAutomaton]
        simp only [hedge, hs, LexState.tokenAt, hnone, ↓reduceIte]
        rw [scan] at htoken hstart
        simp only at htoken hstart
        refine ⟨?_, fun p post hp htext => ?_⟩
        · rw [htoken, Option.map_map]
          congr 1
          funext p
          simp [Extent.of_cons, Extent.add_assoc]
        · obtain ⟨q, hq, rfl⟩ := Option.map_eq_some_iff.mp hp
          have hrest : rest = q.blank ++ (q.word ++ post) := (List.cons.inj htext).2
          rw [hstart q post hq hrest]
          simp [Extent.of_cons, Extent.add_assoc]
      | false =>
        obtain ⟨hstart, htoken⟩ := @scan_longest number c rest edge.target hnone
          ⟨edge.on, by rw [hedge, Edge.go, ← hs]⟩ position
        rw [piece?_go hedge hs]
        refine ⟨?_, fun p post hp htext => ?_⟩
        · rw [htoken, Option.map_map]
          rfl
        · obtain ⟨found, -, rfl⟩ := Option.map_eq_some_iff.mp hp
          rw [hstart, htext]
          simp

end

/-! ## Keywords -/

/-- The keyword automaton goes on with letters only. -/
theorem keywordEdges_tested : (keywordAutomaton.toList.all fun state => state.edges.all fun edge =>
    edge.skips || capitals.any fun c => edge.on == .letterOf c) = true := by
  decide +kernel

theorem isWordChar_of_keywordEdge {number : Nat} {c : Char} {edge : Edge}
    (h : (stateOf keywordAutomaton number).edgeOn c = some edge) (hs : edge.skips = false) :
    isWordChar c = true := by
  have hmem := List.mem_of_find?_eq_some h
  have hon := List.find?_some (p := fun edge : Edge => edge.on.contains c) h
  rw [stateOf] at hmem
  cases hstate : keywordAutomaton[number]? with
  | none =>
    rw [hstate] at hmem
    cases hmem
  | some state =>
    rw [hstate, Option.getD_some] at hmem
    have hall := List.all_eq_true.mp keywordEdges_tested state
      (Array.mem_toList_iff.mpr (Array.mem_of_getElem? hstate))
    have hedge := List.all_eq_true.mp hall edge hmem
    rw [hs, Bool.false_or, List.any_eq_true] at hedge
    obtain ⟨capital, hcapital, heq⟩ := hedge
    rw [beq_iff_eq] at heq
    refine isWordChar_of_capital ?_
    rw [toUpper_of_letterOf hcapital (heq ▸ hon)]
    exact hcapital

/-- A token further on. -/
def movedBy (base : Extent) (token : Symbol × Extent) : Symbol × Extent := (token.1, base + token.2)

theorem tokenAt_movedBy (state : LexState) (base position : Extent) (token : Option (Symbol × Extent)) :
    LexState.tokenAt state (base + position) (token.map (movedBy base)) =
      (LexState.tokenAt state position token).map (movedBy base) := by
  rw [LexState.tokenAt, LexState.tokenAt]
  cases state.accepts <;> rfl

/-- From inside a word, the keyword automaton does not read beyond the word. -/
theorem runAutomaton_keyword (word : List Char) {post : List Char} (hpost : ∀ c ∈ post.head?, isWordChar c = false)
    {number : Nat} (hf : isFresh (stateOf keywordAutomaton number) = false) (start start' : Cursor)
    (base position : Extent) (token : Option (Symbol × Extent)) :
    (runAutomaton keywordAutomaton number start (token.map (movedBy base)) (base + position) (word ++ post)).token =
      (runAutomaton keywordAutomaton number start' token position word).token.map (movedBy base) := by
  have hskips : ∀ {c : Char} {edge : Edge}, (stateOf keywordAutomaton number).edgeOn c = some edge →
      edge.skips = false := by
    intro c edge hedge
    rw [isFresh, List.any_eq_false] at hf
    simpa using hf edge (List.mem_of_find?_eq_some hedge)
  induction word generalizing number position token with
  | nil =>
    have hend := atEnd_keywords number
    have hhere := tokenAt_movedBy (stateOf keywordAutomaton number) base position token
    have hright : (runAutomaton keywordAutomaton number start' token position []).token =
        LexState.tokenAt (stateOf keywordAutomaton number) position token := by
      rw [stateOf] at hend ⊢
      rw [runAutomaton]
      simp only [hend]
    rw [hright, List.nil_append, ← hhere]
    cases post with
    | nil =>
      rw [stateOf] at hend ⊢
      rw [runAutomaton]
      simp only [hend]
    | cons c post =>
      have hstop : (stateOf keywordAutomaton number).edgeOn c = none := by
        by_contra hne
        obtain ⟨edge, hedge⟩ := Option.ne_none_iff_exists'.mp hne
        have hword := isWordChar_of_keywordEdge hedge (hskips hedge)
        rw [hpost c rfl] at hword
        cases hword
      rw [stateOf] at hstop ⊢
      rw [runAutomaton]
      simp only [hstop]
  | cons c word ih =>
    have hhere := tokenAt_movedBy (stateOf keywordAutomaton number) base position token
    rw [List.cons_append, runAutomaton, runAutomaton]
    cases hedge : (stateOf keywordAutomaton number).edgeOn c with
    | none =>
      rw [stateOf] at hedge hhere
      simp only [hedge, hhere]
    | some edge =>
      have hskip := hskips hedge
      have hnext : isFresh (stateOf keywordAutomaton edge.target) = false := by
        have htest := tested_of_all stateTested_keywords number
        simp only [stateTested, Bool.and_eq_true, List.all_eq_true, beq_iff_eq] at htest
        rw [htest.2 edge (List.mem_of_find?_eq_some hedge), hskip]
      rw [stateOf] at hedge hhere
      simp only [hedge, hskip, hhere, Bool.false_eq_true, ↓reduceIte, Extent.add_assoc]
      refine ih hnext _ _ fun hedge' => ?_
      rw [isFresh, List.any_eq_false] at hnext
      simpa using hnext _ (List.mem_of_find?_eq_some hedge')

/-- What a word is: a keyword if it spells one, and else a name.  The second component says whether a
keyword stands at its beginning. -/
def wordKind (word : List Char) : Symbol × Bool :=
  match (scan keywordAutomaton 0 ⟨word, 0⟩).token with
  | none => (.identifier, false)
  | some (keyword, finish) =>
    if finish.bytes = byteLength word then (keyword, true) else (.identifier, true)

/-- The scan for a keyword depends on the word alone. -/
theorem scan_keyword_word {word : List Char} (hne : word ≠ [])
    (hhead : ∀ c ∈ word.head?, isWordChar c = true) {post : List Char}
    (hpost : ∀ c ∈ post.head?, isWordChar c = false) (base : Extent) :
    (scan keywordAutomaton 0 ⟨word ++ post, base⟩).token =
      (scan keywordAutomaton 0 ⟨word, 0⟩).token.map (movedBy base) := by
  cases word with
  | nil => exact absurd rfl hne
  | cons c word =>
    obtain ⟨-, -, hfresh, hskips, -⟩ := keywords_checked
    rw [scan, scan, List.cons_append, runAutomaton, runAutomaton]
    cases hedge : (stateOf keywordAutomaton 0).edgeOn c with
    | none =>
      rw [stateOf] at hedge hfresh
      simp only [hedge, LexState.tokenAt, hfresh, Option.map_none]
    | some edge =>
      have hmem : edge ∈ (stateOf keywordAutomaton 0).edges := List.mem_of_find?_eq_some hedge
      have hon := List.find?_some (p := fun edge : Edge => edge.on.contains c) hedge
      have hskip : edge.skips = false := by
        have hedges := List.all_eq_true.mp hskips edge hmem
        rw [Bool.or_eq_true, Bool.not_eq_true', List.all_eq_true] at hedges
        refine hedges.resolve_right fun hall => ?_
        have hout := hall c (mem_wordChars (hhead c rfl))
        rw [hon] at hout
        cases hout
      have hnext : isFresh (stateOf keywordAutomaton edge.target) = false := by
        have htest := tested_of_all stateTested_keywords 0
        simp only [stateTested, Bool.and_eq_true, List.all_eq_true, beq_iff_eq] at htest
        rw [htest.2 edge hmem, hskip]
      have hrun := runAutomaton_keyword word hpost hnext ⟨c :: (word ++ post), base⟩ ⟨c :: word, 0⟩ base
        (Extent.ofChar c) none
      rw [stateOf] at hedge hfresh
      simp only [hedge, hskip, LexState.tokenAt, hfresh, Bool.false_eq_true, ↓reduceIte, Extent.zero_add]
      exact hrun

/-- **What a word is depends on the word alone**, since every state has a use for a keyword or reserves
it. -/
theorem wordSymbol_word (state : StateId) {word : List Char} (hne : word ≠ [])
    (hhead : ∀ c ∈ word.head?, isWordChar c = true) {post : List Char}
    (hpost : ∀ c ∈ post.head?, isWordChar c = false) (base : Extent) :
    wordSymbol state ⟨word ++ post, base⟩ (base + Extent.of word) = wordKind word := by
  have hspec := scan_spec (tested_of_all stateTested_keywords) isFresh_keywords ⟨word, 0⟩
  rw [wordSymbol, wordKind, scan_keyword_word hne hhead hpost]
  cases hscan : (scan keywordAutomaton 0 ⟨word, 0⟩).token with
  | none => rfl
  | some found =>
    obtain ⟨keyword, finish⟩ := found
    have hclaimed := keyword_claimed (hspec keyword finish hscan).1 state
    simp [movedBy, hclaimed, Extent.bytes_of]

/-! ## The piece of a parser state -/

/-- The body of a documentation tag, as a piece. -/
def bodyPiece (tag : DocTag) (text : List Char) : Option Piece :=
  (scanDocBody tag ⟨text, 0⟩).map fun found => ⟨found.1, [], Source.takeBytes found.2.bytes text⟩

/-- The piece that a parser state reads from a text: the body of a documentation tag, or a token in the
state's own lexical state, or one in that of recovery. -/
def pieceAt (state : StateId) (text : List Char) : Option Piece :=
  (((docBodyAt state).bind (bodyPiece · text)).or (piece? (lexStartAt state) text)).or (piece? 0 text)

/-- The token of a piece. -/
def Piece.token (p : Piece) : Token :=
  let named := if p.symbol = .identifier then wordKind p.word else (p.symbol, false)
  ⟨named.1, Extent.of p.blank, Extent.of p.word, named.2⟩

theorem Piece.padding_token (p : Piece) : p.token.padding = Extent.of p.blank := rfl

theorem Piece.size_token (p : Piece) : p.token.size = Extent.of p.word := rfl

/-- The body of a documentation tag is what is passed over before its closing tag. -/
theorem bodyPiece_eq_some_iff {tag : DocTag} {text : List Char} {p : Piece} :
    bodyPiece tag text = some p ↔ ∃ body rest, text = body ++ wholeTag tag ++ rest ∧
      PassedOver (wholeTag tag) body ∧ body ≠ [] ∧ p = ⟨bodySymbol tag, [], body⟩ := by
  have htake : ∀ body rest : List Char, Source.takeBytes (byteLength body) (body ++ wholeTag tag ++ rest) = body := by
    intro body rest
    rw [List.append_assoc, takeBytes_append]
  rw [bodyPiece, Option.map_eq_some_iff]
  constructor
  · rintro ⟨⟨symbol, finish⟩, hscan, rfl⟩
    obtain ⟨rfl, body, rest, hrest, hbody, hne, rfl⟩ := scanDocBody_eq_some_iff.mp hscan
    simp only at hrest
    refine ⟨body, rest, hrest, hbody, hne, ?_⟩
    rw [hrest, Extent.zero_add, Extent.bytes_of, htake]
  · rintro ⟨body, rest, rfl, hbody, hne, rfl⟩
    refine ⟨(bodySymbol tag, 0 + Extent.of body), ?_, ?_⟩
    · exact scanDocBody_eq_some_iff.mpr ⟨rfl, body, rest, rfl, hbody, hne, rfl⟩
    · simp only [Extent.zero_add, Extent.bytes_of, htake]

theorem scanDocBody_eq_none_iff {tag : DocTag} {cursor : Cursor} :
    scanDocBody tag cursor = none ↔ bodyPiece tag cursor.rest = none := by
  rw [bodyPiece, Option.map_eq_none_iff, Option.eq_none_iff_forall_not_mem, Option.eq_none_iff_forall_not_mem]
  constructor
  · rintro h ⟨symbol, finish⟩ hmem
    obtain ⟨hsymbol, body, rest, hrest, hbody, hne, -⟩ := scanDocBody_eq_some_iff.mp hmem
    exact h (symbol, _) (scanDocBody_eq_some_iff.mpr ⟨hsymbol, body, rest, hrest, hbody, hne, rfl⟩)
  · rintro h ⟨symbol, finish⟩ hmem
    obtain ⟨hsymbol, body, rest, hrest, hbody, hne, -⟩ := scanDocBody_eq_some_iff.mp hmem
    exact h (symbol, _) (scanDocBody_eq_some_iff.mpr ⟨hsymbol, body, rest, hrest, hbody, hne, rfl⟩)

/-- A name is a whole word. -/
theorem name_of_piece {number : Nat} (hf : isFresh (stateOf lexStates number) = true) {text post : List Char}
    {p : Piece} (h : piece? number text = some p) (hs : p.symbol = .identifier)
    (htext : text = p.blank ++ (p.word ++ post)) :
    p.word ≠ [] ∧ (∀ c ∈ p.word, isWordChar c = true) ∧ ∀ c ∈ post.head?, isWordChar c = false := by
  obtain ⟨htoken, hstart⟩ := scan_piece text hf 0
  rw [h, Option.map_some, hs] at htoken
  obtain ⟨word, rest, hword⟩ := word_of_scan hf htoken
  have hsplit := hword.rest
  have hfinish := hword.finish_eq
  rw [hstart p post h htext] at hsplit hfinish
  have hlength : byteLength p.word = byteLength word := by
    rw [← Extent.bytes_of, ← Extent.bytes_of, Extent.add_left_cancel hfinish]
  obtain rfl := eq_of_byteLength hsplit hlength
  obtain rfl := List.append_cancel_left hsplit
  exact ⟨hword.nonempty, hword.chars, hword.whole⟩

/-- What a scan finds is the token of the piece. -/
theorem ofScan_piece {number : Nat} (hf : isFresh (stateOf lexStates number) = true) (state : StateId)
    {text : List Char} {p : Piece} (h : piece? number text = some p) (position : Extent) :
    ∃ finish, (scan lexStates number ⟨text, position⟩).token = some (p.symbol, finish) ∧
      Token.ofScan state position (scan lexStates number ⟨text, position⟩).start p.symbol finish = p.token := by
  obtain ⟨post, htext⟩ := exists_post h
  obtain ⟨htoken, hstart⟩ := scan_piece text hf position
  rw [h, Option.map_some] at htoken
  refine ⟨_, htoken, ?_⟩
  rw [hstart p post h htext, Token.ofScan, Piece.token]
  by_cases hs : p.symbol = .identifier
  · obtain ⟨hne, hchars, hpost⟩ := name_of_piece hf h hs htext
    have hhead : ∀ c ∈ p.word.head?, isWordChar c = true := fun c hc => hchars c (List.mem_of_mem_head? hc)
    simp only [hs, beq_self_eq_true, ↓reduceIte, wordSymbol_word state hne hhead hpost,
      Extent.add_sub_cancel_left]
  · simp only [beq_iff_eq, hs, ↓reduceIte, Extent.add_sub_cancel_left]

/-- **The next token is that of the piece**, whatever the position; where there is no piece, the text is
unreadable. -/
theorem nextToken_piece (source : Source) (state : StateId) (position : Extent) :
    (∀ p, pieceAt state (source.cursorAt position).rest = some p → nextToken source state position = p.token) ∧
      (pieceAt state (source.cursorAt position).rest = none →
        (nextToken source state position).symbol = .error) := by
  have hcursor : source.cursorAt position = ⟨(source.cursorAt position).rest, position⟩ := rfl
  generalize (source.cursorAt position).rest = text at hcursor
  rw [nextToken, hcursor, pieceAt]
  simp only
  cases hbody : (docBodyAt state).bind (bodyPiece · text) with
  | some q =>
    obtain ⟨tag, htag, hq⟩ := Option.bind_eq_some_iff.mp hbody
    obtain ⟨body, rest, htext, hpassed, hne, rfl⟩ := bodyPiece_eq_some_iff.mp hq
    have hscan : (docBodyAt state).bind (scanDocBody · ⟨text, position⟩) =
        some (bodySymbol tag, position + Extent.of body) := by
      rw [htag, Option.bind_some]
      exact scanDocBody_eq_some_iff.mpr ⟨rfl, body, rest, htext, hpassed, hne, rfl⟩
    have hsymbol : bodySymbol tag ≠ .identifier := by
      cases tag <;> decide
    simp only [hscan, Option.some_or]
    refine ⟨fun p hp => ?_, fun hp => by cases hp⟩
    cases hp
    simp only [Piece.token, hsymbol, ↓reduceIte, Extent.add_sub_cancel_left]
    rfl
  | none =>
    have hscan : (docBodyAt state).bind (scanDocBody · ⟨text, position⟩) = none := by
      rw [Option.bind_eq_none_iff] at hbody ⊢
      exact fun tag htag => scanDocBody_eq_none_iff.mpr (hbody tag htag)
    simp only [hscan, Option.none_or]
    cases hown : piece? (lexStartAt state) text with
    | some q =>
      obtain ⟨finish, htoken, hq⟩ := ofScan_piece (isFresh_lexStartAt state) state hown position
      simp only [htoken, Option.some_or]
      exact ⟨fun p hp => by cases hp; exact hq, fun hp => by cases hp⟩
    | none =>
      have htoken := (scan_piece text (isFresh_lexStartAt state) position).1
      rw [hown, Option.map_none] at htoken
      simp only [htoken, Option.none_or, recoveryToken]
      cases hrecovery : piece? 0 text with
      | some q =>
        obtain ⟨finish, htoken, hq⟩ := ofScan_piece isFresh_recovery state hrecovery position
        simp only [htoken]
        exact ⟨fun p hp => by cases hp; exact hq, fun hp => by cases hp⟩
      | none =>
        have htoken := (scan_piece text isFresh_recovery position).1
        rw [hrecovery, Option.map_none] at htoken
        simp only [htoken]
        exact ⟨fun p hp => (by cases hp), fun _ => trivial⟩

/-- A piece is what the text begins with. -/
theorem exists_post_of_pieceAt {state : StateId} {text : List Char} {p : Piece}
    (h : pieceAt state text = some p) : ∃ post, text = p.blank ++ (p.word ++ post) := by
  rw [pieceAt, Option.or_eq_some_iff, Option.or_eq_some_iff] at h
  rcases h with (h | ⟨-, h⟩) | ⟨-, h⟩
  · obtain ⟨tag, -, htag⟩ := Option.bind_eq_some_iff.mp h
    obtain ⟨body, rest, htext, -, -, rfl⟩ := bodyPiece_eq_some_iff.mp htag
    exact ⟨wholeTag tag ++ rest, by rw [htext, List.nil_append, List.append_assoc]⟩
  · exact exists_post h
  · exact exists_post h

/-- Every piece but the end of the text holds a word. -/
theorem word_of_pieceAt {state : StateId} {text : List Char} {p : Piece} (h : pieceAt state text = some p)
    (hs : p.token.symbol ≠ .endOfInput) (he : p.token.symbol ≠ .error) : p.word ≠ [] := by
  have htoken := (nextToken_piece (.ofList text) state 0).1 p (by
    rwa [show ((Source.ofList text).cursorAt 0).rest = text from rest_cursorAt [] text rfl])
  have hwide := (wellRead_nextToken (.ofList text) state 0).wide
  rw [htoken] at hwide
  have hpos := hwide he hs
  rw [Piece.size_token, Extent.bytes_of] at hpos
  rintro hnil
  rw [hnil] at hpos
  exact absurd hpos (Nat.lt_irrefl 0)

end Cicode.Lex
