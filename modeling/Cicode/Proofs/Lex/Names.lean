import Cicode.Proofs.Lex.Case

/-!
# Names are no keywords

A name is read by a single state of the lexical automaton, which is entered on the first letter, digit or
underscore and left at the first character that is none of these (`word_of_scan`).  A whole word is
complete for the keyword automaton exactly if it spells a keyword in some case (`scan_keyword_iff`), and
in every state of the parser each keyword has an action or is reserved.

Main statement (`named_nextToken`): in every state, the recovery state included, a token that is read as a
name covers a whole word that is no keyword in any case.
-/

namespace Cicode.Lex

open Grammar Text

/-- Letters, digits and underscores that are no keyword in any case. -/
structure IsIdentifier (word : List Char) : Prop where
  nonempty : word ≠ []
  chars : ∀ c ∈ word, isWordChar c = true
  free : ∀ keyword ∈ reservedWords, word.map Char.toUpper ≠ keyword.name.toList

/-- Between two places of the text stands a word that is no keyword. -/
def NamedAt (chars : List Char) (start size : Extent) : Prop :=
  ∃ pre word post, chars = pre ++ word ++ post ∧ start = Extent.of pre ∧ size = Extent.of word ∧
    IsIdentifier word

/-! ## Words -/

/-- A whole word begins at the cursor and ends there. -/
structure WordAt (cursor : Cursor) (finish : Extent) (word post : List Char) : Prop where
  rest : cursor.rest = word ++ post
  finish_eq : finish = cursor.position + Extent.of word
  nonempty : word ≠ []
  chars : ∀ c ∈ word, isWordChar c = true
  whole : ∀ c ∈ post.head?, isWordChar c = false

/-- The number of the state that reads names. -/
def nameNumber : Nat := 16

/-- What is tested of a state: it completes names only if it is the one that reads them, and to this one
lead the characters of words only, from itself and from fresh states. -/
def nameTested (number : Nat) (state : LexState) : Bool :=
  (number == nameNumber || state.accepts != some .identifier) &&
    state.atEnd.all (fun target => (stateOf lexStates target).accepts != some .identifier) &&
    state.edges.all fun edge => edge.target != nameNumber || !edge.skips &&
      (number == nameNumber || isFresh state) && [.wordChar, .letter].contains edge.on

theorem nameTested_lexStates :
    (lexStates.toList.zipIdx.all fun q => nameTested q.2 q.1) = true := by
  decide +kernel

theorem nameTested_stateOf (number : Nat) : nameTested number (stateOf lexStates number) = true := by
  rw [stateOf]
  cases hs : lexStates[number]? with
  | none => simp [nameTested]
  | some state =>
    refine List.all_eq_true.mp nameTested_lexStates (state, number) ?_
    rw [List.mem_zipIdx_iff_getElem?, Array.getElem?_toList]
    exact hs

theorem isWordChar_of_letter {c : Char} (h : CharClass.letter.contains c = true) :
    isWordChar c = true := by
  have hall : (letters.all isWordChar) = true := by decide
  exact List.all_eq_true.mp hall c (mem_letters h)

/-- The state that reads names goes on to the end of the word. -/
theorem runAutomaton_name (rest : List Char) (start : Cursor) (token : Option (Symbol × Extent))
    (position : Extent) :
    (runAutomaton lexStates nameNumber start token position rest).start = start ∧
    (runAutomaton lexStates nameNumber start token position rest).token =
      some (.identifier, position + Extent.of (rest.takeWhile isWordChar)) := by
  have hstate : (lexStates[nameNumber]?).getD {} = _ := nameState
  induction rest generalizing token position with
  | nil =>
    rw [runAutomaton]
    simp [hstate, LexState.tokenAt]
  | cons c rest ih =>
    rw [runAutomaton]
    simp only [hstate]
    cases hc : isWordChar c with
    | true =>
      have hedge : LexState.edgeOn { accepts := some .identifier, edges := [.go .wordChar 16] } c =
          some (.go .wordChar nameNumber) := by
        rw [isWordChar] at hc
        simp [LexState.edgeOn, Edge.go, hc, nameNumber]
      simp only [hedge, List.takeWhile_cons, hc, ↓reduceIte, Extent.of_cons, ← Extent.add_assoc]
      exact ih _ _
    | false =>
      have hedge : LexState.edgeOn { accepts := some .identifier, edges := [.go .wordChar 16] } c =
          none := by
        rw [isWordChar] at hc
        simp [LexState.edgeOn, Edge.go, hc]
      simp [hedge, hc, LexState.tokenAt]

/-- Nothing but the state that reads names completes one. -/
theorem not_name_tokenAt {state : LexState} (h : state.accepts ≠ some .identifier)
    {token : Option (Symbol × Extent)} (htoken : ∀ finish, token ≠ some (.identifier, finish))
    (position finish : Extent) : LexState.tokenAt state position token ≠ some (.identifier, finish) := by
  unfold LexState.tokenAt
  split
  · rename_i symbol hsymbol
    intro heq
    obtain ⟨rfl, -⟩ := Prod.mk.inj (Option.some.inj heq)
    exact h hsymbol
  · exact htoken finish

/-- The word at a cursor, up to the first character that is no part of it. -/
theorem wordAt_takeWhile {c : Char} (rest : List Char) (position : Extent) (hc : isWordChar c = true) :
    WordAt ⟨c :: rest, position⟩
      (position + Extent.ofChar c + Extent.of (rest.takeWhile isWordChar))
      (c :: rest.takeWhile isWordChar) (rest.dropWhile isWordChar) where
  rest := by simp
  finish_eq := by rw [Extent.of_cons, ← Extent.add_assoc]
  nonempty := List.cons_ne_nil _ _
  chars := by
    intro d hd
    rcases List.mem_cons.mp hd with rfl | hd
    · exact hc
    · exact List.mem_takeWhile_imp hd
  whole := by
    intro d hd
    have hhead := List.head?_dropWhile_not isWordChar rest
    rw [Option.mem_def.mp hd] at hhead
    simpa using hhead

/-- A token that the automaton finds to be a name is a whole word. -/
theorem word_of_run (rest : List Char) {number : Nat} (hn : number ≠ nameNumber) {start : Cursor}
    {token : Option (Symbol × Extent)} {position : Extent}
    (hfresh : isFresh (stateOf lexStates number) = true → start = ⟨rest, position⟩)
    (htoken : ∀ finish, token ≠ some (.identifier, finish)) {finish : Extent}
    (h : (runAutomaton lexStates number start token position rest).token = some (.identifier, finish)) :
    ∃ word post, WordAt (runAutomaton lexStates number start token position rest).start finish word
      post := by
  induction rest generalizing number start token position with
  | nil =>
    have htest := nameTested_stateOf number
    simp only [nameTested, Bool.and_eq_true, Bool.or_eq_true, beq_iff_eq, hn, false_or,
      bne_iff_ne] at htest
    have hhere := not_name_tokenAt htest.1.1 htoken position
    rw [runAutomaton] at h
    rw [stateOf] at hhere htest
    simp only at h
    split at h
    · rename_i target hend
      have hat := htest.1.2
      rw [hend, Option.all_some, bne_iff_ne] at hat
      exact absurd h (not_name_tokenAt hat hhere position finish)
    · exact absurd h (hhere finish)
  | cons c rest ih =>
    have htest := nameTested_stateOf number
    simp only [nameTested, Bool.and_eq_true, Bool.or_eq_true, beq_iff_eq, hn, false_or,
      bne_iff_ne, List.all_eq_true, Bool.not_eq_true'] at htest
    have hhere := not_name_tokenAt htest.1.1 htoken position
    cases hedge : (stateOf lexStates number).edgeOn c with
    | none =>
      rw [stateOf] at hedge hhere
      rw [runAutomaton] at h
      simp only [hedge] at h
      exact absurd h (hhere finish)
    | some edge =>
      have hmem : edge ∈ (stateOf lexStates number).edges := List.mem_of_find?_eq_some hedge
      have hon := List.find?_some (p := fun edge : Edge => edge.on.contains c) hedge
      have hfreshNext : isFresh (stateOf lexStates edge.target) = edge.skips := by
        have hall := tested_of_all stateTested_lexStates number
        simp only [stateTested, Bool.and_eq_true, List.all_eq_true, beq_iff_eq] at hall
        exact hall.2 edge hmem
      rw [stateOf] at hedge hhere
      rw [runAutomaton] at h ⊢
      simp only [hedge] at h ⊢
      by_cases htarget : edge.target = nameNumber
      · obtain ⟨⟨hskips, hf⟩, hclass⟩ := (htest.2 edge hmem).resolve_left (· htarget)
        have hc : isWordChar c = true := by
          rw [List.contains_iff_mem, List.mem_cons, List.mem_singleton] at hclass
          rcases hclass with hclass | hclass
          · rwa [hclass] at hon
          · exact isWordChar_of_letter (hclass ▸ hon)
        rw [htarget, hskips, hfresh hf] at h ⊢
        obtain ⟨hstart, hname⟩ := runAutomaton_name rest (if false = true then
          ⟨rest, position + Extent.ofChar c⟩ else ⟨c :: rest, position⟩)
          (LexState.tokenAt ((lexStates[number]?).getD {}) position token) (position + Extent.ofChar c)
        rw [hname] at h
        rw [hstart]
        obtain ⟨-, rfl⟩ := Prod.mk.inj (Option.some.inj h)
        exact ⟨_, _, wordAt_takeWhile rest position hc⟩
      · refine ih htarget (fun hf => ?_) hhere h
        rw [if_pos (hfreshNext ▸ hf)]

theorem isFresh_nameNumber : isFresh (stateOf lexStates nameNumber) = false := by
  rw [nameNumber, nameState]
  rfl

/-- A name that is scanned is a whole word. -/
theorem word_of_scan {number : Nat} (hf : isFresh (stateOf lexStates number) = true) {cursor : Cursor}
    {finish : Extent} (h : (scan lexStates number cursor).token = some (.identifier, finish)) :
    ∃ word post, WordAt (scan lexStates number cursor).start finish word post := by
  refine word_of_run cursor.rest ?_ (fun _ => rfl) (by simp) h
  rintro rfl
  rw [isFresh_nameNumber] at hf
  cases hf

/-! ## Keywords -/

/-- A keyword that is complete is left by everything but letters. -/
theorem keywordEdges_checked : (keywordAutomaton.toList.all fun state => state.accepts.isNone ||
    state.edges.all fun edge => capitals.any (edge.on == .letterOf ·)) = true := by
  decide +kernel

theorem edgeOn_after_keyword {number : Nat} {symbol : Symbol}
    (h : (stateOf keywordAutomaton number).accepts = some symbol) {c : Char}
    (hc : isWordChar c = false) : (stateOf keywordAutomaton number).edgeOn c = none := by
  cases hedge : (stateOf keywordAutomaton number).edgeOn c with
  | none => rfl
  | some edge =>
    have hmem : edge ∈ (stateOf keywordAutomaton number).edges := List.mem_of_find?_eq_some hedge
    have hon := List.find?_some (p := fun edge : Edge => edge.on.contains c) hedge
    rw [stateOf] at h hmem
    cases hs : keywordAutomaton[number]? with
    | none =>
      rw [hs] at h
      cases h
    | some state =>
      rw [hs] at h hmem
      have htest := List.all_eq_true.mp keywordEdges_checked state
        (Array.mem_toList_iff.mpr (Array.mem_of_getElem? hs))
      rw [Option.getD_some] at h hmem
      rw [h, Option.isNone_some, Bool.false_or] at htest
      obtain ⟨capital, hcapital, heq⟩ := List.any_eq_true.mp (List.all_eq_true.mp htest edge hmem)
      rw [beq_iff_eq] at heq
      have hupper := toUpper_of_letterOf hcapital (heq ▸ hon)
      have hword : (capitals.all isWordChar) = true := by decide
      rw [← (toUpper_kept c).2, hupper, List.all_eq_true.mp hword capital hcapital] at hc
      cases hc

/-- Where a walk ends that completes a symbol, and nothing leads on, the symbol is the token. -/
theorem runAutomaton_completed {states : Array LexState} {number last : Nat} {word post : List Char}
    {symbol : Symbol} (hw : walk states number word = some last)
    (ha : (stateOf states last).accepts = some symbol) (hend : (stateOf states last).atEnd = none)
    (hpost : ∀ c ∈ post.head?, (stateOf states last).edgeOn c = none) (start : Cursor)
    (token : Option (Symbol × Extent)) (position : Extent) :
    (runAutomaton states number start token position (word ++ post)).token =
      some (symbol, position + Extent.of word) := by
  induction word generalizing number token position with
  | nil =>
    cases hw
    rw [stateOf] at ha hend hpost
    rw [Extent.of_nil, Extent.add_zero, List.nil_append]
    cases post with
    | nil => simp [runAutomaton, hend, LexState.tokenAt, ha]
    | cons c post => simp [runAutomaton, hpost c rfl, LexState.tokenAt, ha]
  | cons c word ih =>
    rw [walk] at hw
    split at hw
    · rename_i edge hedge
      split at hw
      · cases hw
      · rename_i hskip
        rw [stateOf] at hedge
        rw [List.cons_append, runAutomaton, Extent.of_cons, ← Extent.add_assoc]
        simp only [hedge, hskip]
        exact ih hw _ _
    · cases hw

theorem sameLetter_of_map_toUpper {a b : List Char} (h : a.map Char.toUpper = b.map Char.toUpper) :
    List.Forall₂ SameLetter a b := by
  rw [← List.forall₂_eq_eq_eq, List.forall₂_map_left_iff, List.forall₂_map_right_iff] at h
  exact h

theorem map_toUpper_keyword {keyword : Symbol} (h : keyword ∈ reservedWords) :
    keyword.name.toList.map Char.toUpper = keyword.name.toList := by
  have hall : (reservedWords.all fun keyword =>
    keyword.name.toList.map Char.toUpper == keyword.name.toList) = true := by decide
  exact beq_iff_eq.mp (List.all_eq_true.mp hall keyword h)

/-- A keyword in any case is found, and it ends where the word does. -/
theorem scan_keyword {keyword : Symbol} (hk : keyword ∈ reservedWords) {word post : List Char}
    (hword : word.map Char.toUpper = keyword.name.toList)
    (hwhole : ∀ c ∈ post.head?, isWordChar c = false) {cursor : Cursor}
    (hrest : cursor.rest = word ++ post) : (scan keywordAutomaton 0 cursor).token =
      some (keyword, cursor.position + Extent.of word) := by
  obtain ⟨last, hw, ha, -⟩ :=
    exists_of_completes (List.all_eq_true.mp keywords_checked.2.2.2.2 keyword hk)
  -- The word is read as the keyword is.
  have hletters := sameLetter_of_map_toUpper (hword.trans (map_toUpper_keyword hk).symm)
  have hboth : List.Forall₂ SameLetter (word ++ post) (keyword.name.toList ++ post) :=
    List.rel_append hletters (List.forall₂_refl post)
  have hextent : Extent.of word = Extent.of keyword.name.toList := extent_of_sameLetters hletters
  have hstart : cursor.Alike (List.Forall₂ SameLetter)
      ⟨keyword.name.toList ++ post, cursor.position⟩ := ⟨rfl, hrest ▸ hboth⟩
  have hrun := simulates_keywords.run (s := 0) ⟨rfl, hboth⟩ hstart none cursor.position
  rw [scan, hrest, hrun.token, hextent]
  exact runAutomaton_completed hw ha (atEnd_keywords last)
    (fun c hc => edgeOn_after_keyword ha (hwhole c hc)) _ none cursor.position

/-- **A word is complete for the keyword automaton exactly if it spells a keyword**, in any case. -/
theorem scan_keyword_iff {word post : List Char} (hne : word ≠ [])
    (hword : ∀ c ∈ word, isWordChar c = true) (hwhole : ∀ c ∈ post.head?, isWordChar c = false)
    {cursor : Cursor} (hrest : cursor.rest = word ++ post) (keyword : Symbol) :
    (scan keywordAutomaton 0 cursor).token = some (keyword, cursor.position + Extent.of word) ↔
      keyword ∈ reservedWords ∧ word.map Char.toUpper = keyword.name.toList := by
  constructor
  · intro h
    refine keyword_of_scan hne (fun c hc => hword c (List.mem_of_mem_head? hc)) hrest h ?_
    rw [Extent.bytes_add, Extent.bytes_of]
  · rintro ⟨hk, hspells⟩
    exact scan_keyword hk hspells hwhole hrest

/-- Every state has a use for a keyword or reserves it. -/
theorem keyword_claimed {keyword : Symbol} (h : keyword ∈ reservedWords) (state : StateId) :
    (hasActions state keyword || reserves state keyword) = true := by
  by_cases hs : state = 0
  · have hrecovery : (reservedWords.all (hasActions 0)) = true := by decide +kernel
    rw [hs, List.all_eq_true.mp hrecovery keyword h, Bool.true_or]
  · rw [reserves, List.contains_iff_mem.mpr h, Bool.and_true, Bool.or_eq_true]
    exact .inr (bne_iff_ne.mpr hs)

/-! ## Names -/

/-- A whole word that is taken for a name is no keyword. -/
theorem WordAt.isIdentifier {cursor : Cursor} {finish : Extent} {word post : List Char}
    (h : WordAt cursor finish word post) {state : StateId}
    (hs : (wordSymbol state cursor finish).1 = .identifier) : IsIdentifier word := by
  refine ⟨h.nonempty, h.chars, fun keyword hk hword => ?_⟩
  rw [wordSymbol, scan_keyword hk hword h.whole h.rest] at hs
  simp only [h.finish_eq, beq_self_eq_true, keyword_claimed hk, Bool.and_self, ↓reduceIte] at hs
  rw [hs] at hk
  exact absurd hk (by decide)

variable {chars : List Char}

theorem named_ofScan (state : StateId) {position : Extent} (hp : IsPlace chars position) {number : Nat}
    (hf : isFresh (stateOf lexStates number) = true) {cursor : Cursor}
    (h : (scan lexStates number cursor).Placed chars position) {symbol : Symbol} {finish : Extent}
    (htoken : (scan lexStates number cursor).token = some (symbol, finish))
    (hs : (Token.ofScan state position (scan lexStates number cursor).start symbol finish).symbol =
      .identifier) :
    NamedAt chars (position +
        (Token.ofScan state position (scan lexStates number cursor).start symbol finish).padding)
      (Token.ofScan state position (scan lexStates number cursor).start symbol finish).size := by
  have hsymbol : symbol = .identifier := by
    by_contra hne
    rw [Token.ofScan] at hs
    simp only [beq_iff_eq, hne, ↓reduceIte] at hs
  subst hsymbol
  obtain ⟨word, post, hword⟩ := word_of_scan hf htoken
  obtain ⟨pre, hchars, hpre⟩ := h.start
  rw [Token.ofScan] at hs ⊢
  simp only [beq_self_eq_true, ↓reduceIte] at hs ⊢
  refine ⟨pre, word, post, ?_, ?_, ?_, hword.isIdentifier hs⟩
  · rw [List.append_assoc, ← hword.rest, ← hchars]
  · rw [hp.add_sub h.start.isPlace h.from_le, hpre]
  · rw [hword.finish_eq, Extent.add_sub_cancel_left]

theorem named_recoveryToken (state : StateId) {cursor : Cursor} (h : cursor.At chars)
    (hs : (recoveryToken state cursor).symbol = .identifier) :
    NamedAt chars (cursor.position + (recoveryToken state cursor).padding)
      (recoveryToken state cursor).size := by
  have hscan := placed_scan isFresh_recovery noEnd_recovery h
  cases hfound : (scan lexStates 0 cursor).token with
  | none =>
    simp only [recoveryToken, hfound] at hs
    cases hs
  | some found =>
    simp only [recoveryToken, hfound] at hs ⊢
    exact named_ofScan state h.isPlace isFresh_recovery hscan hfound hs

/-- **A token that is read as a name covers a whole word that is no keyword**, whatever the state. -/
theorem named_nextToken (state : StateId) {position : Extent} (h : IsPlace chars position)
    (hs : (nextToken (.ofList chars) state position).symbol = .identifier) :
    NamedAt chars (position + (nextToken (.ofList chars) state position).padding)
      (nextToken (.ofList chars) state position).size := by
  have hcursor := at_cursorAt h
  have hscan := placed_scan (isFresh_lexStartAt state) (noEnd_lexStartAt state) hcursor
  cases hbody : (docBodyAt state).bind (scanDocBody · ((Source.ofList chars).cursorAt position)) with
  | some body =>
    obtain ⟨tag, -, hscanned⟩ := Option.bind_eq_some_iff.mp hbody
    have hsymbol := (scanDocBody_eq_some_iff.mp hscanned).1
    simp only [nextToken, hbody] at hs
    rw [hsymbol] at hs
    cases tag <;> cases hs
  | none =>
    cases hfound : (scan lexStates (lexStartAt state) ((Source.ofList chars).cursorAt position)).token with
    | none =>
      simp only [nextToken, hbody, hfound] at hs ⊢
      exact named_recoveryToken state hcursor hs
    | some found =>
      simp only [nextToken, hbody, hfound] at hs ⊢
      exact named_ofScan state h (isFresh_lexStartAt state) hscan hfound hs

end Cicode.Lex
