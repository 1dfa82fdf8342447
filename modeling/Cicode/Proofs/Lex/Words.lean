import Cicode.Proofs.Lex.Tokens
import Cicode.Proofs.Text.Extent

/-!
# Words are read back

A word that spells a terminal (`Spelled`), with a blank before it or none, is read as this terminal in
every state of the parser that has a use for it, if a character comes after it that ends it (`enders`).

The automaton walks along the word (`walk`) from the state after the blank; where it ends, the
terminal is complete and no edge leads on.  For punctuation and keywords this is tested for each
state.  Names, numbers and strings end in loops of the automaton.  A name is no keyword because the
keyword automaton is a tree: the way to each of its states spells a word (`pathTo`), and
where a keyword is complete it is the keyword.

Main statements: `nextToken_of_spelled`, and `nextToken_at_end` for the end of the text.
-/

namespace Cicode.Lex

open Grammar Text

/-! ## Spelling -/

/-- The punctuation of the language. -/
def punctuation : List Symbol :=
  [.lparen, .rparen, .lineFeed, .comma, .equal, .semicolon, .plus, .minus, .star, .slash, .notEqual,
    .less, .greater, .lessEqual, .greaterEqual]

/-- A letter or an underscore, and then letters, digits and underscores. -/
def isWord : List Char → Bool
  | [] => false
  | c :: rest => CharClass.letter.contains c && rest.all CharClass.wordChar.contains

/-- A word that is no keyword in any case. -/
def IsName (word : List Char) : Prop :=
  isWord word = true ∧ ∀ keyword ∈ reservedWords, word.map Char.toUpper ≠ keyword.name.toList

/-- What may stand between quotation marks. -/
inductive IsBody : List Char → Prop
  | nil : IsBody []
  | plain {c : Char} {rest : List Char} :
      c ∉ ['\x00', '\n', '"', '^'] → IsBody rest → IsBody (c :: rest)
  | escaped {c : Char} {rest : List Char} :
      c ∉ ['\x00', '\n'] → IsBody rest → IsBody ('^' :: c :: rest)

/-- The words that are read as a terminal. -/
inductive Spelled : Symbol → List Char → Prop
  | fixed {symbol : Symbol} : symbol ∈ punctuation → Spelled symbol symbol.name.toList
  | keyword {symbol : Symbol} : symbol ∈ reservedWords → Spelled symbol symbol.name.toList
  | name {word : List Char} : IsName word → Spelled .identifier word
  | number {word : List Char} :
      word ≠ [] → (∀ c ∈ word, CharClass.digit.contains c = true) → Spelled .number word
  | string {body : List Char} : IsBody body → Spelled .string ('"' :: body ++ ['"'])

/-- The symbol that the automaton finds before keywords are looked up. -/
def scanned (symbol : Symbol) : Symbol := if symbol ∈ reservedWords then .identifier else symbol

/-- The letters and the underscore. -/
def letters : List Char := "ABCDEFGHIJKLMNOPQRSTUVWXYZ_abcdefghijklmnopqrstuvwxyz".toList

/-- Characters that end a word of a terminal. -/
def enders (symbol : Symbol) : List Char :=
  match scanned symbol with
  | .identifier => [' ', '\n', '(', ')', ',']
  | .number | .string => [' ', ',', ')']
  | .lparen | .rparen | .lineFeed => [' ', '\n', ')'] ++ letters
  | _ => [' ']

/-! ## Walking along a word -/

/-- The state after a word, if each of its characters belongs to the token. -/
def walk (states : Array LexState) : Nat → List Char → Option Nat
  | number, [] => some number
  | number, c :: rest =>
    match (stateOf states number).edgeOn c with
    | some edge => if edge.skips then none else walk states edge.target rest
    | none => none

section Walk

variable {states : Array LexState} {number last : Nat} {word : List Char} {symbol : Symbol}

/-- The token of a word that is walked along is that of the last state. -/
theorem runAutomaton_walk {ender : Char} (post : List Char) (hw : walk states number word = some last)
    (ha : (stateOf states last).accepts = some symbol)
    (he : (stateOf states last).edgeOn ender = none) (start : Cursor) (token : Option (Symbol × Extent))
    (position : Extent) :
    ∃ finish, (runAutomaton states number start token position (word ++ ender :: post)).start = start ∧
      (runAutomaton states number start token position (word ++ ender :: post)).token =
        some (symbol, finish) ∧ finish.bytes = position.bytes + byteLength word := by
  induction word generalizing number token position with
  | nil =>
    cases hw
    refine ⟨position, ?_⟩
    rw [stateOf] at he ha
    rw [List.nil_append, runAutomaton]
    simp only [he, LexState.tokenAt, ha, byteLength_nil, Nat.add_zero, and_self]
  | cons c word ih =>
    rw [walk] at hw
    rw [List.cons_append, runAutomaton]
    split at hw
    · rename_i edge hedge
      rw [stateOf] at hedge
      simp only [hedge]
      split at hw
      · cases hw
      · rename_i hskip
        obtain ⟨finish, h1, h2, h3⟩ := ih hw
          (LexState.tokenAt ((states[number]?).getD {}) position token) (position + Extent.ofChar c)
        refine ⟨finish, ?_, ?_, ?_⟩
        · rw [if_neg hskip, h1]
        · rw [if_neg hskip, h2]
        · rw [h3, Extent.bytes_add, Extent.bytes_ofChar, byteLength_cons, Nat.add_assoc]
    · cases hw

/-- The word is walked along up to a state that completes the symbol and that nothing which ends the
word leads on from. -/
def completes (states : Array LexState) (number : Nat) (symbol : Symbol) (word : List Char) : Bool :=
  match walk states number word with
  | some last =>
    (stateOf states last).accepts == some symbol &&
      (enders symbol).all fun ender => ((stateOf states last).edgeOn ender).isNone
  | none => false

theorem exists_of_completes (h : completes states number symbol word = true) :
    ∃ last, walk states number word = some last ∧ (stateOf states last).accepts = some symbol ∧
      ∀ ender ∈ enders symbol, (stateOf states last).edgeOn ender = none := by
  rw [completes] at h
  split at h
  · rename_i last hw
    rw [Bool.and_eq_true, beq_iff_eq, List.all_eq_true] at h
    exact ⟨last, hw, h.1, fun ender hender => Option.isNone_iff_eq_none.mp (h.2 ender hender)⟩
  · cases h

/-- Whether a state passes over a character and stays the same. -/
def skips (states : Array LexState) (number : Nat) (c : Char) : Bool :=
  match (stateOf states number).edgeOn c with
  | some edge => edge.skips && edge.target == number
  | none => false

/-- What is passed over before a word comes before the token. -/
theorem runAutomaton_blank {c : Char} (h : skips states number c = true)
    (hfresh : (stateOf states number).accepts = none) (start : Cursor) (position : Extent)
    (rest : List Char) :
    runAutomaton states number start none position (c :: rest) =
      runAutomaton states number ⟨rest, position + Extent.ofChar c⟩ none
        (position + Extent.ofChar c) rest := by
  rw [skips] at h
  rw [runAutomaton]
  rw [stateOf] at h hfresh
  split at h
  · rename_i edge hedge
    rw [Bool.and_eq_true, beq_iff_eq] at h
    simp only [hedge, LexState.tokenAt, hfresh, h.1, h.2, ↓reduceIte]
  · cases h

/-- What may stand between two words. -/
def IsGap (gap : List Char) : Prop := gap = [] ∨ gap = [' ']

/-- A word after a gap is scanned as what it completes. -/
theorem scan_of_completes {gap : List Char} (hgap : IsGap gap) {ender : Char}
    (hender : ender ∈ enders symbol) (post : List Char) (hb : skips states number ' ' = true)
    (hfresh : (stateOf states number).accepts = none) (hc : completes states number symbol word = true)
    (cursor : Cursor) (hrest : cursor.rest = gap ++ (word ++ ender :: post)) :
    ∃ finish, (scan states number cursor).start =
        ⟨word ++ ender :: post, cursor.position + Extent.of gap⟩ ∧
      (scan states number cursor).token = some (symbol, finish) ∧
      finish.bytes = cursor.position.bytes + byteLength gap + byteLength word := by
  obtain ⟨last, hw, ha, he⟩ := exists_of_completes hc
  rw [scan, hrest]
  rcases hgap with rfl | rfl
  · rw [List.nil_append] at hrest ⊢
    rw [Extent.of_nil, Extent.add_zero, ← hrest]
    rw [hrest]
    obtain ⟨finish, h1, h2, h3⟩ := runAutomaton_walk post hw ha (he ender hender) cursor none cursor.position
    obtain ⟨rest, position⟩ := cursor
    obtain rfl : rest = word ++ ender :: post := hrest
    exact ⟨finish, h1, h2, h3⟩
  · rw [List.singleton_append, runAutomaton_blank hb hfresh]
    obtain ⟨finish, h1, h2, h3⟩ := runAutomaton_walk post hw ha (he ender hender)
      ⟨word ++ ender :: post, cursor.position + Extent.ofChar ' '⟩ none
      (cursor.position + Extent.ofChar ' ')
    exact ⟨finish, h1, h2, h3⟩

end Walk

/-! ## Which words the states of the parser read -/

/-- The terminals that words spell. -/
def spellable : List Symbol := [.identifier, .number, .string] ++ punctuation ++ reservedWords

/-- The decimal digits. -/
def decimals : List Char := "0123456789".toList

/-- Whether a character that belongs to the token leads to a state. -/
def leadsTo (states : Array LexState) (number : Nat) (c : Char) (target : Nat) : Bool :=
  match (stateOf states number).edgeOn c with
  | some edge => !edge.skips && edge.target == target
  | none => false

/-- Whether a lexical state reads a terminal: punctuation and keywords as they are spelled, names by
their first letter, numbers by their first digit, and strings by their quotation mark. -/
def reads (number : Nat) (symbol : Symbol) : Bool :=
  if symbol == .identifier then letters.all (leadsTo lexStates number · 16)
  else if symbol == .number then
    decimals.all fun c => leadsTo lexStates number c 11 || leadsTo lexStates number c 155
  else if symbol == .string then leadsTo lexStates number '"' 3
  else completes lexStates number (scanned symbol) symbol.name.toList

/-- Each row but that of recovery passes a test for each terminal that it has a use for. -/
def everyUse (test : Row → Symbol → Bool) : Bool :=
  rowList.zipIdx.all fun q => q.2 == 0 || q.1.actions.all fun group => group.2.all (test q.1)

/-- A row reads a terminal that words spell after a blank. -/
def readsAfterBlank (row : Row) (symbol : Symbol) : Bool := symbol ∉ spellable ||
  (row.docBody.isNone && skips lexStates row.lexStart ' ' && reads row.lexStart symbol)

/-- A row reads the end of the text after a blank. -/
def endsAfterBlank (row : Row) (symbol : Symbol) : Bool := symbol != .endOfInput ||
  (row.docBody.isNone && (skips lexStates row.lexStart ' ' && skips lexStates row.lexStart '\n') &&
    ((stateOf lexStates row.lexStart).atEnd.any fun target =>
      (stateOf lexStates target).accepts == some .endOfInput))

theorem of_everyUse {test : Row → Symbol → Bool} (h : everyUse test = true) {state : StateId}
    {symbol : Symbol} (hs : state ≠ 0) (hterm : symbol.isTerminal = true)
    (hact : hasActions state symbol = true) :
    ∃ row, rows[state]? = some row ∧ test row symbol = true := by
  have hne : actionsAt state symbol ≠ [] := by
    rw [hasActions, Bool.not_eq_true', List.isEmpty_eq_false_iff] at hact
    exact hact
  obtain ⟨action, hmem⟩ := List.exists_mem_of_ne_nil _ hne
  rw [actionsAt_terminal state hterm] at hmem
  split at hmem
  · rename_i row hrow
    refine ⟨row, ?_, ?_⟩
    · rw [rows, List.getElem?_toArray, ← rowAt_eq]
      exact hrow
    · obtain ⟨group, hg, hsym, -⟩ := mem_group_of_actionsOn hmem
      have htest := of_all_rows h hrow
      simp only [Bool.or_eq_true, beq_iff_eq, hs, false_or, List.all_eq_true] at htest
      exact htest group hg symbol hsym
  · cases hmem

/-! ## Names, numbers and strings -/

/-- The states inside names, numbers and strings, after an escape and after a string. -/
theorem innerStates :
    stateOf lexStates 16 = { accepts := some .identifier, edges := [.go .wordChar 16] } ∧
    (∀ n ∈ [11, 155], stateOf lexStates n = { accepts := some .number, edges := [.go .digit n] }) ∧
    (∀ n ∈ [3, 20, 32], stateOf lexStates n =
      { edges := [.go (.outside [('\x00', '\x00'), ('\n', '\n'), ('"', '"'), ('^', '^')]) 20,
          .go (.one '"') 21, .go (.one '^') 22] }) ∧
    stateOf lexStates 22 = { edges := [.go (.outside [('\x00', '\x00'), ('\n', '\n')]) 32] } ∧
    stateOf lexStates 21 = { accepts := some .string } := by
  decide +kernel

theorem nameState : stateOf lexStates 16 =
    { accepts := some .identifier, edges := [.go .wordChar 16] } :=
  innerStates.1

theorem numberState : ∀ n ∈ [11, 155], stateOf lexStates n =
    { accepts := some .number, edges := [.go .digit n] } :=
  innerStates.2.1

theorem bodyState : ∀ n ∈ [3, 20, 32], stateOf lexStates n =
    { edges := [.go (.outside [('\x00', '\x00'), ('\n', '\n'), ('"', '"'), ('^', '^')]) 20,
        .go (.one '"') 21, .go (.one '^') 22] } :=
  innerStates.2.2.1

theorem escapeState : stateOf lexStates 22 =
    { edges := [.go (.outside [('\x00', '\x00'), ('\n', '\n')]) 32] } :=
  innerStates.2.2.2.1

theorem closedState : stateOf lexStates 21 = { accepts := some .string } :=
  innerStates.2.2.2.2

theorem mem_ascii {c : Char} {symbols : List Char} {p : Char → Bool}
    (hp : ∀ n < 128, p (Char.ofNat n) = true → Char.ofNat n ∈ symbols) (hc : c.toNat < 128)
    (h : p c = true) : c ∈ symbols := by
  have hof : Char.ofNat c.toNat = c := Char.ofNat_toNat c
  have hmem := hp c.toNat hc (by rw [hof]; exact h)
  rwa [hof] at hmem

theorem le_of_inRanges {ranges : List (Char × Char)} {c : Char} {bound : Nat}
    (hb : ∀ range ∈ ranges, range.2.toNat < bound) (h : CharClass.inRanges ranges c = true) :
    c.toNat < bound := by
  obtain ⟨range, hr, hle⟩ := List.any_eq_true.mp h
  rw [Bool.and_eq_true, decide_eq_true_iff, decide_eq_true_iff] at hle
  exact Nat.lt_of_le_of_lt hle.2 (hb range hr)

theorem ascii_classes : ∀ n < 128,
    (CharClass.letter.contains (Char.ofNat n) = true → Char.ofNat n ∈ letters) ∧
    (CharClass.digit.contains (Char.ofNat n) = true → Char.ofNat n ∈ decimals) := by
  decide

theorem mem_letters {c : Char} (h : CharClass.letter.contains c = true) : c ∈ letters :=
  mem_ascii (fun n hn => (ascii_classes n hn).1) (le_of_inRanges (by decide) h) h

theorem mem_decimals {c : Char} (h : CharClass.digit.contains c = true) : c ∈ decimals :=
  mem_ascii (fun n hn => (ascii_classes n hn).2) (le_of_inRanges (by decide) h) h

theorem mem_wordChars {c : Char} (h : CharClass.wordChar.contains c = true) :
    c ∈ letters ++ decimals := by
  have hascii : c.toNat < 128 := le_of_inRanges (by decide) h
  refine mem_ascii (p := CharClass.wordChar.contains) ?_ hascii h
  decide +kernel

theorem head_of_isWord {word : List Char} (h : isWord word = true) :
    word ≠ [] ∧ ∀ c ∈ word.head?, CharClass.wordChar.contains c = true := by
  cases word with
  | nil => cases h
  | cons c word =>
    rw [isWord, Bool.and_eq_true] at h
    refine ⟨List.cons_ne_nil _ _, ?_⟩
    rintro _ ⟨⟩
    have hall : (letters.all CharClass.wordChar.contains) = true := by decide
    exact List.all_eq_true.mp hall c (mem_letters h.1)

theorem walk_of_leadsTo {states : Array LexState} {number target : Nat} {c : Char}
    (h : leadsTo states number c target = true) (rest : List Char) :
    walk states number (c :: rest) = walk states target rest := by
  rw [leadsTo] at h
  rw [walk]
  split at h
  · rename_i edge hedge
    rw [Bool.and_eq_true, beq_iff_eq, Bool.not_eq_true'] at h
    simp only [h.1, h.2, Bool.false_eq_true, ↓reduceIte]
  · cases h

/-- A state whose only edge leads back to itself stays the same along the characters of the edge. -/
theorem walk_loop {states : Array LexState} {number : Nat} {on : CharClass} {accepts : Option Symbol}
    (hs : stateOf states number = { accepts, edges := [.go on number] }) {word : List Char}
    (h : ∀ c ∈ word, on.contains c = true) : walk states number word = some number := by
  induction word with
  | nil => rfl
  | cons c word ih =>
    have hc := h c List.mem_cons_self
    have hlead : leadsTo states number c number = true := by
      simp [leadsTo, hs, LexState.edgeOn, Edge.go, hc]
    rw [walk_of_leadsTo hlead]
    exact ih fun d hd => h d (List.mem_cons_of_mem _ hd)

theorem completes_of_walk {states : Array LexState} {number : Nat} (last : Nat) {symbol : Symbol}
    {word : List Char} (hw : walk states number word = some last)
    (ha : (stateOf states last).accepts = some symbol)
    (he : ((enders symbol).all fun ender => ((stateOf states last).edgeOn ender).isNone) = true) :
    completes states number symbol word = true := by
  rw [completes, hw]
  simp only [ha, he, beq_self_eq_true, Bool.true_and]

/-- A character that is none of some is outside of their ranges. -/
theorem outside_singles {c : Char} {chars : List Char} (h : c ∉ chars) :
    (CharClass.outside (chars.map fun d => (d, d))).contains c = true := by
  rw [CharClass.contains, Bool.not_eq_true', CharClass.inRanges, List.any_eq_false]
  intro range hr hle
  obtain ⟨d, hd, rfl⟩ := List.mem_map.mp hr
  rw [Bool.and_eq_true, decide_eq_true_iff, decide_eq_true_iff] at hle
  exact h (Char.le_antisymm hle.1 hle.2 ▸ hd)

theorem reads_fixed {symbol : Symbol} (h : symbol ∈ punctuation ++ reservedWords) {number : Nat} :
    reads number symbol = completes lexStates number (scanned symbol) symbol.name.toList := by
  have hall : ∀ symbol ∈ punctuation ++ reservedWords,
      symbol ≠ .identifier ∧ symbol ≠ .number ∧ symbol ≠ .string := by
    decide
  obtain ⟨h1, h2, h3⟩ := hall symbol h
  rw [reads, if_neg (by simpa using h1), if_neg (by simpa using h2), if_neg (by simpa using h3)]

/-- Along the body of a string and its quotation mark the automaton comes to the end of the string. -/
theorem walk_body {body : List Char} (h : IsBody body) : ∀ n ∈ [3, 20, 32],
    walk lexStates n (body ++ ['"']) = some 21 := by
  induction h with
  | nil =>
    intro n hn
    have hlead : leadsTo lexStates n '"' 21 = true := by
      rw [leadsTo, bodyState n hn]
      decide
    rw [List.nil_append, walk_of_leadsTo hlead]
    rfl
  | @plain c rest hc _ ih =>
    intro n hn
    have hlead : leadsTo lexStates n c 20 = true := by
      have hout := outside_singles hc
      simp only [List.map_cons, List.map_nil] at hout
      simp [leadsTo, bodyState n hn, LexState.edgeOn, Edge.go, hout]
    rw [List.cons_append, walk_of_leadsTo hlead]
    exact ih 20 (by decide)
  | @escaped c rest hc _ ih =>
    intro n hn
    have hlead : leadsTo lexStates n '^' 22 = true := by
      rw [leadsTo, bodyState n hn]
      decide
    have hlead' : leadsTo lexStates 22 c 32 = true := by
      have hout := outside_singles hc
      simp only [List.map_cons, List.map_nil] at hout
      simp [leadsTo, escapeState, LexState.edgeOn, Edge.go, hout]
    rw [List.cons_append, walk_of_leadsTo hlead, List.cons_append, walk_of_leadsTo hlead']
    exact ih 32 (by decide)

/-- **A word that spells a terminal is walked along wherever the terminal is read.** -/
theorem completes_of_spelled {symbol : Symbol} {word : List Char} (h : Spelled symbol word)
    {number : Nat} (hr : reads number symbol = true) :
    completes lexStates number (scanned symbol) word = true := by
  cases h with
  | fixed hf => exact reads_fixed (List.mem_append_left _ hf) ▸ hr
  | keyword hk => exact reads_fixed (List.mem_append_right _ hk) ▸ hr
  | name hn =>
    obtain ⟨hword, -⟩ := hn
    cases word with
    | nil => cases hword
    | cons c rest =>
      rw [isWord, Bool.and_eq_true] at hword
      have hlead := List.all_eq_true.mp hr c (mem_letters hword.1)
      refine completes_of_walk 16 ?_ (by rw [nameState]; rfl) (by rw [nameState]; decide)
      rw [walk_of_leadsTo hlead]
      exact walk_loop nameState fun d hd => List.all_eq_true.mp hword.2 d hd
  | number hne hd =>
    cases word with
    | nil => exact absurd rfl hne
    | cons c rest =>
      have hlead := List.all_eq_true.mp hr c (mem_decimals (hd c List.mem_cons_self))
      rw [Bool.or_eq_true] at hlead
      have hloop : ∀ n ∈ [11, 155], leadsTo lexStates number c n = true →
          completes lexStates number (scanned .number) (c :: rest) = true := by
        intro n hn hlead
        refine completes_of_walk n ?_ (by rw [numberState n hn]; rfl)
          (by rw [numberState n hn]; rfl)
        rw [walk_of_leadsTo hlead]
        exact walk_loop (numberState n hn) fun d hd' => hd d (List.mem_cons_of_mem _ hd')
      rcases hlead with h | h
      · exact hloop 11 (by decide) h
      · exact hloop 155 (by decide) h
  | string hb =>
    refine completes_of_walk 21 ?_ (by rw [closedState]; rfl) (by rw [closedState]; decide)
    rw [List.cons_append, walk_of_leadsTo hr]
    exact walk_body hb 3 (by decide)

/-! ## Keywords -/

/-- Passing a state replaces the token or leaves it as it is. -/
theorem tokenAt_cases (state : LexState) (position : Extent) (token : Option (Symbol × Extent)) :
    LexState.tokenAt state position token = token ∨ ∃ symbol, state.accepts = some symbol ∧
      LexState.tokenAt state position token = some (symbol, position) := by
  rw [LexState.tokenAt]
  cases ha : state.accepts with
  | none => exact .inl rfl
  | some symbol => exact .inr ⟨symbol, rfl, rfl⟩

/-- In a state that passes over nothing, the token is that of a state on the way. -/
theorem token_runAutomaton {known : List Symbol} {states : Array LexState} (ht : Tested known states)
    (hend : ∀ number, (stateOf states number).atEnd = none) (rest : List Char) (number : Nat)
    (start : Cursor) (token : Option (Symbol × Extent)) (position : Extent)
    (hf : isFresh (stateOf states number) = false) :
    (runAutomaton states number start token position rest).token = token ∨
    ∃ word post last symbol finish, rest = word ++ post ∧ walk states number word = some last ∧
      (stateOf states last).accepts = some symbol ∧ finish.bytes = position.bytes + byteLength word ∧
      (runAutomaton states number start token position rest).token = some (symbol, finish) := by
  induction rest generalizing number token position with
  | nil =>
    have hat := hend number
    have hhere := tokenAt_cases (stateOf states number) position token
    rw [runAutomaton]
    rw [stateOf] at hat hhere
    simp only [hat]
    rcases hhere with h | ⟨symbol, ha, h⟩
    · exact .inl h
    · exact .inr ⟨[], [], number, symbol, position, rfl, rfl, ha, rfl, h⟩
  | cons c rest ih =>
    have hhere := tokenAt_cases (stateOf states number) position token
    cases hedge : (stateOf states number).edgeOn c with
    | none =>
      rw [stateOf] at hedge hhere
      rw [runAutomaton]
      simp only [hedge]
      rcases hhere with h | ⟨symbol, ha, h⟩
      · exact .inl h
      · exact .inr ⟨[], c :: rest, number, symbol, position, rfl, rfl, ha, rfl, h⟩
    | some edge =>
      have hmem : edge ∈ (stateOf states number).edges := List.mem_of_find?_eq_some hedge
      have hskip : edge.skips = false := by
        rw [isFresh, List.any_eq_false] at hf
        simpa using hf edge hmem
      have hnext : isFresh (stateOf states edge.target) = false := by
        have htest := ht number
        simp only [stateTested, Bool.and_eq_true, List.all_eq_true, beq_iff_eq] at htest
        rw [htest.2 edge hmem, hskip]
      have hrun : (runAutomaton states number start token position (c :: rest)).token =
          (runAutomaton states edge.target start
            (LexState.tokenAt (stateOf states number) position token)
            (position + Extent.ofChar c) rest).token := by
        rw [stateOf] at hedge
        rw [runAutomaton]
        simp only [hedge, hskip, Bool.false_eq_true, ↓reduceIte]
        rfl
      have hwalk : ∀ word, walk states number (c :: word) = walk states edge.target word := by
        intro word
        rw [walk, hedge]
        simp only [hskip, Bool.false_eq_true, ↓reduceIte]
      rw [hrun]
      rcases ih edge.target _ (position + Extent.ofChar c) hnext with
        h | ⟨word, post, last, symbol, finish, rfl, hw, ha, hb, h⟩
      · rw [h]
        rcases hhere with h | ⟨symbol, ha, h⟩
        · exact .inl h
        · exact .inr ⟨[], c :: rest, number, symbol, position, rfl, rfl, ha, rfl, h⟩
      · refine .inr ⟨c :: word, post, last, symbol, finish, rfl, (hwalk word).trans hw, ha, ?_, h⟩
        rw [hb, Extent.bytes_add, Extent.bytes_ofChar, byteLength_cons, Nat.add_assoc]

/-- The capital letters. -/
def capitals : List Char := "ABCDEFGHIJKLMNOPQRSTUVWXYZ".toList

/-- From a state of the keyword automaton to which a path of letters led, each way spells the keyword
that is complete at its end. -/
def spellsKeywords : Nat → Nat → List Char → Bool
  | 0, _, _ => false
  | fuel + 1, number, path =>
    ((stateOf keywordAutomaton number).accepts.all fun symbol =>
      reservedWords.contains symbol && symbol.name.toList == path) &&
    (stateOf keywordAutomaton number).edges.all fun edge => edge.skips ||
      capitals.any fun c => edge.on == .letterOf c && spellsKeywords fuel edge.target (path ++ [c])

/-- The automaton of keywords: it spells keywords, no state of it waits for the end of the text,
nothing that begins a word is passed over, and each keyword completes it. -/
theorem keywords_checked : spellsKeywords 10 0 [] = true ∧
    (keywordAutomaton.toList.all (·.atEnd.isNone)) = true ∧
    (stateOf keywordAutomaton 0).accepts = none ∧
    ((stateOf keywordAutomaton 0).edges.all fun edge => !edge.skips ||
      (letters ++ decimals).all (!edge.on.contains ·)) = true ∧
    (reservedWords.all fun symbol =>
      completes keywordAutomaton 0 symbol symbol.name.toList) = true := by
  decide +kernel

theorem atEnd_keywords (number : Nat) : (stateOf keywordAutomaton number).atEnd = none := by
  rw [stateOf]
  cases hs : keywordAutomaton[number]? with
  | none => rfl
  | some state =>
    have hall := List.all_eq_true.mp keywords_checked.2.1 state
      (Array.mem_toList_iff.mpr (Array.mem_of_getElem? hs))
    simpa using hall

theorem toUpper_of_letterOf {capital c : Char} (hc : capital ∈ capitals)
    (h : (CharClass.letterOf capital).contains c = true) : c.toUpper = capital := by
  have hall : (capitals.all fun capital =>
      capital.toUpper == capital && capital.toLower.toUpper == capital) = true := by
    decide
  have hboth := List.all_eq_true.mp hall capital hc
  rw [Bool.and_eq_true, beq_iff_eq, beq_iff_eq] at hboth
  obtain ⟨h1, h2⟩ := hboth
  by_contra hne
  have hout : c ∉ [capital, capital.toLower] := by
    rintro hmem
    simp only [List.mem_cons, List.not_mem_nil, or_false] at hmem
    rcases hmem with rfl | rfl
    · exact hne h1
    · exact hne h2
  have hcontains := outside_singles hout
  rw [CharClass.contains, Bool.not_eq_true'] at hcontains
  rw [CharClass.letterOf, CharClass.contains] at h
  exact Bool.false_ne_true (hcontains.symm.trans h)

/-- A word at whose end a keyword is complete spells the keyword. -/
theorem keyword_of_walk {word : List Char} {fuel number last : Nat} {path : List Char} {symbol : Symbol}
    (hs : spellsKeywords fuel number path = true) (hw : walk keywordAutomaton number word = some last)
    (ha : (stateOf keywordAutomaton last).accepts = some symbol) :
    symbol ∈ reservedWords ∧ path ++ word.map Char.toUpper = symbol.name.toList := by
  induction word generalizing fuel number path with
  | nil =>
    cases hw
    cases fuel with
    | zero => cases hs
    | succ fuel =>
      rw [spellsKeywords, Bool.and_eq_true, ha] at hs
      have hall := hs.1
      simp only [Option.all_some, Bool.and_eq_true, List.contains_iff_mem, beq_iff_eq] at hall
      exact ⟨hall.1, by simp [hall.2]⟩
  | cons c word ih =>
    cases fuel with
    | zero => cases hs
    | succ fuel =>
      rw [walk] at hw
      split at hw
      · rename_i edge hedge
        split at hw
        · cases hw
        · rename_i hskip
          rw [spellsKeywords, Bool.and_eq_true] at hs
          have hedges := List.all_eq_true.mp hs.2 edge (List.mem_of_find?_eq_some hedge)
          rw [Bool.or_eq_true, List.any_eq_true] at hedges
          obtain ⟨capital, hc, hand⟩ := hedges.resolve_left hskip
          rw [Bool.and_eq_true, beq_iff_eq] at hand
          have hon := List.find?_some (p := fun edge : Edge => edge.on.contains c) hedge
          obtain ⟨hmem, heq⟩ := ih hand.2 hw
          refine ⟨hmem, ?_⟩
          rw [← heq, List.map_cons, toUpper_of_letterOf hc (hand.1 ▸ hon), List.append_assoc]
          rfl
      · cases hw

/-- A word is looked up among the keywords from its first letter to its end. -/
theorem keyword_of_scan {word : List Char} (hne : word ≠ [])
    (hword : ∀ c ∈ word.head?, CharClass.wordChar.contains c = true) {start : Cursor}
    {post : List Char} (hrest : start.rest = word ++ post) {symbol : Symbol} {finish : Extent}
    (h : (scan keywordAutomaton 0 start).token = some (symbol, finish))
    (hb : finish.bytes = start.position.bytes + byteLength word) :
    symbol ∈ reservedWords ∧ word.map Char.toUpper = symbol.name.toList := by
  cases word with
  | nil => exact absurd rfl hne
  | cons c word =>
    obtain ⟨hspells, -, hfresh, hskips, -⟩ := keywords_checked
    rw [scan, hrest, List.cons_append, runAutomaton] at h
    cases hedge : (stateOf keywordAutomaton 0).edgeOn c with
    | none =>
      rw [stateOf] at hedge hfresh
      simp only [hedge, LexState.tokenAt, hfresh] at h
      cases h
    | some edge =>
      have hmem : edge ∈ (stateOf keywordAutomaton 0).edges := List.mem_of_find?_eq_some hedge
      have hon := List.find?_some (p := fun edge : Edge => edge.on.contains c) hedge
      have hskip : edge.skips = false := by
        have hedges := List.all_eq_true.mp hskips edge hmem
        rw [Bool.or_eq_true, Bool.not_eq_true', List.all_eq_true] at hedges
        refine hedges.resolve_right fun hall => ?_
        have hout := hall c (mem_wordChars (hword c rfl))
        rw [hon] at hout
        cases hout
      have hnext : isFresh (stateOf keywordAutomaton edge.target) = false := by
        have htest := tested_of_all stateTested_keywords 0
        simp only [stateTested, Bool.and_eq_true, List.all_eq_true, beq_iff_eq] at htest
        rw [htest.2 edge hmem, hskip]
      have hwalk : ∀ rest, walk keywordAutomaton 0 (c :: rest) =
          walk keywordAutomaton edge.target rest := by
        intro rest
        rw [walk, hedge]
        simp only [hskip, Bool.false_eq_true, ↓reduceIte]
      rw [stateOf] at hedge hfresh
      simp only [hedge, hskip, LexState.tokenAt, hfresh, Bool.false_eq_true, ↓reduceIte] at h
      rcases token_runAutomaton (tested_of_all stateTested_keywords) atEnd_keywords (word ++ post)
        edge.target start none (start.position + Extent.ofChar c) hnext with
        hnone | ⟨read, after, last, found, stop, hsplit, hw, ha, hbytes, htoken⟩
      · rw [hnone] at h
        cases h
      · rw [htoken] at h
        cases h
        have hread : word = read := by
          refine eq_of_byteLength hsplit ?_
          rw [hbytes, Extent.bytes_add, Extent.bytes_ofChar, byteLength_cons] at hb
          omega
        subst hread
        exact keyword_of_walk hspells ((hwalk word).trans hw) ha

/-- A word that is no keyword is read as a name. -/
theorem wordSymbol_of_free {word : List Char} (hne : word ≠ [])
    (hhead : ∀ c ∈ word.head?, CharClass.wordChar.contains c = true)
    (hfree : ∀ keyword ∈ reservedWords, word.map Char.toUpper ≠ keyword.name.toList) (state : StateId)
    {start : Cursor} {post : List Char} (hrest : start.rest = word ++ post) {finish : Extent}
    (hb : finish.bytes = start.position.bytes + byteLength word) :
    (wordSymbol state start finish).1 = .identifier := by
  rw [wordSymbol]
  split
  · rfl
  · rename_i keyword stop hscan
    split
    · rename_i hend
      rw [Bool.and_eq_true, beq_iff_eq] at hend
      obtain ⟨hmem, hup⟩ := keyword_of_scan hne hhead hrest hscan (hend.1.trans hb)
      exact absurd hup (hfree keyword hmem)
    · rfl

/-- A keyword is one where it is used. -/
theorem wordSymbol_of_keyword {symbol : Symbol} (h : symbol ∈ reservedWords) {state : StateId}
    (hact : hasActions state symbol = true) {start : Cursor} {ender : Char}
    (hender : ender ∈ enders symbol) {post : List Char}
    (hrest : start.rest = symbol.name.toList ++ ender :: post) {finish : Extent}
    (hb : finish.bytes = start.position.bytes + byteLength symbol.name.toList) :
    (wordSymbol state start finish).1 = symbol := by
  obtain ⟨last, hw, ha, he⟩ := exists_of_completes (List.all_eq_true.mp keywords_checked.2.2.2.2 symbol h)
  obtain ⟨stop, -, htoken, hstop⟩ := runAutomaton_walk post hw ha (he ender hender) start none start.position
  rw [wordSymbol, scan, hrest, htoken]
  simp [hstop, hb, hact]

/-! ## Tokens -/

theorem accepts_of_skips {number : Nat} {c : Char} (h : skips lexStates number c = true) :
    (stateOf lexStates number).accepts = none := by
  have htest := tested_of_all stateTested_lexStates number
  simp only [stateTested, Bool.and_eq_true, Bool.or_eq_true, Bool.not_eq_true'] at htest
  have hfresh : isFresh (stateOf lexStates number) = true := by
    rw [skips] at h
    split at h
    · rename_i edge hedge
      rw [Bool.and_eq_true] at h
      exact List.any_eq_true.mpr ⟨edge, List.mem_of_find?_eq_some hedge, h.1⟩
    · cases h
  have hnone := htest.1.1.2.resolve_left (by simp [hfresh])
  simpa using hnone

theorem blank_mem_enders (symbol : Symbol) : ' ' ∈ enders symbol := by
  cases symbol <;> decide

theorem enders_scanned {symbol : Symbol} {ender : Char} (h : ender ∈ enders symbol) :
    ender ∈ enders (scanned symbol) := by
  have htwice : scanned (scanned symbol) = scanned symbol := by
    by_cases hs : symbol ∈ reservedWords
    · rw [show scanned symbol = .identifier from if_pos hs]
      decide
    · have hsame : scanned symbol = symbol := if_neg hs
      rw [hsame, hsame]
  rwa [enders, htwice]

theorem spellable_terminal : ∀ symbol ∈ spellable, symbol.isTerminal = true := by
  decide

theorem Spelled.spellable {symbol : Symbol} {word : List Char} (h : Spelled symbol word) :
    symbol ∈ Lex.spellable := by
  cases h with
  | fixed hf => exact List.mem_append_left _ (List.mem_append_right _ hf)
  | keyword hk => exact List.mem_append_right _ hk
  | name | number | string => decide

/-- The symbol of a scanned word is what the word spells. -/
theorem symbol_of_spelled {symbol : Symbol} {word : List Char} (h : Spelled symbol word)
    {state : StateId} (hact : hasActions state symbol = true) (start : Cursor) {ender : Char}
    (hender : ender ∈ enders symbol) {post : List Char} (hrest : start.rest = word ++ ender :: post)
    (finish : Extent)
    (hb : finish.bytes = start.position.bytes + byteLength word) :
    (if scanned symbol == .identifier then (wordSymbol state start finish).1 else scanned symbol) =
      symbol := by
  cases h with
  | fixed hf =>
    have hall : ∀ symbol ∈ punctuation, scanned symbol = symbol ∧ symbol ≠ .identifier := by
      decide
    obtain ⟨h1, h2⟩ := hall symbol hf
    rw [h1, if_neg (by simpa using h2)]
  | keyword hk =>
    rw [scanned, if_pos hk, if_pos (by rfl)]
    exact wordSymbol_of_keyword hk hact hender hrest hb
  | name hn =>
    rw [if_pos (by decide)]
    obtain ⟨hne, hhead⟩ := head_of_isWord hn.1
    exact wordSymbol_of_free hne hhead hn.2 state hrest hb
  | number | string => rfl

/-- A word after a gap is read as what it completes. -/
theorem nextToken_of_completes {state : StateId} {row : Row} (hrow : rows[state]? = some row)
    (hdoc : row.docBody = none) (hblank : skips lexStates row.lexStart ' ' = true) {symbol : Symbol}
    {word : List Char} (hc : completes lexStates row.lexStart (scanned symbol) word = true)
    {source : Source} {position : Extent} {gap : List Char} (hgap : IsGap gap) {ender : Char}
    (hender : ender ∈ enders symbol) {post : List Char}
    (hrest : (source.cursorAt position).rest = gap ++ (word ++ ender :: post))
    (hsymbol : ∀ (start : Cursor) (finish : Extent), start.rest = word ++ ender :: post →
      finish.bytes = start.position.bytes + byteLength word →
      (if scanned symbol == .identifier then (wordSymbol state start finish).1 else scanned symbol) =
        symbol) :
    (nextToken source state position).symbol = symbol ∧
      (nextToken source state position).padding.bytes = byteLength gap ∧
      (nextToken source state position).size.bytes = byteLength word := by
  obtain ⟨finish, hstart, htoken, hfinish⟩ := scan_of_completes hgap (enders_scanned hender) post hblank
    (accepts_of_skips hblank) hc (source.cursorAt position) hrest
  have hbody : docBodyAt state = none := by rw [docBodyAt, hrow]; exact hdoc
  have hlex : lexStartAt state = row.lexStart := by rw [lexStartAt, hrow]; rfl
  have hread : nextToken source state position = Token.ofScan state position
      ⟨word ++ ender :: post, position + Extent.of gap⟩ (scanned symbol) finish := by
    rw [nextToken]
    simp only [hbody, hlex, Option.bind_none, htoken, hstart]
    rfl
  have hgaps : (position + Extent.of gap).bytes = position.bytes + byteLength gap := by
    rw [Extent.bytes_add, Extent.bytes_of]
  have hf : finish.bytes = position.bytes + byteLength gap + byteLength word := hfinish
  rw [hread, Token.ofScan]
  refine ⟨?_, ?_, ?_⟩
  · have hsymbol := hsymbol ⟨word ++ ender :: post, position + Extent.of gap⟩ finish rfl
      (by rw [hgaps]; exact hf)
    split at hsymbol <;> rename_i hid
    · rw [if_pos hid]
      exact hsymbol
    · rw [if_neg hid]
      exact hsymbol
  · show (position + Extent.of gap).bytes - position.bytes = byteLength gap
    omega
  · show finish.bytes - (position + Extent.of gap).bytes = byteLength word
    omega

theorem everyUse_afterBlank :
    everyUse (fun row symbol => readsAfterBlank row symbol && endsAfterBlank row symbol) = true := by
  decide +kernel

/-- **A word after a gap is read as what it spells**, in every state that has a use for it. -/
theorem nextToken_of_spelled {symbol : Symbol} {word : List Char} (h : Spelled symbol word)
    {state : StateId} (hs : state ≠ 0) (hact : hasActions state symbol = true) {source : Source}
    {position : Extent} {gap : List Char} (hgap : IsGap gap) {ender : Char} (hender : ender ∈ enders symbol)
    {post : List Char} (hrest : (source.cursorAt position).rest = gap ++ (word ++ ender :: post)) :
    (nextToken source state position).symbol = symbol ∧
      (nextToken source state position).padding.bytes = byteLength gap ∧
      (nextToken source state position).size.bytes = byteLength word := by
  obtain ⟨row, hrow, hboth⟩ := of_everyUse everyUse_afterBlank hs
    (spellable_terminal symbol h.spellable) hact
  have hreads := (Bool.and_eq_true_iff.mp hboth).1
  rw [readsAfterBlank, Bool.or_eq_true, Bool.and_eq_true, Bool.and_eq_true,
    Option.isNone_iff_eq_none] at hreads
  obtain ⟨⟨hdoc, hblank⟩, hread⟩ := hreads.resolve_left (by simpa using h.spellable)
  exact nextToken_of_completes hrow hdoc hblank (completes_of_spelled h hread) hgap hender hrest
    fun start finish hstart hb => symbol_of_spelled h hact start hender hstart finish hb

/-- **After a last blank the end of the text is read.** -/
theorem nextToken_at_end {state : StateId} (hs : state ≠ 0)
    (hact : hasActions state .endOfInput = true) {source : Source} {position : Extent} {blank : Char}
    (hb : blank = ' ' ∨ blank = '\n') (hrest : (source.cursorAt position).rest = [blank]) :
    (nextToken source state position).symbol = .endOfInput := by
  obtain ⟨row, hrow, hboth⟩ := of_everyUse everyUse_afterBlank hs rfl hact
  have hends := (Bool.and_eq_true_iff.mp hboth).2
  rw [endsAfterBlank, Bool.or_eq_true, Bool.and_eq_true, Bool.and_eq_true, Bool.and_eq_true,
    Option.isNone_iff_eq_none] at hends
  obtain ⟨⟨hdoc, hspace, hline⟩, hend⟩ := hends.resolve_left (by decide)
  obtain ⟨target, htarget, haccepts⟩ := (Option.any_eq_true ..).mp hend
  have hbody : docBodyAt state = none := by rw [docBodyAt, hrow]; exact hdoc
  have hlex : lexStartAt state = row.lexStart := by rw [lexStartAt, hrow]; rfl
  have hskips : skips lexStates row.lexStart blank = true := by
    rcases hb with rfl | rfl
    · exact hspace
    · exact hline
  have htoken : ∃ finish, (scan lexStates row.lexStart (source.cursorAt position)).token =
      some (.endOfInput, finish) := by
    rw [scan, hrest, runAutomaton_blank hskips (accepts_of_skips hspace), runAutomaton]
    rw [stateOf] at htarget haccepts
    simp only [htarget, LexState.tokenAt]
    rw [beq_iff_eq] at haccepts
    rw [haccepts]
    exact ⟨_, rfl⟩
  obtain ⟨finish, htoken⟩ := htoken
  rw [nextToken]
  simp only [hbody, hlex, Option.bind_none, htoken]
  rfl

end Cicode.Lex
