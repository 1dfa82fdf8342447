import Cicode.Proofs.Lex.Names

/-!
# Texts that read as rows of words

A text reads as a row of words (`ReadsRow`) if each word stands after a blank or directly after the one
before it, and is ended by what comes next.  After the terminals that a name must follow a name may begin
with a digit.

Main statement (`LeavesRow.at_word`): where such a text is left to be read, the next token is the next word,
in every state that has a use for it.
-/

namespace Cicode.Lex

open Grammar Text

/-! ## Names that begin with a digit -/

/-- Terminals after which no number is read, so that a name may begin with a digit. -/
def heralds : List Symbol :=
  [.kwFunction, .kwInt, .kwString, .kwReal, .kwQuality, .kwTimestamp, .kwBool, .kwObject, .kwLong]

/-- Whether each character of a word begins a name after a blank. -/
def namesRead (state : StateId) : Bool :=
  match rowAt state with
  | some row => row.docBody.isNone && skips lexStates row.lexStart ' ' &&
    (letters ++ decimals).all (leadsTo lexStates row.lexStart · nameNumber)
  | none => false

theorem namesRead_rows : (rowList.zipIdx.all fun q => q.1.arrows.all fun arrow =>
    !heralds.contains arrow.1 || namesRead arrow.2) = true := by
  decide +kernel

theorem namesRead_of_herald {source state : StateId} {symbol : Symbol} (h : Arrow source symbol state)
    (hs : symbol ∈ heralds) : namesRead state = true := by
  obtain ⟨row, hrow, hmem⟩ := h
  have htest := List.all_eq_true.mp (of_all_rows namesRead_rows hrow) _ hmem
  rw [Bool.or_eq_true, Bool.not_eq_true'] at htest
  refine htest.resolve_left fun hnot => ?_
  rw [List.contains_iff_mem.mpr hs] at hnot
  cases hnot

/-- Letters, digits and underscores complete a name. -/
theorem completes_of_isIdentifier {word : List Char} (h : IsIdentifier word) {number : Nat}
    (hread : (letters ++ decimals).all (leadsTo lexStates number · nameNumber) = true) :
    completes lexStates number .identifier word = true := by
  obtain ⟨hne, hchars, -⟩ := h
  cases word with
  | nil => exact absurd rfl hne
  | cons c rest =>
    obtain ⟨hc, hrest⟩ := List.forall_mem_cons.mp hchars
    refine completes_of_walk nameNumber ?_ (by rw [nameNumber, nameState])
      (by rw [nameNumber, nameState]; decide)
    rw [walk_of_leadsTo (List.all_eq_true.mp hread c (mem_wordChars hc))]
    exact walk_loop nameState hrest

/-- After a herald every word that is no keyword is read as a name. -/
theorem nextToken_of_isIdentifier {word : List Char} (h : IsIdentifier word) {earlier state : StateId}
    {herald : Symbol} (harrow : Arrow earlier herald state) (hs : herald ∈ heralds) {source : Source}
    {position : Extent} {gap : List Char} (hgap : IsGap gap) {ender : Char}
    (hender : ender ∈ enders .identifier) {post : List Char}
    (hrest : (source.cursorAt position).rest = gap ++ (word ++ ender :: post)) :
    (nextToken source state position).symbol = .identifier ∧
      (nextToken source state position).padding.bytes = byteLength gap ∧
      (nextToken source state position).size.bytes = byteLength word := by
  have htest := namesRead_of_herald harrow hs
  rw [namesRead] at htest
  split at htest
  · rename_i row hrow
    rw [Bool.and_eq_true, Bool.and_eq_true, Option.isNone_iff_eq_none] at htest
    obtain ⟨⟨hdoc, hblank⟩, hread⟩ := htest
    have hrow' : rows[state]? = some row := by
      rw [rows, List.getElem?_toArray, ← rowAt_eq]
      exact hrow
    have hc : completes lexStates row.lexStart (scanned .identifier) word = true :=
      completes_of_isIdentifier h hread
    refine nextToken_of_completes hrow' hdoc hblank hc hgap hender hrest ?_
    intro start finish hstart hb
    rw [if_pos (by decide)]
    exact wordSymbol_of_free h.nonempty (fun c hc => h.chars c (List.mem_of_mem_head? hc)) h.free state
      hstart hb
  · cases htest

/-! ## Rows of words -/

/-- The words that are read as a terminal after another one. -/
inductive SpelledAfter : Option Symbol → Symbol → List Char → Prop
  | always {before : Option Symbol} {symbol : Symbol} {word : List Char} : Spelled symbol word →
      SpelledAfter before symbol word
  | name {before : Symbol} {word : List Char} : before ∈ heralds → IsIdentifier word →
      SpelledAfter (some before) .identifier word

theorem SpelledAfter.terminal {before : Option Symbol} {symbol : Symbol} {word : List Char}
    (h : SpelledAfter before symbol word) : symbol.isTerminal = true := by
  cases h with
  | always hs => exact spellable_terminal symbol hs.spellable
  | name => rfl

/-- The text reads as a row of words after a terminal, or at the beginning. -/
inductive ReadsRow : Option Symbol → List Char → List (Symbol × List Char) → Prop
  | done {before : Option Symbol} {blank : Char} : blank = ' ' ∨ blank = '\n' → ReadsRow before [blank] []
  | word {before : Option Symbol} {symbol : Symbol} {gap word post : List Char} {ender : Char}
      {words : List (Symbol × List Char)} : SpelledAfter before symbol word → IsGap gap →
      ender ∈ enders symbol → ReadsRow (some symbol) (ender :: post) words →
      ReadsRow before (gap ++ (word ++ ender :: post)) ((symbol, word) :: words)

/-- What comes after a word of the terminal ends it. -/
def Ends (symbol : Symbol) (text : List Char) : Prop := ∃ ender ∈ enders symbol, text.head? = some ender

theorem ReadsRow.cons {before : Option Symbol} {symbol : Symbol} {gap word text : List Char}
    {words : List (Symbol × List Char)} (hs : SpelledAfter before symbol word) (hgap : IsGap gap)
    (hends : Ends symbol text) (h : ReadsRow (some symbol) text words) :
    ReadsRow before (gap ++ (word ++ text)) ((symbol, word) :: words) := by
  obtain ⟨ender, hender, hhead⟩ := hends
  obtain ⟨post, rfl⟩ := List.head?_eq_some_iff.mp hhead
  exact .word hs hgap hender h

/-- The terminal has led to the state, or the state is the initial one. -/
def LedTo (before : Option Symbol) (state : StateId) : Prop :=
  ∀ symbol ∈ before, ∃ source, Arrow source symbol state

/-- What is left of a text reads as a row of words. -/
def LeavesRow (before : Option Symbol) (chars : List Char) (bytes : Nat) (words : List (Symbol × List Char)) :
    Prop :=
  ∃ pre post, chars = pre ++ post ∧ bytes = byteLength pre ∧ ReadsRow before post words

section

variable {before : Option Symbol} {chars : List Char} {position : Extent}
  {words : List (Symbol × List Char)} {state : StateId}

/-- After the last word the end of the text is read. -/
theorem LeavesRow.at_end (h : LeavesRow before chars position.bytes []) (hs : state ≠ 0)
    (hact : hasActions state .endOfInput = true) :
    (nextToken (.ofList chars) state position).symbol = .endOfInput := by
  obtain ⟨pre, post, rfl, hbytes, hrow⟩ := h
  cases hrow with
  | done hblank => exact nextToken_at_end hs hact hblank (rest_cursorAt pre _ hbytes)

/-- What is known of the token that reads a word, and of what is left behind it. -/
structure ReadsWord (chars : List Char) (position : Extent) (token : Token) (symbol : Symbol)
    (word : List Char) (words : List (Symbol × List Char)) : Prop where
  symbol_eq : token.symbol = symbol
  slice_eq : (Source.ofList chars).slice (position + token.padding)
    (position + token.padding + token.size) = word
  leaves : LeavesRow (some symbol) chars (position + (token.padding + token.size)).bytes words

/-- **The next word is the next token**, in every state that has a use for it. -/
theorem LeavesRow.at_word {symbol : Symbol} {word : List Char}
    (h : LeavesRow before chars position.bytes ((symbol, word) :: words)) (hs : state ≠ 0)
    (he : LedTo before state) (hact : hasActions state symbol = true) :
    ReadsWord chars position (nextToken (.ofList chars) state position) symbol word words := by
  obtain ⟨pre, post, rfl, hbytes, hrow⟩ := h
  generalize htext : post = text at hrow
  cases hrow with
  | @word _ _ gap _ rest ender _ hspelled hgap hender hrow =>
    subst htext
    have hrest := rest_cursorAt pre (gap ++ (word ++ ender :: rest)) hbytes
    have hread : (nextToken (.ofList (pre ++ (gap ++ (word ++ ender :: rest)))) state position).symbol =
          symbol ∧
        (nextToken (.ofList (pre ++ (gap ++ (word ++ ender :: rest)))) state position).padding.bytes =
          byteLength gap ∧
        (nextToken (.ofList (pre ++ (gap ++ (word ++ ender :: rest)))) state position).size.bytes =
          byteLength word := by
      cases hspelled with
      | always hspelled => exact nextToken_of_spelled hspelled hs hact hgap hender hrest
      | name hherald hname =>
        obtain ⟨earlier, harrow⟩ := he _ rfl
        exact nextToken_of_isIdentifier hname harrow hherald hgap hender hrest
    obtain ⟨hsymbol, hpadding, hsize⟩ := hread
    generalize nextToken (.ofList (pre ++ (gap ++ (word ++ ender :: rest)))) state position = token at *
    refine ⟨hsymbol, ?_, pre ++ (gap ++ word), ender :: rest, by simp, ?_, hrow⟩
    · rw [← List.append_assoc]
      refine slice_of_bytes ?_ ?_
      · rw [Extent.bytes_add, hpadding, hbytes, byteLength_append]
      · rw [Extent.bytes_add, Extent.bytes_add, hpadding, hsize, hbytes, byteLength_append]
    · rw [Extent.bytes_add, Extent.bytes_add, hpadding, hsize, hbytes, byteLength_append, byteLength_append]

end

end Cicode.Lex
