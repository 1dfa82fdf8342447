import Cicode.Proofs.Lex.Places
import Cicode.Proofs.Lex.Words

/-!
# The case of keywords

Two texts are *recased* (`Recased`) if they agree but for the case of letters in keywords.  A keyword is
a whole word: neither before it nor after it stands a letter, a digit or an underscore.

The automata are run on both texts side by side.  The keyword automaton takes both cases of a letter the
same way in every state.  So do most states of the lexical automaton (`caseless`); the others read the
names of documentation tags.  The closing tags are out of reach in a text without `</`.  An opening tag
begins after a `<`, and no keyword is the name of a tag: at the end of a keyword all runs that began
there are in states that go on alike with everything that is no letter, digit or underscore
(`keywordSafe`).

Main statement (`nextToken_recased`): in every state and at every position the same token is read in both
texts.
-/

namespace Cicode.Lex

open Grammar Text

/-! ## Recased texts -/

/-- A letter, a digit or an underscore. -/
def isWordChar (c : Char) : Bool := CharClass.wordChar.contains c

/-- The texts agree but for the case of the letters of keywords.  The flag says whether a letter, digit
or underscore stands before them. -/
inductive Recased : Bool → List Char → List Char → Prop
  | nil {inside : Bool} : Recased inside [] []
  | same {inside : Bool} {c : Char} {a b : List Char} :
      Recased (isWordChar c) a b → Recased inside (c :: a) (c :: b)
  | keyword {keyword : Symbol} {word word' a b : List Char} : keyword ∈ reservedWords →
      word.map Char.toUpper = keyword.name.toList → word'.map Char.toUpper = keyword.name.toList →
      (∀ c ∈ a.head?, isWordChar c = false) → Recased true a b →
      Recased false (word ++ a) (word' ++ b)

/-- What follows a position in recased texts; the position may be inside a keyword. -/
inductive RecasedTail : List Char → List Char → Prop
  | between {inside : Bool} {a b : List Char} : Recased inside a b → RecasedTail a b
  | within {word word' a b : List Char} : word.map Char.toUpper = word'.map Char.toUpper →
      (∀ c ∈ word, c.toUpper ∈ capitals) → (∀ c ∈ a.head?, isWordChar c = false) →
      Recased true a b → RecasedTail (word ++ a) (word' ++ b)

/-- The characters are the same but for their case. -/
abbrev SameLetter (c d : Char) : Prop := c.toUpper = d.toUpper

/-- The small letters. -/
def smalls : List Char := "abcdefghijklmnopqrstuvwxyz".toList

theorem ascii_smalls : ∀ n < 128, CharClass.inRanges [('a', 'z')] (Char.ofNat n) = true →
    Char.ofNat n ∈ smalls := by
  decide

theorem toUpper_eq_self_or (c : Char) : c.toUpper = c ∨ c ∈ smalls := by
  by_cases h : 'a'.val ≤ c.val ∧ c.val ≤ 'z'.val
  · have hrange : CharClass.inRanges [('a', 'z')] c = true := by
      simpa [CharClass.inRanges, Char.le_def] using h
    have hascii : c.toNat < 128 := le_of_inRanges (by decide) hrange
    exact .inr (mem_ascii ascii_smalls hascii hrange)
  · refine .inl ?_
    rw [Char.toUpper, dif_neg h]

theorem smalls_checked : (smalls.all fun c => isWordChar c && isWordChar c.toUpper &&
    Extent.ofChar c.toUpper == Extent.ofChar c && capitals.contains c.toUpper &&
    c.toUpper.toLower == c) = true := by
  decide

/-- What is known of a small letter and its capital. -/
structure IsSmall (c : Char) : Prop where
  word : isWordChar c.toUpper = isWordChar c
  extent : Extent.ofChar c.toUpper = Extent.ofChar c
  capital : c.toUpper ∈ capitals
  small : c.toUpper.toLower = c

theorem isSmall_of_mem {c : Char} (h : c ∈ smalls) : IsSmall c := by
  have htest := List.all_eq_true.mp smalls_checked c h
  simp only [Bool.and_eq_true, beq_iff_eq, List.contains_iff_mem] at htest
  obtain ⟨⟨⟨⟨h1, h2⟩, h3⟩, h4⟩, h5⟩ := htest
  exact ⟨h2.trans h1.symm, h3, h4, h5⟩

/-- The case of a letter makes no difference to its extent, and to its being one. -/
theorem toUpper_kept (c : Char) : Extent.ofChar c.toUpper = Extent.ofChar c ∧
    isWordChar c.toUpper = isWordChar c := by
  rcases toUpper_eq_self_or c with h | h
  · rw [h]
    exact ⟨rfl, rfl⟩
  · exact ⟨(isSmall_of_mem h).extent, (isSmall_of_mem h).word⟩

theorem SameLetter.extent_eq {c d : Char} (h : SameLetter c d) : Extent.ofChar c = Extent.ofChar d := by
  rw [← (toUpper_kept c).1, ← (toUpper_kept d).1, h]

theorem extent_of_sameLetters {a b : List Char} (h : List.Forall₂ SameLetter a b) :
    Extent.of a = Extent.of b := by
  induction h with
  | nil => rfl
  | cons hcd _ ih => rw [Extent.of_cons, Extent.of_cons, hcd.extent_eq, ih]

/-- Letters that differ in case only are the two cases of a letter. -/
theorem SameLetter.eq_or {c d : Char} (h : SameLetter c d) :
    c = d ∨ ∃ capital ∈ capitals, c ∈ [capital, capital.toLower] ∧ d ∈ [capital, capital.toLower] := by
  rcases toUpper_eq_self_or c with hc | hc <;> rcases toUpper_eq_self_or d with hd | hd
  · exact .inl (hc.symm.trans (h.trans hd))
  · have hsmall := isSmall_of_mem hd
    exact .inr ⟨d.toUpper, hsmall.capital, by simp [hc.symm.trans h], by simp [hsmall.small]⟩
  · have hsmall := isSmall_of_mem hc
    exact .inr ⟨c.toUpper, hsmall.capital, by simp [hsmall.small], by simp [hd.symm.trans h.symm]⟩
  · exact .inr ⟨c.toUpper, (isSmall_of_mem hc).capital, by simp [(isSmall_of_mem hc).small],
      by simp [h, (isSmall_of_mem hd).small]⟩

/-! ## Two runs side by side -/

/-- The edges lead the same way, to states that are related. -/
inductive SameWay (R : Nat → Nat → Prop) : Option Edge → Option Edge → Prop
  | stop : SameWay R none none
  | go {e e' : Edge} : e.skips = e'.skips → R e.target e'.target → SameWay R (some e) (some e')

/-- States on two texts correspond, as long as the automaton goes on: they complete the same token, and
lead on to states that correspond.  `Q` holds of the texts. -/
structure Simulates (states : Array LexState) (R : List Char → List Char → Nat → Nat → Prop)
    (Q : List Char → List Char → Prop) : Prop where
  rests : ∀ {a b s t}, R a b s t → Q a b
  accepts : ∀ {a b s t}, R a b s t → (stateOf states s).accepts = (stateOf states t).accepts
  ends : ∀ {b s t}, R [] b s t → b = [] ∧ (stateOf states s).atEnd = (stateOf states t).atEnd
  step : ∀ {c a b s t}, R (c :: a) b s t → ∃ d b', b = d :: b' ∧
    Extent.ofChar c = Extent.ofChar d ∧
    SameWay (R a b') ((stateOf states s).edgeOn c) ((stateOf states t).edgeOn d)

/-- The cursors are at the same position, in corresponding texts. -/
structure Cursor.Alike (Q : List Char → List Char → Prop) (x y : Cursor) : Prop where
  position : x.position = y.position
  rest : Q x.rest y.rest

/-- The outcomes are the same, in corresponding texts. -/
structure Scan.Alike (Q : List Char → List Char → Prop) (x y : Scan) : Prop where
  start : x.start.Alike Q y.start
  token : x.token = y.token
  stop : x.stop.Alike Q y.stop

theorem tokenAt_congr {state state' : LexState} (h : state.accepts = state'.accepts)
    (position : Extent) (token : Option (Symbol × Extent)) :
    LexState.tokenAt state position token = LexState.tokenAt state' position token := by
  rw [LexState.tokenAt, LexState.tokenAt, h]

/-- **Runs that correspond have the same outcome.** -/
theorem Simulates.run {states : Array LexState} {R : List Char → List Char → Nat → Nat → Prop}
    {Q : List Char → List Char → Prop} (h : Simulates states R Q) {a b : List Char} {s t : Nat}
    (hr : R a b s t) {start start' : Cursor} (hstart : start.Alike Q start')
    (token : Option (Symbol × Extent)) (position : Extent) :
    (runAutomaton states s start token position a).Alike Q
      (runAutomaton states t start' token position b) := by
  induction a generalizing b s t start start' token position with
  | nil =>
    have hq := h.rests hr
    have hhere := tokenAt_congr (h.accepts hr) position token
    obtain ⟨rfl, hend⟩ := h.ends hr
    rw [stateOf, stateOf] at hend hhere
    rw [runAutomaton, runAutomaton]
    simp only [hend, hhere]
    exact ⟨hstart, rfl, rfl, hq⟩
  | cons c a ih =>
    have hq := h.rests hr
    have hhere := tokenAt_congr (h.accepts hr) position token
    obtain ⟨d, b', rfl, hextent, hway⟩ := h.step hr
    rw [stateOf, stateOf] at hway hhere
    rw [runAutomaton, runAutomaton]
    cases he : (states[s]?.getD {}).edgeOn c with
    | none =>
      rw [he] at hway
      cases he' : (states[t]?.getD {}).edgeOn d with
      | none => exact ⟨hstart, hhere, rfl, hq⟩
      | some => rw [he'] at hway; cases hway
    | some e =>
      rw [he] at hway
      cases he' : (states[t]?.getD {}).edgeOn d with
      | none => rw [he'] at hway; cases hway
      | some e' =>
        rw [he'] at hway
        cases hway with
        | go hskips hnext =>
          simp only [hhere, hextent, hskips]
          refine ih hnext ?_ _ _
          split
          · exact ⟨rfl, h.rests hnext⟩
          · exact hstart

/-! ## The keyword automaton -/

/-- The edges lead the same way. -/
def sameWay : Option Edge → Option Edge → Bool
  | none, none => true
  | some e, some e' => e.target == e'.target && e.skips == e'.skips
  | _, _ => false

/-- The state takes both cases of every letter the same way. -/
def caseless (state : LexState) : Bool :=
  capitals.all fun c => sameWay (state.edgeOn c) (state.edgeOn c.toLower)

theorem sameWay_refl (edge : Option Edge) : sameWay edge edge = true := by
  cases edge <;> simp [sameWay]

theorem sameWay_symm {edge edge' : Option Edge} (h : sameWay edge edge' = true) :
    sameWay edge' edge = true := by
  cases edge <;> cases edge' <;> simp_all [sameWay]

/-- A state that takes both cases the same way does not tell apart what differs in case only. -/
theorem sameWay_of_caseless {state : LexState} (h : caseless state = true) {c d : Char}
    (hcd : SameLetter c d) : sameWay (state.edgeOn c) (state.edgeOn d) = true := by
  rcases hcd.eq_or with rfl | ⟨capital, hmem, hc, hd⟩
  · exact sameWay_refl _
  · have hboth := List.all_eq_true.mp h capital hmem
    simp only [List.mem_cons, List.not_mem_nil, or_false] at hc hd
    rcases hc with rfl | rfl <;> rcases hd with rfl | rfl
    · exact sameWay_refl _
    · exact hboth
    · exact sameWay_symm hboth
    · exact sameWay_refl _

theorem SameWay.of_eq {R : Nat → Nat → Prop} {edge edge' : Option Edge} (h : sameWay edge edge' = true)
    (hr : ∀ e ∈ edge, R e.target e.target) : SameWay R edge edge' := by
  cases edge with
  | none =>
    cases edge' with
    | none => exact .stop
    | some => cases h
  | some e =>
    cases edge' with
    | none => cases h
    | some e' =>
      simp only [sameWay, Bool.and_eq_true, beq_iff_eq] at h
      exact .go h.2 (h.1 ▸ hr e rfl)

theorem caseless_keywords : (keywordAutomaton.toList.all caseless) = true := by
  decide +kernel

theorem caseless_keyword (number : Nat) : caseless (stateOf keywordAutomaton number) = true := by
  rw [stateOf]
  cases hs : keywordAutomaton[number]? with
  | none => decide
  | some state =>
    exact List.all_eq_true.mp caseless_keywords state
      (Array.mem_toList_iff.mpr (Array.mem_of_getElem? hs))

/-- The keyword automaton does not tell apart what differs in case only. -/
theorem simulates_keywords : Simulates keywordAutomaton
    (fun a b s t => s = t ∧ List.Forall₂ SameLetter a b) (List.Forall₂ SameLetter) where
  rests h := h.2
  accepts := by
    rintro a b s _ ⟨rfl, -⟩
    rfl
  ends := by
    rintro b s _ ⟨rfl, h⟩
    cases h
    exact ⟨rfl, rfl⟩
  step := by
    rintro c a b s _ ⟨rfl, h⟩
    cases h with
    | @cons _ d _ b' hcd hrest =>
      refine ⟨d, b', rfl, hcd.extent_eq, .of_eq (sameWay_of_caseless (caseless_keyword s) hcd) ?_⟩
      exact fun _ _ => ⟨rfl, hrest⟩

/-! ## The lexical automaton -/

/-- The states that read the names of documentation tags.  All others take both cases of a letter the
same way. -/
def tagStates : List Nat :=
  [19, 25, 29, 30, 31, 37, 38, 39, 40, 41, 42, 43, 46, 47, 48, 49, 50, 51, 52, 53, 54, 57, 58, 59, 60,
    61, 62, 63, 64, 65, 66, 67, 68, 69, 70, 71, 73, 74, 75, 76, 77, 79, 80, 83, 84, 86, 87, 89, 90, 96,
    97, 119, 122, 125]

/-- The states at which the name of an opening tag begins, after its `<`. -/
def tagStarts : List Nat := [19, 37]

/-- The states after a `<` that a `/` leads to the name of a closing tag. -/
def closingStarts : List Nat := [13, 118, 121, 124]

/-- The edge is taken on a single letter, digit or underscore. -/
def isNameEdge (edge : Edge) : Bool :=
  match edge.on with
  | .one c => isWordChar c
  | _ => false

/-- What is tested of an edge: inside the name of a tag one gets only from its beginning, to the
beginning by a `<`, and to a closing tag by a `<` and a `/`. -/
def edgeTested (number : Nat) (edge : Edge) : Bool :=
  (!tagStates.contains edge.target || tagStates.contains number && isNameEdge edge ||
    tagStarts.contains edge.target && edge.on == .one '<' ||
    closingStarts.contains number && edge.on == .one '/') &&
  (!closingStarts.contains edge.target || edge.on == .one '<')

theorem case_tested : (lexStates.toList.zipIdx.all fun q =>
      (tagStates.contains q.2 || caseless q.1) && q.1.edges.all (edgeTested q.2)) = true ∧
    ((0 :: rowList.map Row.lexStart).all fun number =>
      !tagStates.contains number && !closingStarts.contains number) = true := by
  decide +kernel

theorem caseTested_lexStates : (lexStates.toList.zipIdx.all fun q =>
    (tagStates.contains q.2 || caseless q.1) && q.1.edges.all (edgeTested q.2)) = true :=
  case_tested.1

/-- Reading begins outside of tags. -/
theorem caseTested_rows : ((0 :: rowList.map Row.lexStart).all fun number =>
    !tagStates.contains number && !closingStarts.contains number) = true :=
  case_tested.2

/-- The state with which a state inside a comment goes on, whatever comes next but a letter, digit or
underscore. -/
def restOfComment? (state : LexState) : Option Nat :=
  match state.edges with
  | ⟨.outside (('\x00', '\x00') :: ('\n', '\n') :: names), target, false⟩ :: others =>
    if state.accepts == some .comment && state.atEnd.isNone &&
        names.all (fun range => 'a' ≤ range.1 && range.2 ≤ 'z') && others.all isNameEdge
    then some target else none
  | _ => none

/-- The state is inside a comment and goes on with both cases of a letter. -/
def takesLetter (state : LexState) (c : Char) : Bool :=
  state.accepts == some .comment && [c, c.toLower].all fun d => (state.edgeOn d).any (!·.skips)

/-- Where states go on with a letter, in either case. -/
def afterLetter (numbers : List Nat) (c : Char) : List Nat :=
  (numbers.flatMap fun number => [c, c.toLower].filterMap fun d =>
    ((stateOf lexStates number).edgeOn d).map Edge.target).eraseDups

/-- With the letters of a word, in any case, the states stay inside a comment, and after it they go on
alike with the rest of the comment, outside of tags. -/
def staysComment : List Nat → List Char → Bool
  | numbers, [] => [17, 35].any fun target => numbers.all fun number =>
      restOfComment? (stateOf lexStates number) == some target
  | numbers, c :: word => numbers.all (fun number => takesLetter (stateOf lexStates number) c) &&
      staysComment (afterLetter numbers c) word

/-- No keyword is the name of a tag. -/
theorem staysComment_keywords : (tagStarts.all fun number => reservedWords.all fun keyword =>
    staysComment [number] keyword.name.toList) = true := by
  decide +kernel

/-! ## Both texts side by side -/

/-- The text holds no `</`. -/
def NoClosing (chars : List Char) : Prop := ¬['<', '/'] <:+: chars

instance (chars : List Char) : Decidable (NoClosing chars) :=
  inferInstanceAs (Decidable (¬_))

theorem NoClosing.tail {c : Char} {a : List Char} (h : NoClosing (c :: a)) : NoClosing a :=
  fun hin => h (hin.trans (List.infix_cons (List.infix_refl a)))

theorem NoClosing.head? {a : List Char} (h : NoClosing ('<' :: a)) : a.head? ≠ some '/' := by
  intro hhead
  obtain ⟨b, rfl⟩ := List.head?_eq_some_iff.mp hhead
  exact h ⟨[], b, rfl⟩

/-- What is known of a state from the edge that led to it. -/
structure Entered (number : Nat) (edge : Edge) : Prop where
  tag : edge.target ∈ tagStates → number ∈ tagStates ∧ isNameEdge edge = true ∨
    edge.target ∈ tagStarts ∧ edge.on = .one '<' ∨ number ∈ closingStarts ∧ edge.on = .one '/'
  closing : edge.target ∈ closingStarts → edge.on = .one '<'

theorem caseTested_state (number : Nat) :
    (number ∉ tagStates → caseless (stateOf lexStates number) = true) ∧
      ∀ edge ∈ (stateOf lexStates number).edges, Entered number edge := by
  rw [stateOf]
  cases hs : lexStates[number]? with
  | none => exact ⟨fun _ => by decide, fun edge he => by cases he⟩
  | some state =>
    have hmem : (state, number) ∈ lexStates.toList.zipIdx := by
      rw [List.mem_zipIdx_iff_getElem?, Array.getElem?_toList]
      exact hs
    have htest := List.all_eq_true.mp caseTested_lexStates _ hmem
    simp only [Bool.and_eq_true, Bool.or_eq_true, List.contains_iff_mem, List.all_eq_true] at htest
    refine ⟨fun hout => htest.1.resolve_left hout, fun edge he => ?_⟩
    have hedge := htest.2 edge he
    simp only [edgeTested, Bool.and_eq_true, Bool.or_eq_true, Bool.not_eq_true', List.contains_iff_mem,
      beq_iff_eq, ← Bool.not_eq_true] at hedge
    obtain ⟨htag, hclosing⟩ := hedge
    refine ⟨fun ht => ?_, fun hc => hclosing.resolve_left (not_not_intro hc)⟩
    rcases htag with ((h | h) | h) | h
    · exact absurd ht h
    · exact .inl h
    · exact .inr (.inl h)
    · exact .inr (.inr h)

section Edges

variable {number : Nat} {c d : Char} {edge : Edge}

theorem contains_of_edgeOn (h : (stateOf lexStates number).edgeOn c = some edge) :
    edge.on.contains c = true :=
  List.find?_some (p := fun edge : Edge => edge.on.contains c) h

theorem entered_of_edgeOn (h : (stateOf lexStates number).edgeOn c = some edge) :
    Entered number edge :=
  (caseTested_state number).2 edge (List.mem_of_find?_eq_some h)

/-- An edge for one character is taken on this character. -/
theorem eq_of_edgeOn (h : (stateOf lexStates number).edgeOn c = some edge) (hon : edge.on = .one d) :
    c = d := by
  have hcontains := contains_of_edgeOn h
  rw [hon] at hcontains
  exact beq_iff_eq.mp hcontains

theorem isWordChar_of_isNameEdge (h : (stateOf lexStates number).edgeOn c = some edge)
    (hname : isNameEdge edge = true) : isWordChar c = true := by
  rw [isNameEdge] at hname
  split at hname
  · rename_i e heq
    rwa [eq_of_edgeOn h heq]
  · cases hname

end Edges

/-- A state that does not tell cases apart, or one at a place where no keyword begins or is the name of
a tag; and the text after it begins no closing tag. -/
structure Clear (inside : Bool) (a : List Char) (number : Nat) : Prop where
  tag : number ∈ tagStates → number ∈ tagStarts ∨ inside = true
  closing : number ∈ closingStarts → a.head? ≠ some '/'
  text : NoClosing a

/-- The next character leads to a state of the same kind. -/
theorem Clear.step {inside : Bool} {c : Char} {a : List Char} {number : Nat}
    (h : Clear inside (c :: a) number) {edge : Edge}
    (he : (stateOf lexStates number).edgeOn c = some edge) : Clear (isWordChar c) a edge.target := by
  have hentered := entered_of_edgeOn he
  refine ⟨fun htag => ?_, fun hclosing => ?_, h.text.tail⟩
  · rcases hentered.tag htag with ⟨-, hname⟩ | ⟨hstart, -⟩ | ⟨hguard, hon⟩
    · exact .inr (isWordChar_of_isNameEdge he hname)
    · exact .inl hstart
    · obtain rfl := eq_of_edgeOn he hon
      exact absurd rfl (h.closing hguard)
  · obtain rfl := eq_of_edgeOn he (hentered.closing hclosing)
    exact h.text.head?

/-- The states of the automaton on recased texts. -/
inductive Corresponds : List Char → List Char → Nat → Nat → Prop
  /-- Between words, or inside a word that is the same in both texts. -/
  | between {inside : Bool} {a b : List Char} {number : Nat} : Recased inside a b →
      Clear inside a number → Corresponds a b number number
  /-- Inside a keyword. -/
  | within {word word' a b : List Char} {number : Nat} :
      word.map Char.toUpper = word'.map Char.toUpper → (∀ c ∈ word, c.toUpper ∈ capitals) →
      (∀ c ∈ a.head?, isWordChar c = false) → Recased true a b → number ∉ tagStates →
      Clear true (word ++ a) number → Corresponds (word ++ a) (word' ++ b) number number
  /-- Inside a keyword that stands where the name of a tag may stand. -/
  | tag {word word' letters a b : List Char} {numbers : List Nat} {s t : Nat} :
      staysComment numbers letters = true → s ∈ numbers → t ∈ numbers →
      word.map Char.toUpper = letters → word'.map Char.toUpper = letters →
      (∀ c ∈ letters, c ∈ capitals) → (∀ c ∈ a.head?, isWordChar c = false) → Recased true a b →
      NoClosing a → Corresponds (word ++ a) (word' ++ b) s t

theorem capitals_checked : (capitals.all fun c => isWordChar c && c != '<' && c != '/') = true ∧
    (reservedWords.all fun keyword => keyword.name.toList != [] &&
      keyword.name.toList.all capitals.contains) = true := by
  decide

theorem isWordChar_of_capital {c : Char} (h : c.toUpper ∈ capitals) : isWordChar c = true := by
  have htest := List.all_eq_true.mp capitals_checked.1 _ h
  simp only [Bool.and_eq_true] at htest
  rw [← (toUpper_kept c).2]
  exact htest.1.1

theorem letters_of_keyword {keyword : Symbol} (h : keyword ∈ reservedWords) :
    keyword.name.toList ≠ [] ∧ ∀ c ∈ keyword.name.toList, c ∈ capitals := by
  have htest := List.all_eq_true.mp capitals_checked.2 _ h
  simpa using htest

/-- On the next character the automaton goes the same way in both texts. -/
def Steps (c : Char) (a b : List Char) (s t : Nat) : Prop :=
  ∃ d b', b = d :: b' ∧ Extent.ofChar c = Extent.ofChar d ∧
    SameWay (Corresponds a b') ((stateOf lexStates s).edgeOn c) ((stateOf lexStates t).edgeOn d)

/-- The next character is the same in both texts. -/
theorem steps_same {inside : Bool} {c : Char} {a b : List Char} {number : Nat}
    (h : Recased (isWordChar c) a b) (hclear : Clear inside (c :: a) number) :
    Steps c a (c :: b) number number :=
  ⟨c, b, rfl, rfl, .of_eq (sameWay_refl _) fun _ he => .between h (hclear.step he)⟩

/-- The next character is a letter of a keyword. -/
theorem steps_within {c : Char} {word word' a b : List Char} {number : Nat}
    (hword : (c :: word).map Char.toUpper = word'.map Char.toUpper)
    (hletters : ∀ d ∈ c :: word, d.toUpper ∈ capitals) (hhead : ∀ d ∈ a.head?, isWordChar d = false)
    (h : Recased true a b) (hout : number ∉ tagStates) (hclear : Clear true (c :: word ++ a) number) :
    Steps c (word ++ a) (word' ++ b) number number := by
  cases word' with
  | nil => cases hword
  | cons d word' =>
    obtain ⟨hcd, hwords⟩ := List.cons.inj hword
    obtain ⟨hc, hrest⟩ := List.forall_mem_cons.mp hletters
    refine ⟨d, word' ++ b, rfl, SameLetter.extent_eq hcd, ?_⟩
    refine .of_eq (sameWay_of_caseless ((caseTested_state number).1 hout) hcd) fun edge he => ?_
    have hnext := hclear.step he
    rw [isWordChar_of_capital hc] at hnext
    refine .within hwords hrest hhead h (fun htag => ?_) hnext
    -- A letter leads into the name of a tag only from inside it.
    have hentered := entered_of_edgeOn he
    have hplain := List.all_eq_true.mp capitals_checked.1 _ hc
    simp only [Bool.and_eq_true, bne_iff_ne] at hplain
    rcases hentered.tag htag with ⟨hin, -⟩ | ⟨-, hon⟩ | ⟨-, hon⟩
    · exact hout hin
    · obtain rfl := eq_of_edgeOn he hon
      exact hplain.1.2 (by decide)
    · obtain rfl := eq_of_edgeOn he hon
      exact hplain.2 (by decide)

/-- Where a state goes on with a letter. -/
theorem mem_afterLetter {numbers : List Nat} {c d : Char} {number : Nat} {edge : Edge}
    (hn : number ∈ numbers) (hd : d ∈ [c, c.toLower])
    (he : (stateOf lexStates number).edgeOn d = some edge) : edge.target ∈ afterLetter numbers c := by
  rw [afterLetter, List.mem_eraseDups, List.mem_flatMap]
  exact ⟨number, hn, List.mem_filterMap.mpr ⟨d, hd, by rw [he]; rfl⟩⟩

theorem takesLetter_spec {state : LexState} {c d : Char} (h : takesLetter state c = true)
    (hd : d ∈ [c, c.toLower]) : ∃ edge, state.edgeOn d = some edge ∧ edge.skips = false := by
  rw [takesLetter, Bool.and_eq_true] at h
  obtain ⟨edge, he, hskips⟩ := (Option.any_eq_true ..).mp (List.all_eq_true.mp h.2 d hd)
  exact ⟨edge, he, by simpa using hskips⟩

/-- A capital letter is read from its two cases only. -/
theorem mem_cases {c capital : Char} (h : c.toUpper = capital) :
    c ∈ [capital, capital.toLower] := by
  rcases toUpper_eq_self_or c with hself | hsmall
  · rw [← h, hself]
    exact List.mem_cons_self
  · rw [← h, (isSmall_of_mem hsmall).small]
    simp

/-- The next character is a letter of a keyword, where the name of a tag may stand. -/
theorem steps_tag {c : Char} {word word' letters a b : List Char} {numbers : List Nat} {s t : Nat}
    (hstays : staysComment numbers letters = true) (hs : s ∈ numbers) (ht : t ∈ numbers)
    (hword : (c :: word).map Char.toUpper = letters) (hword' : word'.map Char.toUpper = letters)
    (hletters : ∀ d ∈ letters, d ∈ capitals) (hhead : ∀ d ∈ a.head?, isWordChar d = false)
    (h : Recased true a b) (htext : NoClosing a) : Steps c (word ++ a) (word' ++ b) s t := by
  cases letters with
  | nil => cases hword
  | cons capital letters =>
    cases word' with
    | nil => cases hword'
    | cons d word' =>
      obtain ⟨hc, hwords⟩ := List.cons.inj hword
      obtain ⟨hd, hwords'⟩ := List.cons.inj hword'
      obtain ⟨-, hrest⟩ := List.forall_mem_cons.mp hletters
      rw [staysComment, Bool.and_eq_true, List.all_eq_true] at hstays
      have hmem := mem_cases hc
      have hmem' := mem_cases hd
      obtain ⟨edge, he, hskips⟩ := takesLetter_spec (hstays.1 s hs) hmem
      obtain ⟨edge', he', hskips'⟩ := takesLetter_spec (hstays.1 t ht) hmem'
      refine ⟨d, word' ++ b, rfl, SameLetter.extent_eq (hc.trans hd.symm), ?_⟩
      rw [he, he']
      exact .go (hskips.trans hskips'.symm) (.tag hstays.2 (mem_afterLetter hs hmem he)
        (mem_afterLetter ht hmem' he') hwords hwords' hrest hhead h htext)

/-- Edges for letters, digits and underscores are taken on these only. -/
theorem find?_nameEdges {edges : List Edge} (h : ∀ edge ∈ edges, isNameEdge edge = true) {c : Char}
    (hc : isWordChar c = false) : edges.find? (·.on.contains c) = none := by
  rw [List.find?_eq_none]
  intro edge hedge hcontains
  have hname := h edge hedge
  rw [isNameEdge] at hname
  split at hname
  · rename_i d hon
    rw [hon, CharClass.contains, beq_iff_eq] at hcontains
    rw [← hcontains, hc] at hname
    cases hname
  · cases hname

theorem inRanges_smalls {ranges : List (Char × Char)}
    (h : ∀ range ∈ ranges, 'a' ≤ range.1 ∧ range.2 ≤ 'z') {c : Char} (hc : isWordChar c = false) :
    CharClass.inRanges ranges c = false := by
  rw [CharClass.inRanges, List.any_eq_false]
  intro range hrange hin
  rw [Bool.and_eq_true, decide_eq_true_iff, decide_eq_true_iff] at hin
  have hle : 'a' ≤ c ∧ c ≤ 'z' :=
    ⟨Char.le_trans (h range hrange).1 hin.1, Char.le_trans hin.2 (h range hrange).2⟩
  have hword : isWordChar c = true := by
    simp [isWordChar, CharClass.wordChar, CharClass.contains, CharClass.inRanges, hle]
  rw [hc] at hword
  cases hword

/-- What a state inside a comment does: it goes on with what is no letter, digit or underscore, and
stops at a line feed and at NUL. -/
structure GoesOn (target : Nat) (state : LexState) : Prop where
  accepts : state.accepts = some .comment
  atEnd : state.atEnd = none
  stops : ∀ c ∈ ['\x00', '\n'], state.edgeOn c = none
  goes : ∀ c ∉ ['\x00', '\n'], isWordChar c = false →
    ∃ edge, state.edgeOn c = some edge ∧ edge.target = target ∧ edge.skips = false

theorem goesOn_of_restOfComment {state : LexState} {target : Nat}
    (h : restOfComment? state = some target) : GoesOn target state := by
  rw [restOfComment?] at h
  split at h
  · rename_i names target' others hedges
    split at h
    · rename_i hcond
      cases h
      simp only [Bool.and_eq_true, beq_iff_eq, Option.isNone_iff_eq_none, List.all_eq_true,
        decide_eq_true_eq] at hcond
      obtain ⟨⟨⟨haccepts, hend⟩, hnames⟩, hothers⟩ := hcond
      refine ⟨haccepts, hend, fun c hc => ?_, fun c hc hword => ?_⟩
      · have hin : CharClass.contains
            (.outside (('\x00', '\x00') :: ('\n', '\n') :: names)) c = false := by
          simp only [List.mem_cons, List.not_mem_nil, or_false] at hc
          rcases hc with rfl | rfl <;> simp [CharClass.contains, CharClass.inRanges]
        have hword : isWordChar c = false := by
          simp only [List.mem_cons, List.not_mem_nil, or_false] at hc
          rcases hc with rfl | rfl <;> decide
        rw [LexState.edgeOn, hedges, List.find?_cons_of_neg (by simp [hin])]
        exact find?_nameEdges hothers hword
      · have hout : CharClass.contains
            (.outside (('\x00', '\x00') :: ('\n', '\n') :: names)) c = true := by
          have hsingles := outside_singles hc
          simp only [CharClass.contains, CharClass.inRanges, List.map_cons, List.map_nil, List.any_cons,
            List.any_nil, Bool.or_false, Bool.not_eq_true', Bool.or_eq_false_iff] at hsingles
          have hsmalls := inRanges_smalls hnames hword
          rw [CharClass.inRanges] at hsmalls
          simp [CharClass.contains, CharClass.inRanges, hsingles, hsmalls]
        rw [LexState.edgeOn, hedges]
        exact ⟨_, List.find?_cons_of_pos hout, rfl, rfl⟩
    · cases h
  · cases h

/-- After a keyword the states go on with the same state of the comment. -/
theorem goesOn_of_staysComment {numbers : List Nat} (h : staysComment numbers [] = true) :
    ∃ target, target ∉ tagStates ∧ target ∉ closingStarts ∧
      ∀ number ∈ numbers, GoesOn target (stateOf lexStates number) := by
  rw [staysComment, List.any_eq_true] at h
  obtain ⟨target, htarget, hall⟩ := h
  have hout : ∀ target ∈ [17, 35], target ∉ tagStates ∧ target ∉ closingStarts := by decide
  refine ⟨target, (hout target htarget).1, (hout target htarget).2, fun number hn => ?_⟩
  exact goesOn_of_restOfComment (beq_iff_eq.mp (List.all_eq_true.mp hall number hn))

/-- What comes after a keyword is the same in both texts. -/
theorem Recased.eq_cons {c : Char} {a b : List Char} (h : Recased true (c :: a) b) :
    ∃ b', b = c :: b' ∧ Recased (isWordChar c) a b' := by
  cases h with
  | same h => exact ⟨_, rfl, h⟩

theorem Recased.eq_nil {inside : Bool} {b : List Char} (h : Recased inside [] b) : b = [] := by
  generalize ha : ([] : List Char) = a at h
  cases h with
  | nil => rfl
  | same => cases ha
  | keyword hk hword =>
    obtain ⟨rfl, -⟩ := List.append_eq_nil_iff.mp ha.symm
    exact absurd hword.symm (letters_of_keyword hk).1

/-- The first character after a keyword, where the name of a tag may stand. -/
theorem steps_after {c : Char} {a b : List Char} {numbers : List Nat} {s t : Nat}
    (hstays : staysComment numbers [] = true) (hs : s ∈ numbers) (ht : t ∈ numbers)
    (hword : isWordChar c = false) (h : Recased true (c :: a) b) (htext : NoClosing (c :: a)) :
    Steps c a b s t := by
  obtain ⟨target, htag, hclosing, hgoes⟩ := goesOn_of_staysComment hstays
  obtain ⟨b', rfl, h'⟩ := h.eq_cons
  refine ⟨c, b', rfl, rfl, ?_⟩
  by_cases hc : c ∈ ['\x00', '\n']
  · rw [(hgoes s hs).stops c hc, (hgoes t ht).stops c hc]
    exact .stop
  · obtain ⟨edge, he, htarget, hskips⟩ := (hgoes s hs).goes c hc hword
    obtain ⟨edge', he', htarget', hskips'⟩ := (hgoes t ht).goes c hc hword
    rw [he, he']
    refine .go (hskips.trans hskips'.symm) ?_
    rw [htarget, htarget']
    exact .between h' ⟨fun hin => absurd hin htag, fun hin => absurd hin hclosing, htext.tail⟩

theorem Corresponds.step {x b : List Char} {s t : Nat} (h : Corresponds x b s t) {c : Char}
    {a : List Char} (hx : x = c :: a) : Steps c a b s t := by
  cases h with
  | @between inside _ _ _ h hclear =>
    cases h with
    | nil => cases hx
    | same h =>
      cases hx
      exact steps_same h hclear
    | @keyword keyword word word' a' b' hk hword hword' hhead h =>
      obtain ⟨hne, hletters⟩ := letters_of_keyword hk
      cases word with
      | nil => exact absurd hword.symm hne
      | cons d word =>
        obtain ⟨rfl, rfl⟩ := List.cons.inj hx
        by_cases htag : s ∈ tagStates
        · have hstart := (hclear.tag htag).resolve_right Bool.false_ne_true
          have hstays := List.all_eq_true.mp
            (List.all_eq_true.mp staysComment_keywords s hstart) keyword hk
          have htext : NoClosing a' :=
            fun hin => hclear.text (hin.trans (List.suffix_append ..).isInfix)
          exact steps_tag hstays (List.mem_singleton_self s) (List.mem_singleton_self s) hword hword'
            hletters hhead h htext
        · refine steps_within (hword.trans hword'.symm) (fun e he => ?_) hhead h htag
            ⟨fun htag' => absurd htag' htag, hclear.closing, hclear.text⟩
          refine hletters _ ?_
          rw [← hword]
          exact List.mem_map_of_mem he
  | @within word word' a' b' _ hword hletters hhead h htag hclear =>
    cases word with
    | nil =>
      obtain rfl : word' = [] := by simpa using hword.symm
      rw [List.nil_append] at hx
      subst hx
      obtain ⟨b'', rfl, h'⟩ := h.eq_cons
      exact steps_same h' hclear
    | cons d word =>
      obtain ⟨rfl, rfl⟩ := List.cons.inj hx
      exact steps_within hword hletters hhead h htag hclear
  | @tag word word' letters a' b' numbers _ _ hstays hs ht hword hword' hletters hhead h htext =>
    cases word with
    | nil =>
      obtain rfl : [] = letters := hword
      obtain rfl : word' = [] := by simpa using hword'
      rw [List.nil_append] at hx
      subst hx
      exact steps_after hstays hs ht (hhead c rfl) h htext
    | cons d word =>
      obtain ⟨rfl, rfl⟩ := List.cons.inj hx
      exact steps_tag hstays hs ht hword hword' hletters hhead h htext

theorem Corresponds.accepts {a b : List Char} {s t : Nat} (h : Corresponds a b s t) :
    (stateOf lexStates s).accepts = (stateOf lexStates t).accepts := by
  cases h with
  | between => rfl
  | within => rfl
  | @tag word word' letters a b numbers s t hstays hs ht =>
    have hcomment : ∀ number ∈ numbers, (stateOf lexStates number).accepts = some .comment := by
      intro number hn
      cases letters with
      | nil =>
        obtain ⟨target, -, -, hgoes⟩ := goesOn_of_staysComment hstays
        exact (hgoes number hn).accepts
      | cons c letters =>
        rw [staysComment, Bool.and_eq_true, List.all_eq_true] at hstays
        have htakes := hstays.1 number hn
        rw [takesLetter, Bool.and_eq_true, beq_iff_eq] at htakes
        exact htakes.1
    rw [hcomment s hs, hcomment t ht]

theorem Corresponds.ends {x b : List Char} {s t : Nat} (h : Corresponds x b s t) (hx : x = []) :
    b = [] ∧ (stateOf lexStates s).atEnd = (stateOf lexStates t).atEnd := by
  cases h with
  | between h =>
    subst hx
    exact ⟨h.eq_nil, rfl⟩
  | @within word word' a b _ hword _ _ h =>
    obtain ⟨rfl, rfl⟩ := List.append_eq_nil_iff.mp hx
    obtain rfl : word' = [] := by simpa using hword.symm
    exact ⟨h.eq_nil, rfl⟩
  | @tag word word' letters a b numbers s t hstays hs ht hword hword' _ _ h =>
    obtain ⟨rfl, rfl⟩ := List.append_eq_nil_iff.mp hx
    obtain rfl : [] = letters := hword
    obtain rfl : word' = [] := by simpa using hword'
    obtain ⟨target, -, -, hgoes⟩ := goesOn_of_staysComment hstays
    exact ⟨h.eq_nil, (hgoes s hs).atEnd.trans (hgoes t ht).atEnd.symm⟩

/-- What follows a position in recased texts without closing tags. -/
structure Follow (a b : List Char) : Prop where
  tail : RecasedTail a b
  text : NoClosing a

theorem Corresponds.follow {a b : List Char} {s t : Nat} (h : Corresponds a b s t) : Follow a b := by
  cases h with
  | between h hclear => exact ⟨.between h, hclear.text⟩
  | within hword hletters hhead h _ hclear => exact ⟨.within hword hletters hhead h, hclear.text⟩
  | @tag word word' letters a b _ _ _ _ _ _ hword hword' hletters hhead h htext =>
    have hcapitals : ∀ c ∈ word, c.toUpper ∈ capitals := by
      intro c hc
      refine hletters _ ?_
      rw [← hword]
      exact List.mem_map_of_mem hc
    refine ⟨.within (hword.trans hword'.symm) hcapitals hhead h, ?_⟩
    -- The letters of a keyword hold no `<`.
    clear hword
    induction word with
    | nil => exact htext
    | cons c word ih =>
      obtain ⟨hc, hrest⟩ := List.forall_mem_cons.mp hcapitals
      have hplain := List.all_eq_true.mp capitals_checked.1 _ hc
      simp only [Bool.and_eq_true, bne_iff_ne] at hplain
      intro hin
      rcases List.infix_cons_iff.mp hin with hprefix | hin
      · obtain ⟨rfl, -⟩ := List.cons_prefix_cons.mp hprefix
        exact hplain.1.2 (by decide)
      · exact ih hrest hin

/-- **The lexical automaton goes the same way in recased texts.** -/
theorem simulates_lexStates : Simulates lexStates Corresponds Follow where
  rests := Corresponds.follow
  accepts := Corresponds.accepts
  ends h := h.ends rfl
  step h := h.step rfl

/-! ## Tokens of recased texts -/

theorem RecasedTail.eq_nil {b : List Char} (h : RecasedTail [] b) : b = [] := by
  generalize ha : ([] : List Char) = a at h
  cases h with
  | between h =>
    subst ha
    exact h.eq_nil
  | @within word word' a b hword _ _ h =>
    obtain ⟨rfl, rfl⟩ := List.append_eq_nil_iff.mp ha.symm
    obtain rfl : word' = [] := by simpa using hword.symm
    exact h.eq_nil

/-- The first characters inside a keyword, or after it. -/
theorem Recased.eq_cons_within {c : Char} {x word word' a b : List Char}
    (hword : word.map Char.toUpper = word'.map Char.toUpper) (hletters : ∀ d ∈ word, d.toUpper ∈ capitals)
    (hhead : ∀ d ∈ a.head?, isWordChar d = false) (h : Recased true a b) (heq : c :: x = word ++ a) :
    ∃ d b', word' ++ b = d :: b' ∧ SameLetter c d ∧ RecasedTail x b' := by
  cases word with
  | nil =>
    obtain rfl : word' = [] := by simpa using hword.symm
    obtain rfl : c :: x = a := heq
    obtain ⟨b', rfl, h'⟩ := h.eq_cons
    exact ⟨c, b', rfl, rfl, .between h'⟩
  | cons d word =>
    obtain ⟨rfl, rfl⟩ := List.cons.inj heq
    cases word' with
    | nil => cases hword
    | cons e word' =>
      obtain ⟨hde, hwords⟩ := List.cons.inj hword
      exact ⟨e, word' ++ b, rfl, hde, .within hwords (List.forall_mem_cons.mp hletters).2 hhead h⟩

theorem RecasedTail.eq_cons {c : Char} {a b : List Char} (h : RecasedTail (c :: a) b) :
    ∃ d b', b = d :: b' ∧ SameLetter c d ∧ RecasedTail a b' := by
  generalize hx : c :: a = x at h
  cases h with
  | between h =>
    cases h with
    | nil => cases hx
    | same h =>
      cases hx
      exact ⟨c, _, rfl, rfl, .between h⟩
    | keyword hk hword hword' hhead h =>
      refine h.eq_cons_within (hword.trans hword'.symm) (fun d hd => ?_) hhead hx
      refine (letters_of_keyword hk).2 _ ?_
      rw [← hword]
      exact List.mem_map_of_mem hd
  | within hword hletters hhead h => exact h.eq_cons_within hword hletters hhead hx

theorem RecasedTail.sameLetters {a b : List Char} (h : RecasedTail a b) :
    List.Forall₂ SameLetter a b := by
  induction a generalizing b with
  | nil =>
    obtain rfl := h.eq_nil
    exact .nil
  | cons c a ih =>
    obtain ⟨d, b', rfl, hcd, h'⟩ := h.eq_cons
    exact .cons hcd (ih h')

theorem follow_suffixesOf {a b : List Char} (h : Follow a b) :
    List.Forall₂ Follow (Source.suffixesOf a) (Source.suffixesOf b) := by
  induction a generalizing b with
  | nil =>
    obtain rfl := h.tail.eq_nil
    exact .nil
  | cons c a ih =>
    obtain ⟨d, b', rfl, hcd, h'⟩ := h.tail.eq_cons
    have hsize : c.utf8Size = d.utf8Size := by
      rw [← Extent.bytes_ofChar, ← Extent.bytes_ofChar, hcd.extent_eq]
    have hhere : ∀ n, List.Forall₂ Follow (List.replicate n (c :: a)) (List.replicate n (d :: b')) := by
      intro n
      induction n with
      | zero => exact .nil
      | succ n ihn => exact .cons h ihn
    rw [Source.suffixesOf, Source.suffixesOf, hsize]
    exact List.rel_append (hhere _) (ih ⟨h', h.text.tail⟩)

/-- What follows the same position in both texts. -/
theorem alike_cursorAt {a b : List Char} (h : Follow a b) (position : Extent) :
    ((Source.ofList a).cursorAt position).Alike Follow ((Source.ofList b).cursorAt position) := by
  refine ⟨rfl, ?_⟩
  have hnone : Follow [] [] := ⟨.between (@Recased.nil false), by simp [NoClosing]⟩
  obtain ⟨hlength, hget⟩ := List.forall₂_iff_get.mp (follow_suffixesOf h)
  simp only [Source.cursorAt, Source.ofList, List.getElem?_toArray]
  by_cases hlt : position.bytes < (Source.suffixesOf a).length
  · have hlt' := hlength ▸ hlt
    rw [List.getElem?_eq_getElem hlt, List.getElem?_eq_getElem hlt']
    exact hget _ hlt hlt'
  · have hge := Nat.le_of_not_lt hlt
    rw [List.getElem?_eq_none hge, List.getElem?_eq_none (hlength ▸ hge)]
    exact hnone

/-- The automaton is run from the same position in both texts. -/
theorem alike_scan {number : Nat} (hn : number ∈ 0 :: rowList.map Row.lexStart) {x y : Cursor}
    (h : x.Alike Follow y) : (scan lexStates number x).Alike Follow (scan lexStates number y) := by
  have htest := List.all_eq_true.mp caseTested_rows number hn
  simp only [Bool.and_eq_true, Bool.not_eq_true', List.contains_eq_mem, decide_eq_false_iff_not] at htest
  have hclear : ∀ inside, Clear inside x.rest number := fun inside =>
    ⟨fun hin => absurd hin htest.1, fun hin => absurd hin htest.2, h.rest.text⟩
  have hcorresponds : Corresponds x.rest y.rest number number := by
    have htail := h.rest.tail
    have hout := hclear true
    generalize x.rest = a at htail hout
    generalize y.rest = b at htail
    cases htail with
    | between hr => exact .between hr ⟨fun hin => absurd hin htest.1, hout.closing, hout.text⟩
    | within hword hletters hhead hr => exact .within hword hletters hhead hr htest.1 hout
  rw [scan, scan, h.position]
  exact simulates_lexStates.run hcorresponds h none _

theorem mem_lexStarts (state : StateId) : lexStartAt state ∈ 0 :: rowList.map Row.lexStart := by
  rw [lexStartAt, rows_getElem?, rowAt_eq]
  cases hrow : rowList[state]? with
  | none => exact List.mem_cons_self
  | some row => exact List.mem_cons_of_mem _ (List.mem_map_of_mem (List.mem_of_getElem? hrow))

theorem wordSymbol_recased (state : StateId) {x y : Cursor} (h : x.Alike Follow y) (finish : Extent) :
    wordSymbol state x finish = wordSymbol state y finish := by
  have hletters := h.rest.tail.sameLetters
  have hboth : x.Alike (List.Forall₂ SameLetter) y := ⟨h.position, hletters⟩
  have hscan := simulates_keywords.run ⟨rfl, hletters⟩ hboth none x.position (s := 0)
  have htoken : (scan keywordAutomaton 0 x).token = (scan keywordAutomaton 0 y).token := by
    rw [scan, scan, ← h.position]
    exact hscan.token
  rw [wordSymbol, wordSymbol, htoken]

theorem ofScan_recased (state : StateId) (position : Extent) {x y : Cursor} (h : x.Alike Follow y)
    (symbol : Symbol) (finish : Extent) :
    Token.ofScan state position x symbol finish = Token.ofScan state position y symbol finish := by
  rw [Token.ofScan, Token.ofScan, wordSymbol_recased state h, h.position]

theorem Cursor.Alike.next {x y : Cursor} (h : x.Alike Follow y) : x.next.Alike Follow y.next := by
  obtain ⟨a, p⟩ := x
  obtain ⟨b, q⟩ := y
  obtain ⟨rfl, hrest⟩ := h
  cases a with
  | nil =>
    obtain rfl := hrest.tail.eq_nil
    exact ⟨rfl, hrest⟩
  | cons c a =>
    obtain ⟨d, b', rfl, hcd, h'⟩ := hrest.tail.eq_cons
    exact ⟨by simp [Cursor.next, hcd.extent_eq], h', hrest.text.tail⟩

theorem Cursor.Alike.length_eq {x y : Cursor} (h : x.Alike Follow y) : x.rest.length = y.rest.length :=
  h.rest.tail.sameLetters.length_eq

theorem unreadableEnd_recased (fuel : Nat) (reached : Extent) {x y : Cursor} (h : x.Alike Follow y) :
    unreadableEnd fuel reached x = unreadableEnd fuel reached y := by
  induction fuel generalizing reached x y with
  | zero => rfl
  | succ fuel ih =>
    have hscan := alike_scan List.mem_cons_self h
    have hend : (scan lexStates 0 x).stop.atEnd = (scan lexStates 0 y).stop.atEnd := by
      rw [Cursor.atEnd, Cursor.atEnd, Bool.eq_iff_iff, List.isEmpty_iff_length_eq_zero,
        List.isEmpty_iff_length_eq_zero, hscan.stop.length_eq]
    rw [unreadableEnd, unreadableEnd]
    simp only [hscan.token, hscan.stop.position, hend, hscan.stop.next.position, ih _ hscan.stop,
      ih _ hscan.stop.next]

theorem recoveryToken_recased (state : StateId) {x y : Cursor} (h : x.Alike Follow y) :
    recoveryToken state x = recoveryToken state y := by
  have hscan := alike_scan List.mem_cons_self h
  rw [recoveryToken, recoveryToken]
  simp only [hscan.token, hscan.start.position, h.position, h.length_eq,
    unreadableEnd_recased _ _ h]
  split
  · exact ofScan_recased state _ hscan.start _ _
  · rfl

/-- Without closing tags no body of a documentation tag is found. -/
theorem scanDocBody_of_noClosing {cursor : Cursor} (h : NoClosing cursor.rest) (tag : DocTag) :
    scanDocBody tag cursor = none := by
  by_contra hsome
  obtain ⟨⟨symbol, finish⟩, hscan⟩ := Option.ne_none_iff_exists'.mp hsome
  obtain ⟨-, body, rest, hrest, -⟩ := scanDocBody_eq_some_iff.mp hscan
  refine h ⟨body, closingTag tag ++ rest, ?_⟩
  rw [hrest, wholeTag]
  simp

/-- What is no letter has no other case. -/
theorem SameLetter.eq_of_mem {c d : Char} (h : SameLetter c d) (hd : d ∈ ['<', '/']) : c = d := by
  rcases h.eq_or with rfl | ⟨capital, hcapital, -, hd'⟩
  · rfl
  · have hplain : (capitals.all fun capital => ['<', '/'].all fun mark =>
        mark != capital && mark != capital.toLower) = true := by decide
    have hnot := List.all_eq_true.mp (List.all_eq_true.mp hplain capital hcapital) d hd
    simp only [Bool.and_eq_true, bne_iff_ne] at hnot
    simp [hnot.1, hnot.2] at hd'

theorem NoClosing.of_sameLetters {a b : List Char} (h : List.Forall₂ SameLetter a b)
    (htext : NoClosing a) : NoClosing b := by
  induction h with
  | nil => exact htext
  | @cons c d a b hcd h ih =>
    intro hin
    rcases List.infix_cons_iff.mp hin with hprefix | hin
    · obtain ⟨rfl, hslash⟩ := List.cons_prefix_cons.mp hprefix
      obtain rfl := hcd.eq_of_mem (by simp)
      cases h with
      | nil => simp at hslash
      | cons hcd' h =>
        obtain ⟨rfl, -⟩ := List.cons_prefix_cons.mp hslash
        obtain rfl := hcd'.eq_of_mem (by simp)
        exact htext (List.infix_cons_iff.mpr (.inl (by simp)))
    · exact ih htext.tail hin

/-- **In recased texts the same tokens are read**, in every state and at every position. -/
theorem nextToken_recased {a b : List Char} (h : Recased false a b) (htext : NoClosing a)
    (state : StateId) (position : Extent) :
    nextToken (.ofList a) state position = nextToken (.ofList b) state position := by
  have hat := alike_cursorAt ⟨.between h, htext⟩ position
  have hscan := alike_scan (mem_lexStarts state) hat
  have hbodies : ∀ {cursor : Cursor}, NoClosing cursor.rest →
      (docBodyAt state).bind (scanDocBody · cursor) = none := by
    intro cursor hcursor
    cases docBodyAt state with
    | none => rfl
    | some tag => exact scanDocBody_of_noClosing hcursor tag
  rw [nextToken, nextToken]
  simp only [hbodies hat.rest.text, hscan.token,
    hbodies (hat.rest.text.of_sameLetters hat.rest.tail.sameLetters)]
  split
  · exact ofScan_recased state position hscan.start _ _
  · exact recoveryToken_recased state hat

end Cicode.Lex
