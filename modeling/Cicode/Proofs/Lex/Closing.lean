import Cicode.Proofs.Lex.Cuts

/-!
# The bodies of documentation tags and comments

Behind an opening documentation tag the body is looked for first, and only if there is none a comment may be
read.  There is a body unless the closing tag comes at once or is never noticed; and what is never noticed
behind a comment was not noticed in front of it either, since a comment does not end in the middle of a
closing tag (`closes_of_comment`).  So where a closing tag is read in the end, no comment comes before it.

Main statement (`Closes`, `closes_of_closing`, `closes_of_comment`).
-/

namespace Cicode.Lex

open Grammar Text

/-- The token of a closing tag. -/
def closingSymbol : DocTag → Symbol
  | .summary => .summaryEnd
  | .param => .paramEnd
  | .returns => .returnsEnd

/-! ## What leads to a state -/

/-- The states in which the name of a closing tag is read, with what has been read. -/
def chain (tag : DocTag) (numbers : List Nat) : List (Nat × List Char) :=
  numbers.zipIdx.map fun q => (q.1, (wholeTag tag).take (q.2 + 3))

/-- The states of closing tags, with what has been read. -/
def spelt : List (Nat × List Char) :=
  [13, 118, 121, 124].map (·, ['<']) ++ [25, 119, 122, 125].map (·, ['<', '/']) ++
    chain .summary [40, 51, 62, 71, 80, 90, 99, 106] ++ chain .param [38, 49, 60, 69, 78, 88] ++
    chain .returns [39, 50, 61, 70, 79, 89, 98, 105]

/-- The states in comments after an asterisk that may end them. -/
def starStates : List Nat := [34, 56]

/-- A comment is complete in the state, and it does not go on. -/
def isBlockEnd (state : LexState) : Bool := state.accepts == some .comment && state.edges.isEmpty

/-- The characters at which a comment ends with its line. -/
def lineEnds : List Char := ['\n', '\x00']

/-- In a state of a line every character but the last leads on, to a state where something is complete. -/
def goesOn (state : LexState) : Bool :=
  (state.edges.all fun edge => (stateOf lexStates edge.target).accepts.isSome) &&
    state.edges.any fun edge => match edge.on with
      | .outside ranges => (membersOf ranges).all fun c =>
          lineEnds.contains c || state.edges.any (·.on.contains c)
      | _ => false

/-- What is tested of a state: how its edges lead along closing tags and to the ends of comments, and where
closing tags are complete. -/
def closingTested (number : Nat) (state : LexState) : Bool :=
  (!isFresh state || (spelt.lookup number).isNone && !starStates.contains number) &&
  (!isLineState state || goesOn state) &&
  ([DocTag.summary, .param, .returns].all fun tag =>
    (state.accepts != some (closingSymbol tag) || spelt.lookup number == some (wholeTag tag)) &&
      state.accepts != some (bodySymbol tag)) &&
  state.edges.all fun edge =>
    (match spelt.lookup edge.target with
    | none => true
    | some word => edge.skips == false && match edge.on with
      | .one c => if isFresh state then word == [c] else (spelt.lookup number).any (word == · ++ [c])
      | _ => false) &&
    (!starStates.contains edge.target || edge.on == .one '*') &&
    (!isBlockEnd (stateOf lexStates edge.target) || edge.on == .one '/' && starStates.contains number)

theorem closingTested_lexStates : (lexStates.toList.zipIdx.all fun q => closingTested q.2 q.1) = true := by
  decide +kernel

theorem closingTested_stateOf (number : Nat) : closingTested number (stateOf lexStates number) = true := by
  rw [stateOf]
  cases hs : lexStates[number]? with
  | none => simp [closingTested, isFresh, isLineState]
  | some state =>
    refine List.all_eq_true.mp closingTested_lexStates (state, number) ?_
    rw [List.mem_zipIdx_iff_getElem?, Array.getElem?_toList]
    exact hs

section

variable {number next last : Nat} {c : Char} {w rest text post : List Char} {tag : DocTag} {p : Piece}

theorem spelt_of_closing (h : (stateOf lexStates number).accepts = some (closingSymbol tag)) :
    spelt.lookup number = some (wholeTag tag) := by
  have htest := closingTested_stateOf number
  simp only [closingTested, Bool.and_eq_true, List.all_eq_true, Bool.or_eq_true, bne_iff_ne, beq_iff_eq] at htest
  have htag := (htest.1.2 tag (by cases tag <;> decide)).1
  exact htag.resolve_left fun hne => hne h

theorem not_body_of_accepts {symbol : Symbol} (h : (stateOf lexStates number).accepts = some symbol) :
    symbol ≠ bodySymbol tag := by
  rintro rfl
  have htest := closingTested_stateOf number
  simp only [closingTested, Bool.and_eq_true, List.all_eq_true, Bool.or_eq_true, bne_iff_ne] at htest
  exact (htest.1.2 tag (by cases tag <;> decide)).2 h

theorem goesOn_of_line (h : isLineState (stateOf lexStates number) = true) :
    goesOn (stateOf lexStates number) = true := by
  have htest := closingTested_stateOf number
  simp only [closingTested, Bool.and_eq_true, Bool.or_eq_true, Bool.not_eq_true'] at htest
  refine htest.1.1.2.resolve_left fun hnot => ?_
  rw [h] at hnot
  cases hnot

/-- In a line every character but the last leads to a state where something is complete. -/
theorem accepts_after_line (h : isLineState (stateOf lexStates number) = true) (hc : c ∉ lineEnds) :
    ∃ next, after number c = some next ∧ (stateOf lexStates next).accepts ≠ none := by
  have hgoes := goesOn_of_line h
  rw [goesOn, Bool.and_eq_true, List.all_eq_true, List.any_eq_true] at hgoes
  obtain ⟨hall, edge, hedge, hon⟩ := hgoes
  have hsome : ∃ found, (stateOf lexStates number).edgeOn c = some found := by
    rw [← Option.isSome_iff_exists, LexState.edgeOn, List.find?_isSome]
    split at hon
    · rename_i ranges heq
      by_cases hin : CharClass.inRanges ranges c = true
      · have hlisted := List.all_eq_true.mp hon c (mem_membersOf hin)
        rw [Bool.or_eq_true, List.any_eq_true] at hlisted
        exact hlisted.resolve_left fun hl => hc (List.contains_iff_mem.mp hl)
      · exact ⟨edge, hedge, by simp [heq, CharClass.contains, hin]⟩
    · cases hon
  obtain ⟨found, hfound⟩ := hsome
  have haccepts := hall found (List.mem_of_find?_eq_some hfound)
  exact ⟨found.target, by rw [after, hfound, Option.map_some], by simpa [Option.isSome_iff_ne_none] using haccepts⟩

/-! ## The way to the end of a token -/

theorem stateAfter_concat (number : Nat) (w : List Char) (c : Char) :
    stateAfter number (w ++ [c]) = (stateAfter number w).bind (after · c) := by
  induction w generalizing number with
  | nil =>
    rw [List.nil_append, stateAfter, stateAfter, Option.bind_some]
    cases after number c <;> rfl
  | cons d w ih =>
    rw [List.cons_append, stateAfter, stateAfter]
    cases after number d with
    | none => rfl
    | some next => exact ih next

/-- Where a token ends, and that it could not go on. -/
theorem stateAfter_of_longest {symbol : Symbol} {word : List Char} (h : longest number text = some (symbol, word)) :
    ∃ last, stateAfter number word = some last ∧ (stateOf lexStates last).accepts = some symbol ∧
      ∀ post, text = word ++ post → ∀ c ∈ post.head?, ∀ next, after last c = some next →
        (stateOf lexStates next).accepts = none := by
  have hstop : complete number = some (symbol, word) → word = [] ∧ (stateOf lexStates number).accepts = some symbol := by
    intro hc
    obtain ⟨found, hfound, heq⟩ := Option.map_eq_some_iff.mp hc
    cases heq
    exact ⟨rfl, hfound⟩
  induction text generalizing number word with
  | nil =>
    obtain ⟨rfl, haccepts⟩ := hstop h
    refine ⟨number, rfl, haccepts, fun post hpost c hc => ?_⟩
    obtain rfl : post = [] := by simpa using hpost.symm
    cases hc
  | cons d text ih =>
    rcases longest_cons_cases h with ⟨next, word', hafter, hnext, rfl⟩ | ⟨hcomplete, rfl, hnone⟩
    · obtain ⟨last, hlast, haccepts, hends⟩ := ih hnext fun hc => by
        obtain ⟨found, hfound, heq⟩ := Option.map_eq_some_iff.mp hc
        cases heq
        exact ⟨rfl, hfound⟩
      refine ⟨last, ?_, haccepts, fun post hpost => hends post (List.cons.inj hpost).2⟩
      rw [stateAfter, hafter]
      exact hlast
    · refine ⟨number, rfl, (hstop hcomplete).2, fun post hpost c hc next hafter => ?_⟩
      rw [List.nil_append] at hpost
      subst hpost
      obtain rfl : d = c := by simpa using hc
      by_contra hsome
      obtain ⟨found, hfound⟩ := Option.ne_none_iff_exists'.mp hsome
      have hcompletes : complete next = some (found, []) := by
        rw [complete, hfound]
        rfl
      obtain ⟨found', hfound'⟩ := exists_longest hcompletes text
      rw [hnone next hafter] at hfound'
      cases hfound'

/-- How the word of a piece is read: from a fresh state by an edge that does not pass over its character, and
on to a state where the piece is complete, from which what follows does not lead to another one. -/
structure Walk (p : Piece) (post : List Char) (last : Nat) : Prop where
  way : ∃ start c edge rest, isFresh (stateOf lexStates start) = true ∧
    (stateOf lexStates start).edgeOn c = some edge ∧ edge.skips = false ∧ p.word = c :: rest ∧
    stateAfter edge.target rest = some last
  accepts : (stateOf lexStates last).accepts = some p.symbol
  ends : ∀ c ∈ post.head?, ∀ next, after last c = some next → (stateOf lexStates next).accepts = none

theorem exists_walk (hf : isFresh (stateOf lexStates number) = true) (h : piece? number text = some p)
    (hne : p.word ≠ []) (htext : text = p.blank ++ (p.word ++ post)) : ∃ last, Walk p post last := by
  induction text generalizing number p with
  | nil =>
    obtain ⟨_, -, rfl⟩ := Option.map_eq_some_iff.mp h
    exact absurd rfl hne
  | cons d text ih =>
    cases hedge : (stateOf lexStates number).edgeOn d with
    | none =>
      rw [piece?_stop hedge] at h
      cases h
    | some edge =>
      cases hs : edge.skips with
      | true =>
        rw [piece?_skip hedge hs] at h
        obtain ⟨q, hq, rfl⟩ := Option.map_eq_some_iff.mp h
        obtain ⟨last, hwalk⟩ := ih ((isFresh_target hedge).trans hs) hq hne (List.cons.inj htext).2
        exact ⟨last, hwalk.way, hwalk.accepts, hwalk.ends⟩
      | false =>
        rw [piece?_go hedge hs] at h
        obtain ⟨⟨symbol, word⟩, hfound, rfl⟩ := Option.map_eq_some_iff.mp h
        obtain ⟨last, hlast, haccepts, hends⟩ := stateAfter_of_longest hfound
        exact ⟨last, ⟨number, d, edge, word, hf, hedge, hs, rfl, hlast⟩, haccepts,
          hends post (List.cons.inj htext).2⟩

/-- What is tested of an edge. -/
structure Heads (number : Nat) (c : Char) (edge : Edge) : Prop where
  spelt : ∀ word, spelt.lookup edge.target = some word →
    if isFresh (stateOf lexStates number) then word = [c]
    else ∃ before, Lex.spelt.lookup number = some before ∧ word = before ++ [c]
  star : edge.target ∈ starStates → c = '*'
  ends : isBlockEnd (stateOf lexStates edge.target) = true → c = '/' ∧ number ∈ starStates

theorem heads_of_edgeOn {edge : Edge} (h : (stateOf lexStates number).edgeOn c = some edge) :
    Heads number c edge := by
  have htest := closingTested_stateOf number
  simp only [closingTested, Bool.and_eq_true, List.all_eq_true] at htest
  obtain ⟨⟨hspelt, hstar⟩, hend⟩ := htest.2 edge (List.mem_of_find?_eq_some h)
  refine ⟨fun word hword => ?_, fun hin => ?_, fun hin => ?_⟩
  · rw [hword] at hspelt
    simp only [Bool.and_eq_true] at hspelt
    obtain ⟨-, hon⟩ := hspelt
    split at hon
    · rename_i d heq
      obtain rfl := eq_of_edgeOn h heq
      split at hon
      · rename_i hfresh
        rw [if_pos hfresh]
        exact beq_iff_eq.mp hon
      · rename_i hfresh
        rw [if_neg hfresh]
        simpa [Option.any_eq_true] using hon
    · cases hon
  · rw [List.contains_iff_mem.mpr hin] at hstar
    exact eq_of_edgeOn h (by simpa using hstar)
  · rw [hin] at hend
    simp only [Bool.not_true, Bool.false_or, Bool.and_eq_true, beq_iff_eq, List.contains_iff_mem] at hend
    exact ⟨eq_of_edgeOn h hend.1, hend.2⟩

theorem exists_edge_of_after (h : after number c = some next) :
    ∃ edge, (stateOf lexStates number).edgeOn c = some edge ∧ edge.target = next :=
  Option.map_eq_some_iff.mp h

/-- **A closing tag has its own text.** -/
theorem Walk.word_of_closing (h : Walk p post last) (hs : p.symbol = closingSymbol tag) :
    p.word = wholeTag tag := by
  obtain ⟨⟨start, c, edge, rest, hf, hedge, hskips, hword, hlast⟩, haccepts, -⟩ := h
  have hspelt := spelt_of_closing (hs ▸ haccepts)
  rw [hword]
  have hbegun := (isFresh_target hedge).trans hskips
  generalize wholeTag tag = word at hspelt
  clear haccepts hword
  induction rest using List.reverseRecOn generalizing last word with
  | nil =>
    cases hlast
    have hhead := (heads_of_edgeOn hedge).spelt word hspelt
    rw [if_pos hf] at hhead
    exact hhead.symm
  | append_singleton rest d ih =>
    rw [stateAfter_concat] at hlast
    obtain ⟨mid, hmid, hafter⟩ := Option.bind_eq_some_iff.mp hlast
    obtain ⟨edge', hedge', rfl⟩ := exists_edge_of_after hafter
    have hhead := (heads_of_edgeOn hedge').spelt word hspelt
    rw [if_neg (by simp [not_fresh_stateAfter hbegun hmid])] at hhead
    obtain ⟨before, hbefore, rfl⟩ := hhead
    rw [← ih hmid before hbefore]
    rfl

/-- **A comment ends with an asterisk and a slash, or with its line.** -/
theorem Walk.comment_ends (h : Walk p post last) (hs : p.symbol = .comment) :
    ['*', '/'] <:+ p.word ∨ ∀ c ∈ post.head?, c ∈ lineEnds := by
  obtain ⟨⟨start, c, edge, rest, hf, hedge, -, hword, hlast⟩, haccepts, hends⟩ := h
  rw [hs] at haccepts
  by_cases hline : isLineState (stateOf lexStates last) = true
  · refine .inr fun d hd => ?_
    by_contra hnot
    obtain ⟨next, hnext, hsome⟩ := accepts_after_line hline hnot
    exact hsome (hends d hd next hnext)
  · have hend : isBlockEnd (stateOf lexStates last) = true := by
      simpa [isBlockEnd, isLineState, haccepts] using hline
    left
    rw [hword]
    cases rest using List.reverseRecOn with
    | nil =>
      cases hlast
      -- The comment has more than one character.
      have hfresh := closingTested_stateOf start
      simp only [closingTested, Bool.and_eq_true, Bool.or_eq_true, hf, Bool.not_true, Bool.false_eq_true,
        false_or, Bool.not_eq_true'] at hfresh
      have hnot := hfresh.1.1.1.2
      rw [List.contains_iff_mem.mpr ((heads_of_edgeOn hedge).ends hend).2] at hnot
      cases hnot
    | append_singleton rest d =>
      rw [stateAfter_concat] at hlast
      obtain ⟨mid, hmid, hafter⟩ := Option.bind_eq_some_iff.mp hlast
      obtain ⟨edge', hedge', rfl⟩ := exists_edge_of_after hafter
      obtain ⟨rfl, hstar⟩ := (heads_of_edgeOn hedge').ends hend
      cases rest using List.reverseRecOn with
      | nil =>
        cases hmid
        obtain rfl := (heads_of_edgeOn hedge).star hstar
        exact List.suffix_refl _
      | append_singleton rest d =>
        rw [stateAfter_concat] at hmid
        obtain ⟨mid', -, hafter'⟩ := Option.bind_eq_some_iff.mp hmid
        obtain ⟨edge'', hedge'', rfl⟩ := exists_edge_of_after hafter'
        obtain rfl := (heads_of_edgeOn hedge'').star hstar
        exact ⟨c :: rest, by simp⟩

/-! ## Lines -/

/-- What may begin with the marker of a line: comments, and opening documentation tags. -/
def lineOpeners : List Symbol := [.comment, .summaryStart, .paramTag, .returnsStart]

/-- Only what may begin with the marker of a line is complete in the state. -/
def opensLine (number : Nat) : Bool :=
  (stateOf lexStates number).accepts.all lineOpeners.contains && (stateOf lexStates number).accepts.isSome

/-- What is tested of a state: the markers of lines lead to states of lines, and these to other ones. -/
def lineTested (number : Nat) (state : LexState) : Bool :=
  state.edges.all fun edge =>
    (!opensLine number || opensLine edge.target) &&
    (!(isFresh state && edge.on.contains '!') || opensLine edge.target) &&
    (!(slashStates.contains number && edge.on.contains '/') || opensLine edge.target) &&
    (!(isFresh state && edge.on.contains '/') || slashStates.contains edge.target)

theorem lineTested_lexStates : (lexStates.toList.zipIdx.all fun q => lineTested q.2 q.1) = true ∧
    (lexStates.toList.zipIdx.all fun q => q.1.accepts != some .slash || slashStates.contains q.2) = true := by
  decide +kernel

/-- Where an edge on the marker of a line leads. -/
structure Marked (number : Nat) (c : Char) (target : Nat) : Prop where
  line : opensLine number = true → opensLine target = true
  mark : isFresh (stateOf lexStates number) = true → c = '!' → opensLine target = true
  second : number ∈ slashStates → c = '/' → opensLine target = true
  first : isFresh (stateOf lexStates number) = true → c = '/' → target ∈ slashStates

theorem marked_of_edgeOn {edge : Edge} (h : (stateOf lexStates number).edgeOn c = some edge) :
    Marked number c edge.target := by
  have hmem := List.mem_of_find?_eq_some h
  have hon := contains_of_edgeOn h
  have htest : lineTested number (stateOf lexStates number) = true := by
    rw [stateOf] at hmem ⊢
    cases hs : lexStates[number]? with
    | none =>
      rw [hs] at hmem
      cases hmem
    | some state =>
      refine List.all_eq_true.mp lineTested_lexStates.1 (state, number) ?_
      rw [List.mem_zipIdx_iff_getElem?, Array.getElem?_toList]
      exact hs
  have hedge := List.all_eq_true.mp htest edge hmem
  simp only [Bool.and_eq_true, Bool.or_eq_true, Bool.not_eq_true', Bool.and_eq_false_iff] at hedge
  obtain ⟨⟨⟨h1, h2⟩, h3⟩, h4⟩ := hedge
  refine ⟨fun hl => ?_, fun hf hc => ?_, fun hin hc => ?_, fun hf hc => ?_⟩
  · simpa [hl] using h1
  · subst hc
    simpa [hf, hon] using h2
  · subst hc
    simpa [hin, hon] using h3
  · subst hc
    simpa [hf, hon] using h4

theorem opensLine_stateAfter (h : stateAfter number w = some last) (hl : opensLine number = true) :
    opensLine last = true := by
  induction w generalizing number with
  | nil =>
    cases h
    exact hl
  | cons d w ih =>
    obtain ⟨next, hafter, hnext⟩ := Option.bind_eq_some_iff.mp h
    obtain ⟨edge, hedge, rfl⟩ := exists_edge_of_after hafter
    exact ih hnext ((marked_of_edgeOn hedge).line hl)

/-- **What begins with the marker of a line is a comment or an opening documentation tag.** -/
theorem Walk.symbol_of_line (h : Walk p post last) (hl : IsLine p.word) : p.symbol ∈ lineOpeners := by
  obtain ⟨⟨start, c, edge, rest, hf, hedge, -, hword, hlast⟩, haccepts, -⟩ := h
  have hmarked := marked_of_edgeOn hedge
  have hopens : opensLine last = true := by
    rw [hword] at hl
    rcases hl with ⟨more, hmore⟩ | ⟨more, hmore⟩
    · obtain ⟨rfl, rfl⟩ := List.cons.inj hmore
      obtain ⟨next, hafter, hnext⟩ := Option.bind_eq_some_iff.mp hlast
      obtain ⟨edge', hedge', rfl⟩ := exists_edge_of_after hafter
      exact opensLine_stateAfter hnext ((marked_of_edgeOn hedge').second (hmarked.first hf rfl) rfl)
    · obtain ⟨rfl, rfl⟩ := List.cons.inj hmore
      exact opensLine_stateAfter hlast (hmarked.mark hf rfl)
  rw [opensLine, haccepts, Bool.and_eq_true] at hopens
  exact List.contains_iff_mem.mp hopens.1

/-- **A slash has its own text.** -/
theorem Walk.word_of_slash (h : Walk p post last) (hs : p.symbol = .slash) : p.word = ['/'] := by
  obtain ⟨⟨start, c, edge, rest, hf, hedge, hskips, hword, hlast⟩, haccepts, -⟩ := h
  have hin : last ∈ slashStates := by
    have hstate : lexStates[last]? = some (stateOf lexStates last) := by
      rw [stateOf] at haccepts ⊢
      cases hs : lexStates[last]? with
      | none =>
        rw [hs] at haccepts
        cases haccepts
      | some state => rfl
    have htest := List.all_eq_true.mp lineTested_lexStates.2 (stateOf lexStates last, last)
      (by rw [List.mem_zipIdx_iff_getElem?, Array.getElem?_toList]; exact hstate)
    rw [haccepts, hs] at htest
    simpa using htest
  have hbegun := (isFresh_target hedge).trans hskips
  cases rest using List.reverseRecOn with
  | nil =>
    cases hlast
    obtain ⟨-, rfl⟩ := (led_of_edgeOn hedge).slash hin
    exact hword
  | append_singleton rest d =>
    rw [stateAfter_concat] at hlast
    obtain ⟨mid, hmid, hafter⟩ := Option.bind_eq_some_iff.mp hlast
    have hfresh := ((led_of_after hafter).slash hin).1
    rw [not_fresh_stateAfter hbegun hmid] at hfresh
    cases hfresh

/-- The end of the text has no text. -/
theorem Walk.symbol_ne_end (h : Walk p post last) : p.symbol ≠ .endOfInput := by
  obtain ⟨⟨start, c, edge, rest, -, hedge, -, -, hlast⟩, haccepts, -⟩ := h
  rintro heq
  rw [heq] at haccepts
  cases rest using List.reverseRecOn with
  | nil =>
    cases hlast
    exact accepts_of_edge hedge haccepts
  | append_singleton rest d =>
    rw [stateAfter_concat] at hlast
    obtain ⟨mid, -, hafter⟩ := Option.bind_eq_some_iff.mp hlast
    obtain ⟨edge', hedge', rfl⟩ := exists_edge_of_after hafter
    exact accepts_of_edge hedge' haccepts

/-! ## Bodies -/

/-- The text begins with the body of a documentation tag or with the closing tag. -/
def Closes (tag : DocTag) (text : List Char) : Prop :=
  (∃ q, bodyPiece tag text = some q) ∨ wholeTag tag <+: text

theorem closes_of_passedOver {body : List Char} (h : PassedOver (wholeTag tag) body) (rest : List Char) :
    Closes tag (body ++ wholeTag tag ++ rest) := by
  by_cases hne : body = []
  · subst hne
    exact .inr ⟨rest, rfl⟩
  · exact .inl ⟨_, bodyPiece_eq_some_iff.mpr ⟨body, rest, rfl, h, hne, rfl⟩⟩

theorem Closes.exists_body (h : Closes tag text) :
    ∃ body rest, text = body ++ wholeTag tag ++ rest ∧ PassedOver (wholeTag tag) body := by
  rcases h with ⟨q, hq⟩ | ⟨rest, rfl⟩
  · obtain ⟨body, rest, htext, hbody, -⟩ := bodyPiece_eq_some_iff.mp hq
    exact ⟨body, rest, htext, hbody⟩
  · exact ⟨[], rest, rfl, .nil⟩

/-- No closing tag ends like a comment in the middle. -/
theorem begun_ne_comment : ∀ tag : DocTag, ∀ begun ∈ (wholeTag tag).inits, begun = [] ∨
    ¬ begun <:+ ['*', '/'] ∧ ¬ ['*', '/'] <:+ begun := by
  intro tag
  cases tag <;> decide

/-- No line ends inside a closing tag. -/
theorem lineEnds_not_closing (tag : DocTag) (hc : c ∈ lineEnds) : c ∉ wholeTag tag := by
  have hall : ((wholeTag tag).all fun d => !lineEnds.contains d) = true := by
    cases tag <;> decide +kernel
  intro hin
  have hnot := List.all_eq_true.mp hall c hin
  rw [List.contains_iff_mem.mpr hc] at hnot
  cases hnot

/-- **What closes behind a comment closes in front of it.** -/
theorem closes_of_comment (hf : isFresh (stateOf lexStates number) = true) (h : piece? number text = some p)
    (hs : p.symbol = .comment) (hne : p.word ≠ []) (htext : text = p.blank ++ (p.word ++ post))
    (hpost : Closes tag post) : Closes tag text := by
  obtain ⟨last, hwalk⟩ := exists_walk hf h hne htext
  obtain ⟨body, begun, hsplit, hbody, hbegun⟩ := exists_passedOver (wholeTag tag) rfl (p.blank ++ p.word)
  have hparts : text = body ++ begun ++ post := by
    rw [← hsplit, htext, List.append_assoc]
  obtain ⟨inner, more, hinner, hpassed⟩ := hpost.exists_body
  rcases hbegun with ⟨rest, rfl⟩ | ⟨hpre, hproper⟩
  · rw [hparts, ← List.append_assoc, List.append_assoc _ rest]
    exact closes_of_passedOver hbody _
  · by_cases hnil : begun = []
    · subst hnil
      rw [hparts, hinner, List.append_nil, ← List.append_assoc, ← List.append_assoc]
      exact closes_of_passedOver (hbody.append hpassed) more
    rcases hwalk.comment_ends hs with hstar | hline
    · -- An attempt that is under way at the end would end in an asterisk and a slash.
      obtain ⟨h1, h2⟩ := (begun_ne_comment tag begun ((List.mem_inits _ _).mpr hpre)).resolve_left hnil
      have hsuffix : ['*', '/'] <:+ p.blank ++ p.word := hstar.trans (List.suffix_append _ _)
      rcases List.suffix_or_suffix_of_suffix (hsplit ▸ List.suffix_append body begun) hsuffix with hin | hin
      · exact absurd hin h1
      · exact absurd hin h2
    · -- An attempt that is under way fails at the end of the line.
      obtain ⟨first, tail, hbegins⟩ : ∃ first tail, begun = first :: tail := List.exists_cons_of_ne_nil hnil
      obtain rfl : first = '<' := by
        rw [hbegins, wholeTag, List.cons_prefix_cons] at hpre
        exact hpre.1
      cases inner with
      | nil =>
        have hin := lineEnds_not_closing tag (hline '<' (by rw [hinner]; rfl))
        exact absurd List.mem_cons_self hin
      | cons c inner =>
        have hend : c ∈ lineEnds := hline c (by rw [hinner]; rfl)
        have hfail : ¬ '<' :: (tail ++ [c]) <+: wholeTag tag :=
          fun hp => lineEnds_not_closing tag hend (hp.subset (by simp))
        have hinner' : PassedOver (wholeTag tag) inner := by
          cases hpassed with
          | other _ hrest => exact hrest
          | attempt => exact absurd List.mem_cons_self (lineEnds_not_closing tag hend)
        have hattempt := hbody.append (.attempt (hbegins ▸ hpre) (hbegins ▸ hproper) hfail hinner')
        have hwhole : text = (body ++ '<' :: (tail ++ c :: inner)) ++ wholeTag tag ++ more := by
          rw [hparts, hbegins, hinner]
          simp
        rw [hwhole]
        exact closes_of_passedOver hattempt more

/-- **A closing tag that is read behind blanks closes in front of them.** -/
theorem closes_of_closing (hn : number ∈ lexStarts) (h : piece? number text = some p)
    (hs : p.symbol = closingSymbol tag) (hne : p.word ≠ []) : Closes tag text := by
  obtain ⟨post, htext⟩ := exists_post h
  obtain ⟨last, hwalk⟩ := exists_walk (isFresh_of_mem hn) h hne htext
  have hblank : PassedOver (wholeTag tag) p.blank := by
    have hskips := skips_of_piece? hn h
    generalize p.blank = blank at hskips
    induction blank with
    | nil => exact .nil
    | cons c blank ih =>
      obtain ⟨hc, hblank⟩ := List.forall_mem_cons.mp hskips
      refine .other ?_ (ih hblank)
      rintro rfl
      exact absurd (mem_blanks hn hc) (by decide +kernel)
  rw [htext, hwalk.word_of_closing hs, ← List.append_assoc]
  exact closes_of_passedOver hblank post

/-! ## Where a closing tag comes at once -/

/-- In the start state a closing tag is read. -/
def readsClosing (number : Nat) (tag : DocTag) : Bool :=
  match (stateOf lexStates number).edgeOn '<' with
  | some edge => !edge.skips && (stateAfter edge.target ('/' :: closingTag tag)).any fun last =>
      stateOf lexStates last == { accepts := some (closingSymbol tag) }
  | none => false

theorem piece?_closing (h : readsClosing number tag = true) (rest : List Char) :
    piece? number (wholeTag tag ++ rest) = some ⟨closingSymbol tag, [], wholeTag tag⟩ := by
  rw [readsClosing] at h
  split at h
  · rename_i edge hedge
    rw [Bool.and_eq_true, Bool.not_eq_true', Option.any_eq_true] at h
    obtain ⟨hskips, last, hlast, hstate⟩ := h
    rw [beq_iff_eq] at hstate
    have hend : longest last rest = some (closingSymbol tag, []) := by
      rw [longest_of_no_edges (by rw [hstate]), complete, hstate]
      rfl
    rw [wholeTag, List.cons_append, List.cons_append, piece?_go hedge hskips,
      ← List.cons_append, longest_along hlast hend, List.append_nil]
    rfl
  · cases h

/-- **A closing tag that comes at once is read** in every parser state that expects it. -/
theorem pieceAt_closing {state : StateId} (h : readsClosing (lexStartAt state) tag = true)
    (hdoc : ∀ t ∈ docBodyAt state, t = tag) (rest : List Char) :
    pieceAt state (wholeTag tag ++ rest) = some ⟨closingSymbol tag, [], wholeTag tag⟩ := by
  have hbody : (docBodyAt state).bind (bodyPiece · (wholeTag tag ++ rest)) = none := by
    cases ht : docBodyAt state with
    | none => rfl
    | some t =>
      rw [hdoc t ht, Option.bind_some]
      exact bodyPiece_of_closed (List.prefix_append ..)
  rw [pieceAt, hbody, Option.none_or, piece?_closing h, Option.some_or]

/-! ## The symbols of pieces -/

theorem wordKind_mem (word : List Char) : (wordKind word).1 ∈ .identifier :: reservedWords := by
  have hscan := scan_spec (tested_of_all stateTested_keywords) isFresh_keywords ⟨word, 0⟩
  rw [wordKind]
  split
  · exact List.mem_cons_self
  · rename_i keyword finish heq
    split
    · exact List.mem_cons_of_mem _ (hscan keyword finish heq).1
    · exact List.mem_cons_self

theorem Piece.symbol_token (h : p.symbol ≠ .identifier) : p.token.symbol = p.symbol := by
  rw [Piece.token, if_neg h]

/-- A token that is no word has the symbol of its piece. -/
theorem Piece.symbol_eq {symbol : Symbol} (h : p.token.symbol = symbol)
    (hs : symbol ∉ .identifier :: reservedWords) : p.symbol = symbol := by
  by_cases hname : p.symbol = .identifier
  · have hmem := wordKind_mem p.word
    rw [Piece.token, if_pos hname] at h
    rw [show (wordKind p.word).1 = symbol from h] at hmem
    exact absurd hmem hs
  · rw [← h, p.symbol_token hname]

/-- Outside of the bodies of documentation tags a piece is read by the lexical automaton. -/
theorem exists_start_of_pieceAt {state : StateId} {text : List Char} (h : pieceAt state text = some p)
    (hnone : (docBodyAt state).bind (bodyPiece · text) = none) :
    ∃ number ∈ lexStarts, piece? number text = some p := by
  rw [pieceAt, hnone, Option.none_or, Option.or_eq_some_iff] at h
  rcases h with h | ⟨-, h⟩
  · exact ⟨_, lexStartAt_mem state, h⟩
  · exact ⟨0, List.contains_iff_mem.mp blanksTested_lexStarts.2.2, h⟩

theorem exists_walk_of_pieceAt {state : StateId} {text post : List Char} (h : pieceAt state text = some p)
    (hbody : ∀ tag, p.symbol ≠ bodySymbol tag) (hne : p.word ≠ []) (htext : text = p.blank ++ (p.word ++ post)) :
    ∃ last, Walk p post last := by
  have hstart : ∃ number ∈ lexStarts, piece? number text = some p := by
    cases hb : (docBodyAt state).bind (bodyPiece · text) with
    | none => exact exists_start_of_pieceAt h hb
    | some q =>
      rw [pieceAt, hb, Option.some_or, Option.some_or] at h
      cases h
      obtain ⟨tag, -, htag⟩ := Option.bind_eq_some_iff.mp hb
      obtain ⟨body, rest, -, -, -, rfl⟩ := bodyPiece_eq_some_iff.mp htag
      exact absurd rfl (hbody tag)
  obtain ⟨number, hn, hp⟩ := hstart
  exact exists_walk (isFresh_of_mem hn) hp hne htext

end

end Cicode.Lex
