import Cicode.Proofs.Program.Attributes

/-!
# The contents of tags

The content of a tag is cleaned by words: what stands around them, between them and in front of the
markers of its lines leaves no trace.  A blank cuts a text in two for the purpose of its words
(`words_append_blank`), and a line feed for the purpose of its lines, so that neither the carriage return
of a line break nor the empty piece after the last line feed counts (`contentWords_eq`).

Main statement (`layout_leaves_no_trace`): however lines of words are laid out behind their markers,
cleaning joins all the words by single spaces; what has been cleaned is neat and stays as it is.
-/

namespace Cicode.Text

/-! ## Pieces -/

theorem consHead_append (c : Char) {pieces : List (List Char)} (h : pieces ≠ []) (rest : List (List Char)) :
    consHead c (pieces ++ rest) = consHead c pieces ++ rest := by
  cases pieces with
  | nil => exact absurd rfl h
  | cons => rfl

theorem splitBlanks_ne_nil (s : List Char) : splitBlanks s ≠ [] := by
  cases s with
  | nil => exact List.cons_ne_nil _ _
  | cons c s =>
    rw [splitBlanks]
    split
    · exact List.cons_ne_nil _ _
    · cases splitBlanks s <;> exact List.cons_ne_nil _ _

theorem splitLines_ne_nil (s : List Char) : splitLines s ≠ [] := by
  cases s with
  | nil => exact List.cons_ne_nil _ _
  | cons c s =>
    rw [splitLines]
    split
    · exact List.cons_ne_nil _ _
    · cases splitLines s <;> exact List.cons_ne_nil _ _

theorem splitBlanks_append_blank (s : List Char) {c : Char} (hc : isBlank c = true) (t : List Char) :
    splitBlanks (s ++ c :: t) = splitBlanks s ++ splitBlanks t := by
  induction s with
  | nil => exact if_pos hc
  | cons d s ih =>
    rw [List.cons_append, splitBlanks, splitBlanks, ih]
    split
    · rfl
    · exact consHead_append d (splitBlanks_ne_nil s) _

theorem splitLines_append_feed (s t : List Char) :
    splitLines (s ++ '\n' :: t) = splitLines s ++ splitLines t := by
  induction s with
  | nil => rfl
  | cons d s ih =>
    rw [List.cons_append, splitLines, splitLines, ih]
    split
    · rfl
    · exact consHead_append d (splitLines_ne_nil s) _

theorem splitLines_line {s : List Char} (h : '\n' ∉ s) : splitLines s = [s] := by
  induction s with
  | nil => rfl
  | cons c s ih =>
    have hc : c ≠ '\n' := fun hc => h (hc ▸ List.mem_cons_self)
    have hs : '\n' ∉ s := fun hs => h (List.mem_cons_of_mem c hs)
    rw [splitLines, if_neg hc, ih hs, consHead]

/-! ## Words -/

/-- A text can stand as a word. -/
def IsWord (word : List Char) : Prop := word ≠ [] ∧ ∀ c ∈ word, isBlank c = false

@[simp] theorem words_nil : words [] = [] := rfl

/-- A blank cuts a text in two. -/
theorem words_append_blank (s : List Char) {c : Char} (hc : isBlank c = true) (t : List Char) :
    words (s ++ c :: t) = words s ++ words t := by
  rw [words, splitBlanks_append_blank s hc, List.filter_append]
  rfl

theorem words_cons_blank {c : Char} (hc : isBlank c = true) (t : List Char) : words (c :: t) = words t :=
  words_append_blank [] hc t

theorem words_word {word : List Char} (h : IsWord word) : words word = [word] := by
  have hsplit : ∀ s : List Char, (∀ c ∈ s, isBlank c = false) → splitBlanks s = [s] := by
    intro s hs
    induction s with
    | nil => rfl
    | cons c s ih =>
      obtain ⟨hc, hs⟩ := List.forall_mem_cons.mp hs
      rw [splitBlanks, if_neg (by simp [hc]), ih hs, consHead]
  rw [words, hsplit word h.2, List.filter_cons_of_pos]
  · rfl
  · cases word with
    | nil => exact absurd rfl h.1
    | cons => rfl

/-- A word ends at a blank or with the text. -/
theorem words_word_append {word rest : List Char} (h : IsWord word)
    (hrest : ∀ c ∈ rest.head?, isBlank c = true) : words (word ++ rest) = word :: words rest := by
  cases rest with
  | nil => rw [List.append_nil, words_word h, words_nil]
  | cons c rest =>
    have hc : isBlank c = true := hrest c rfl
    rw [words_append_blank word hc, words_word h, words_cons_blank hc]
    rfl

theorem words_trimStart (s : List Char) : words (trimStart s) = words s := by
  induction s with
  | nil => rfl
  | cons c s ih =>
    by_cases hc : isBlank c = true
    · rw [trimStart, List.dropWhile_cons_of_pos hc, words_cons_blank hc]
      exact ih
    · rw [trimStart, List.dropWhile_cons_of_neg hc]

/-- No piece holds a blank. -/
theorem not_blank_of_mem_splitBlanks {s piece : List Char} (h : piece ∈ splitBlanks s) :
    ∀ c ∈ piece, isBlank c = false := by
  induction s generalizing piece with
  | nil =>
    rw [List.mem_singleton.mp h]
    exact List.forall_mem_nil _
  | cons d s ih =>
    rw [splitBlanks] at h
    split at h
    · rcases List.mem_cons.mp h with rfl | h
      · exact List.forall_mem_nil _
      · exact ih h
    · rename_i hd
      have hd : isBlank d = false := Bool.eq_false_of_not_eq_true hd
      obtain ⟨first, rest, heq⟩ := List.exists_cons_of_ne_nil (splitBlanks_ne_nil s)
      rw [heq, consHead] at h
      rcases List.mem_cons.mp h with rfl | h
      · exact List.forall_mem_cons.mpr ⟨hd, ih (heq ▸ List.mem_cons_self)⟩
      · exact ih (heq ▸ List.mem_cons_of_mem first h)

/-- The words of a text are words. -/
theorem isWord_of_mem_words {s word : List Char} (h : word ∈ words s) : IsWord word := by
  obtain ⟨hmem, hne⟩ := List.mem_filter.mp h
  exact ⟨by simpa using hne, not_blank_of_mem_splitBlanks hmem⟩

/-! ## Joined words -/

/-- A text without needless white space: there is none at its ends, no two white space characters stand
together, and those there are do not break the line. -/
structure IsNeat (s : List Char) : Prop where
  start : ∀ c ∈ s.head?, isBlank c = false
  stop : ∀ c ∈ s.getLast?, isBlank c = false
  single : s.IsChain fun a b => isBlank a = true → isBlank b = false
  spaces : ∀ c ∈ s, isBlank c = true → c = ' '
  oneLine : '\n' ∉ s ∧ '\r' ∉ s

/-- Words joined by single spaces. -/
def joined (ws : List (List Char)) : List Char := ([' '] : List Char).intercalate ws

theorem joined_cons_cons (w w' : List Char) (ws : List (List Char)) :
    joined (w :: w' :: ws) = w ++ ' ' :: joined (w' :: ws) := by
  rw [joined, List.intercalate_cons_cons, List.append_assoc]
  rfl

theorem joined_singleton (w : List Char) : joined [w] = w := List.intercalate_singleton

section

variable {ws : List (List Char)}

/-- Joined words are found again. -/
theorem words_joined (h : ∀ w ∈ ws, IsWord w) : words (joined ws) = ws := by
  induction ws with
  | nil => rfl
  | cons w ws ih =>
    obtain ⟨hw, hws⟩ := List.forall_mem_cons.mp h
    cases ws with
    | nil => rw [joined_singleton, words_word hw]
    | cons w' ws =>
      rw [joined_cons_cons, words_append_blank w (by decide), words_word hw, ih hws]
      rfl

theorem start_joined (h : ∀ w ∈ ws, IsWord w) : ∀ c ∈ (joined ws).head?, isBlank c = false := by
  cases ws with
  | nil => simp [joined]
  | cons w ws =>
    obtain ⟨hne, hplain⟩ := h w List.mem_cons_self
    obtain ⟨d, t, rfl⟩ := List.exists_cons_of_ne_nil hne
    have hhead : (joined ((d :: t) :: ws)).head? = some d := by
      cases ws with
      | nil => rw [joined_singleton]; rfl
      | cons w' ws => rw [joined_cons_cons]; rfl
    rw [hhead]
    rintro c ⟨⟩
    exact hplain _ List.mem_cons_self

theorem joined_ne_nil (h : ∀ w ∈ ws, IsWord w) (hws : ws ≠ []) : joined ws ≠ [] := by
  rintro heq
  have hwords := words_joined h
  rw [heq] at hwords
  exact hws hwords.symm

theorem stop_joined (h : ∀ w ∈ ws, IsWord w) : ∀ c ∈ (joined ws).getLast?, isBlank c = false := by
  induction ws with
  | nil => simp [joined]
  | cons w ws ih =>
    obtain ⟨hw, hws⟩ := List.forall_mem_cons.mp h
    cases ws with
    | nil =>
      rw [joined_singleton]
      exact fun c hc => hw.2 c (List.mem_of_getLast? hc)
    | cons w' ws =>
      have hne := joined_ne_nil hws (List.cons_ne_nil w' ws)
      rw [joined_cons_cons, List.getLast?_append_of_ne_nil _ (List.cons_ne_nil _ _),
        List.getLast?_cons_of_ne_nil hne]
      exact ih hws

/-- The only white space in joined words is the space. -/
theorem spaces_joined (h : ∀ w ∈ ws, IsWord w) : ∀ c ∈ joined ws, isBlank c = true → c = ' ' := by
  induction ws with
  | nil => simp [joined]
  | cons w ws ih =>
    obtain ⟨hw, hws⟩ := List.forall_mem_cons.mp h
    have hword : ∀ c ∈ w, isBlank c = true → c = ' ' := fun c hc hblank => by
      rw [hw.2 c hc] at hblank
      cases hblank
    cases ws with
    | nil =>
      rw [joined_singleton]
      exact hword
    | cons w' ws =>
      rw [joined_cons_cons]
      exact List.forall_mem_append.mpr ⟨hword, List.forall_mem_cons.mpr ⟨fun _ => rfl, ih hws⟩⟩

/-- Between two words there is one space, and the next word does not begin with white space. -/
theorem single_joined (h : ∀ w ∈ ws, IsWord w) :
    (joined ws).IsChain fun a b => isBlank a = true → isBlank b = false := by
  have hword : ∀ w, IsWord w → w.IsChain fun a b => isBlank a = true → isBlank b = false := by
    intro w hw
    refine (List.pairwise_of_forall_mem_list ?_).isChain
    exact fun a _ b hb _ => hw.2 b hb
  induction ws with
  | nil => exact .nil
  | cons w ws ih =>
    obtain ⟨hw, hws⟩ := List.forall_mem_cons.mp h
    cases ws with
    | nil =>
      rw [joined_singleton]
      exact hword w hw
    | cons w' ws =>
      rw [joined_cons_cons, List.isChain_append]
      refine ⟨hword w hw, List.isChain_cons.mpr ⟨fun b hb _ => start_joined hws b hb, ih hws⟩, ?_⟩
      intro a ha b _ hblank
      rw [hw.2 a (List.mem_of_getLast? ha)] at hblank
      cases hblank

/-- **Joined words are neat.** -/
theorem isNeat_joined (h : ∀ w ∈ ws, IsWord w) : IsNeat (joined ws) where
  start := start_joined h
  stop := stop_joined h
  single := single_joined h
  spaces := spaces_joined h
  oneLine := ⟨fun hc => absurd (spaces_joined h _ hc (by decide)) (by decide),
    fun hc => absurd (spaces_joined h _ hc (by decide)) (by decide)⟩

end

end Cicode.Text

namespace Cicode.Program.Doc

open Text

/-! ## Lines -/

section

variable {line rest : List Char}

theorem stripMarker_slashes (h : trimStart line = '/' :: '/' :: rest) : stripMarker line = rest := by
  rw [stripMarker, h]
  rfl

theorem stripMarker_mark (h : trimStart line = '!' :: rest) : stripMarker line = rest := by
  rw [stripMarker, h]
  rfl

/-- A line without a marker. -/
theorem stripMarker_unmarked (hslashes : ∀ rest, trimStart line ≠ '/' :: '/' :: rest)
    (hmark : ∀ rest, trimStart line ≠ '!' :: rest) : stripMarker line = trimStart line := by
  rw [stripMarker]
  split
  · rename_i heq
    exact absurd heq (hslashes _)
  · rename_i heq
    exact absurd heq (hmark _)
  · rfl

/-- A line begins with a marker, or has none. -/
theorem marker_cases (line : List Char) :
    (∃ rest, trimStart line = '/' :: '/' :: rest) ∨ (∃ rest, trimStart line = '!' :: rest) ∨
      (∀ rest, trimStart line ≠ '/' :: '/' :: rest) ∧ ∀ rest, trimStart line ≠ '!' :: rest := by
  by_cases hslashes : ∃ rest, trimStart line = '/' :: '/' :: rest
  · exact .inl hslashes
  by_cases hmark : ∃ rest, trimStart line = '!' :: rest
  · exact .inr (.inl hmark)
  · exact .inr (.inr ⟨not_exists.mp hslashes, not_exists.mp hmark⟩)

theorem words_append_return (s : List Char) : words (s ++ ['\r']) = words s := by
  rw [words_append_blank s (by decide), words_nil, List.append_nil]

/-- A carriage return at the end of a line does not count. -/
theorem words_stripMarker_append_return (line : List Char) :
    words (stripMarker (line ++ ['\r'])) = words (stripMarker line) := by
  by_cases hline : trimStart line = []
  · have hlonger : trimStart (line ++ ['\r']) = [] := by
      rw [trimStart_append (List.dropWhile_eq_nil_iff.mp hline)]
      decide
    rw [stripMarker, stripMarker, hlonger, hline]
  have hlonger : trimStart (line ++ ['\r']) = trimStart line ++ ['\r'] := by
    have hne : ¬(line.dropWhile isBlank).isEmpty = true := fun h => hline (List.isEmpty_iff.mp h)
    rw [trimStart, List.dropWhile_append, if_neg hne]
    rfl
  rcases marker_cases line with ⟨rest, heq⟩ | ⟨rest, heq⟩ | ⟨hslashes, hmark⟩
  · rw [heq] at hlonger
    rw [stripMarker_slashes heq, stripMarker_slashes hlonger]
    exact words_append_return rest
  · rw [heq] at hlonger
    rw [stripMarker_mark heq, stripMarker_mark hlonger]
    exact words_append_return rest
  · rw [stripMarker_unmarked hslashes hmark, stripMarker_unmarked, hlonger, words_append_return]
    -- The return makes no marker: what is in front of it is no marker, and it is not part of one itself.
    · intro rest heq
      rw [hlonger] at heq
      rcases htrim : trimStart line with _ | ⟨c, _ | ⟨d, t⟩⟩
      · exact hline htrim
      · rw [htrim] at heq
        exact absurd (List.cons.inj (List.cons.inj heq).2).1 (by decide)
      · rw [htrim] at heq
        injection heq with hc heq
        injection heq with hd
        exact hslashes t (by rw [htrim, hc, hd])
    · intro rest heq
      rw [hlonger] at heq
      cases htrim : trimStart line with
      | nil => exact hline htrim
      | cons c t =>
        rw [htrim] at heq
        injection heq with hc
        exact hmark t (by rw [htrim, hc])

theorem dropReturn_cases (line : List Char) :
    dropReturn line = line ∨ line = dropReturn line ++ ['\r'] := by
  rw [dropReturn]
  split
  · rename_i rest heq
    refine .inr ?_
    rw [← List.reverse_reverse line, heq, List.reverse_cons]
  · exact .inl rfl

theorem words_dropReturn (line : List Char) : words (dropReturn line) = words line := by
  rcases dropReturn_cases line with heq | heq
  · rw [heq]
  · conv_rhs => rw [heq]
    exact (words_append_return _).symm

theorem words_stripMarker_dropReturn (line : List Char) :
    words (stripMarker (dropReturn line)) = words (stripMarker line) := by
  rcases dropReturn_cases line with heq | heq
  · rw [heq]
  · conv_rhs => rw [heq]
    exact (words_stripMarker_append_return _).symm

end

/-- The words of the pieces between line feeds: the markers are dropped from all but the first. -/
def pieceWords : List (List Char) → List (List Char)
  | [] => []
  | first :: rest => words first ++ rest.flatMap fun line => words (stripMarker line)

theorem pieceWords_append_singleton {pieces : List (List Char)} (h : pieces ≠ []) (last : List Char) :
    pieceWords (pieces ++ [last]) = pieceWords pieces ++ words (stripMarker last) := by
  cases pieces with
  | nil => exact absurd rfl h
  | cons first rest =>
    rw [List.cons_append, pieceWords, pieceWords, List.flatMap_append, List.flatMap_singleton,
      List.append_assoc]

theorem pieceWords_map_dropReturn (pieces : List (List Char)) :
    pieceWords (pieces.map dropReturn) = pieceWords pieces := by
  cases pieces with
  | nil => rfl
  | cons first rest =>
    rw [List.map_cons, pieceWords, pieceWords, words_dropReturn, List.flatMap_map]
    simp only [words_stripMarker_dropReturn]

/-- **What does not count in a content**: the carriage returns at the ends of its lines, and the nothing
after its last line feed. -/
theorem contentWords_eq (s : List Char) : contentWords s = pieceWords (splitLines s) := by
  have hlines : contentWords s = pieceWords (lines s) := by
    rw [contentWords]
    cases lines s <;> rfl
  obtain ⟨before, last, hsplit⟩ : ∃ before last, splitLines s = before ++ [last] :=
    ⟨_, _, (List.dropLast_append_getLast (splitLines_ne_nil s)).symm⟩
  have hreverse : (splitLines s).reverse = last :: before.reverse := by rw [hsplit]; simp
  rw [hlines, lines, hreverse, hsplit]
  cases last with
  | nil =>
    change pieceWords (before.reverse.map dropReturn).reverse = _
    rw [← List.map_reverse, List.reverse_reverse, pieceWords_map_dropReturn]
    cases before with
    | nil => rfl
    | cons first before =>
      rw [pieceWords_append_singleton (List.cons_ne_nil first before)]
      exact (List.append_nil _).symm
  | cons c t =>
    change pieceWords ((c :: t) :: before.reverse.map dropReturn).reverse = _
    rw [List.reverse_cons, ← List.map_reverse, List.reverse_reverse]
    cases before with
    | nil => rfl
    | cons first before =>
      rw [pieceWords_append_singleton (by simp), pieceWords_append_singleton (by simp),
        pieceWords_map_dropReturn]

/-! ## Layouts -/

/-- White space that does not end a line. -/
def Indents (s : List Char) : Prop := AllBlank s ∧ '\n' ∉ s

/-- A line on which words are laid out: there is white space between two of them, and there may be some
at both ends. -/
inductive LaysLine : List (List Char) → List Char → Prop
  | nil {blanks : List Char} : Indents blanks → LaysLine [] blanks
  | cons {blanks word rest : List Char} {ws : List (List Char)} :
    Indents blanks → IsWord word → LaysLine ws rest → (∀ c ∈ rest.head?, isBlank c = true) →
    LaysLine (word :: ws) (blanks ++ word ++ rest)

/-- Further lines of words: each begins behind a line break, with a marker that may be indented. -/
inductive LaysLines : List (List (List Char)) → List Char → Prop
  | nil : LaysLines [] []
  | cons {lineBreak indent marker line rest : List Char} {ws : List (List Char)}
    {more : List (List (List Char))} :
    lineBreak = ['\n'] ∨ lineBreak = ['\r', '\n'] → Indents indent →
    marker = ['/', '/'] ∨ marker = ['!'] → LaysLine ws line → LaysLines more rest →
    LaysLines (ws :: more) (lineBreak ++ indent ++ marker ++ line ++ rest)

/-- A content on which lines of words are laid out: the first line has no marker. -/
inductive LaysOut : List (List (List Char)) → List Char → Prop
  | intro {ws : List (List Char)} {more : List (List (List Char))} {line rest : List Char} :
    LaysLine ws line → LaysLines more rest → LaysOut (ws :: more) (line ++ rest)

section

variable {ws : List (List Char)} {more : List (List (List Char))} {s line rest : List Char}

theorem words_append_of_allBlank (h : AllBlank s) (rest : List Char) : words (s ++ rest) = words rest := by
  rw [← words_trimStart, trimStart_append h, words_trimStart]

theorem LaysLine.oneLine (h : LaysLine ws line) : '\n' ∉ line := by
  induction h with
  | nil hblanks => exact hblanks.2
  | cons hblanks hword _ _ ih =>
    intro hc
    rcases List.mem_append.mp hc with hc | hc
    · rcases List.mem_append.mp hc with hc | hc
      · exact hblanks.2 hc
      · exact absurd (hword.2 _ hc) (by decide)
    · exact ih hc

theorem LaysLine.words_eq (h : LaysLine ws line) : words line = ws := by
  induction h with
  | @nil blanks hblanks => rw [← List.append_nil blanks, words_append_of_allBlank hblanks.1, words_nil]
  | cons hblanks hword _ hrest ih =>
    rw [List.append_assoc, words_append_of_allBlank hblanks.1, words_word_append hword hrest, ih]

/-- A marker is dropped, and nothing behind it. -/
theorem words_marked {indent marker : List Char} (hindent : Indents indent)
    (hmarker : marker = ['/', '/'] ∨ marker = ['!']) (line : List Char) :
    words (stripMarker (indent ++ marker ++ line)) = words line := by
  have htrim : trimStart (indent ++ marker ++ line) = marker ++ line := by
    rw [List.append_assoc, trimStart_append hindent.1]
    rcases hmarker with rfl | rfl <;> exact trimStart_cons (by decide) _
  rcases hmarker with rfl | rfl
  · exact congrArg words (stripMarker_slashes htrim)
  · exact congrArg words (stripMarker_mark htrim)

/-- Further lines add pieces of their own, and at most a carriage return to the line before them. -/
theorem LaysLines.splitLines_eq (h : LaysLines more rest) (hline : '\n' ∉ line) :
    ∃ last pieces, splitLines (line ++ rest) = (line ++ last) :: pieces ∧ (last = [] ∨ last = ['\r']) ∧
      (pieces.flatMap fun piece => words (stripMarker piece)) = more.flatten := by
  induction h generalizing line with
  | nil => exact ⟨[], [], by rw [List.append_nil, splitLines_line hline], .inl rfl, rfl⟩
  | @cons lineBreak indent marker next rest ws more hbreak hindent hmarker hnext hrest ih =>
    have hmarked : '\n' ∉ indent ++ marker ++ next := by
      have hmark : '\n' ∉ marker := by rcases hmarker with rfl | rfl <;> decide
      simp only [List.mem_append, not_or]
      exact ⟨⟨hindent.2, hmark⟩, hnext.oneLine⟩
    obtain ⟨last, pieces, hpieces, hlast, hwords⟩ := ih hmarked
    obtain ⟨cr, hcr, hfeed⟩ : ∃ cr, (cr = [] ∨ cr = ['\r']) ∧ lineBreak = cr ++ ['\n'] := by
      rcases hbreak with rfl | rfl
      · exact ⟨[], .inl rfl, rfl⟩
      · exact ⟨['\r'], .inr rfl, rfl⟩
    have hbefore : '\n' ∉ line ++ cr := by
      rw [List.mem_append, not_or]
      exact ⟨hline, by rcases hcr with rfl | rfl <;> decide⟩
    refine ⟨cr, (indent ++ marker ++ next ++ last) :: pieces, ?_, hcr, ?_⟩
    · have htext : line ++ (lineBreak ++ indent ++ marker ++ next ++ rest) =
          (line ++ cr) ++ '\n' :: (indent ++ marker ++ next ++ rest) := by simp [hfeed]
      rw [htext, splitLines_append_feed, splitLines_line hbefore, hpieces]
      rfl
    · have hfirst : words (stripMarker (indent ++ marker ++ next ++ last)) = ws := by
        rw [← hnext.words_eq, ← words_marked hindent hmarker next]
        rcases hlast with rfl | rfl
        · rw [List.append_nil]
        · exact words_stripMarker_append_return _
      rw [List.flatMap_cons, hfirst, hwords, List.flatten_cons]

/-- The words of a content are those that are laid out on it. -/
theorem LaysOut.contentWords_eq {lines : List (List (List Char))} (h : LaysOut lines s) :
    contentWords s = lines.flatten := by
  obtain ⟨hline, hmore⟩ := h
  obtain ⟨last, pieces, hpieces, hlast, hwords⟩ := hmore.splitLines_eq hline.oneLine
  rw [Doc.contentWords_eq, hpieces, pieceWords, hwords, List.flatten_cons, ← hline.words_eq]
  rcases hlast with rfl | rfl
  · rw [List.append_nil]
  · rw [words_append_return]

end

/-! ## Cleaning -/

theorem clean_eq (content : String) : clean content = String.ofList (joined (contentWords content.toList)) :=
  rfl

theorem isWord_of_mem_contentWords {s word : List Char} (h : word ∈ contentWords s) : IsWord word := by
  rw [contentWords_eq] at h
  obtain ⟨first, rest, hsplit⟩ := List.exists_cons_of_ne_nil (splitLines_ne_nil s)
  rw [hsplit, pieceWords, List.mem_append] at h
  rcases h with h | h
  · exact isWord_of_mem_words h
  · obtain ⟨line, -, h⟩ := List.mem_flatMap.mp h
    exact isWord_of_mem_words h

/-- What has been cleaned is neat. -/
theorem isNeat_clean (content : String) : IsNeat (clean content).toList := by
  rw [clean_eq, String.toList_ofList]
  exact isNeat_joined fun _ => isWord_of_mem_contentWords

/-- Joined words are one line, whose words they are. -/
theorem contentWords_joined {ws : List (List Char)} (h : ∀ w ∈ ws, IsWord w) :
    contentWords (joined ws) = ws := by
  rw [contentWords_eq, splitLines_line (isNeat_joined h).oneLine.1, pieceWords, words_joined h]
  exact List.append_nil ws

/-- What has been cleaned stays as it is. -/
theorem clean_clean (content : String) : clean (clean content) = clean content := by
  rw [clean_eq, clean_eq, String.toList_ofList, contentWords_joined fun _ => isWord_of_mem_contentWords]

/-- **The layout of a content leaves no trace.**  However lines of words are laid out, cleaning joins all
the words by single spaces.  Cleaning a second time changes nothing, and what has been cleaned is neat. -/
theorem layout_leaves_no_trace {lines : List (List (List Char))} {s : List Char} (h : LaysOut lines s)
    (content : String) :
    clean (String.ofList s) = String.ofList (([' '] : List Char).intercalate lines.flatten) ∧
      clean (clean content) = clean content ∧ IsNeat (clean content).toList := by
  refine ⟨?_, clean_clean content, isNeat_clean content⟩
  rw [clean_eq, String.toList_ofList, h.contentWords_eq]
  rfl

theorem indents_of_all {blanks : List Char} (h : blanks.all (fun c => isBlank c && c != '\n') = true) :
    Indents blanks := by
  rw [List.all_eq_true] at h
  refine ⟨fun c hc => ?_, fun hc => absurd (h _ hc) (by decide)⟩
  have hc := h c hc
  rw [Bool.and_eq_true] at hc
  exact hc.1

theorem isWord_of_all {word : List Char} (hne : word ≠ []) (h : word.all (!isBlank ·) = true) : IsWord word :=
  ⟨hne, fun c hc => by simpa using List.all_eq_true.mp h c hc⟩

/-- Words that look like markers stay, in the first line and behind a marker; a line without words adds
nothing. -/
theorem layout_leaves_no_trace_lookalikes :
    LaysOut [[['!', 'a']], [], [['/', 'b'], ['!']]]
      ['!', 'a', '\r', '\n', '\t', '!', '\n', '/', '/', '/', 'b', ' ', ' ', '!'] ∧
      clean "!a\r\n\t!\n///b  !" = "!a /b !" := by
  have hnone : Indents [] := indents_of_all (by decide)
  have htab : Indents ['\t'] := indents_of_all (by decide)
  have hspaces : Indents [' ', ' '] := indents_of_all (by decide)
  have hfirst : LaysLine [['!', 'a']] ([] ++ ['!', 'a'] ++ []) :=
    .cons hnone (isWord_of_all (by decide) (by decide)) (.nil hnone) (by simp)
  have hmark : LaysLine [['!']] ([' ', ' '] ++ ['!'] ++ []) :=
    .cons hspaces (isWord_of_all (by decide) (by decide)) (.nil hnone) (by simp)
  have hblank : ∀ c ∈ ([' ', ' '] ++ ['!'] ++ [] : List Char).head?, isBlank c = true := by
    rintro c ⟨⟩
    decide
  have hlast : LaysLine [['/', 'b'], ['!']] ([] ++ ['/', 'b'] ++ ([' ', ' '] ++ ['!'] ++ [])) :=
    .cons hnone (isWord_of_all (by decide) (by decide)) hmark hblank
  have hlaid := LaysOut.intro hfirst (.cons (.inr rfl) htab (.inr rfl) (.nil hnone)
    (.cons (.inl rfl) hnone (.inl rfl) hlast .nil))
  have hout : LaysOut [[['!', 'a']], [], [['/', 'b'], ['!']]]
      ['!', 'a', '\r', '\n', '\t', '!', '\n', '/', '/', '/', 'b', ' ', ' ', '!'] := by
    simpa only [List.nil_append, List.append_nil, List.cons_append] using hlaid
  have hjoined : ([' '] : List Char).intercalate (List.flatten [[['!', 'a']], [], [['/', 'b'], ['!']]]) =
      ['!', 'a', ' ', '/', 'b', ' ', '!'] := rfl
  exact ⟨hout, (layout_leaves_no_trace hout "").1.trans (congrArg String.ofList hjoined)⟩

end Cicode.Program.Doc
