import Cicode.Proofs.Lex.Bounds

/-!
# Where comments and documentation tags end

A comment without asterisks ends with its line.  Only where documentation may stand, the marker of a
comment may open a part of the documentation instead (`IsDocTag`).

The states behind the marker are those of a tree whose branches spell the tags; from each of them the text
is read as one of the words below the state, and as the rest of the line if it begins with none of them
(`ReadsAt`).

Main statement (`token_extents`): where strings, comments and documentation tags end, in each start state
of the lexical automaton.
-/

namespace Cicode.Lex

open Grammar Text

/-! ## Comments to the end of their line -/

/-- The rest of a line, as a comment. -/
def lineOf (text : List Char) : Symbol × List Char := (.comment, text.takeWhile (· != '\n'))

/-- In a state a comment is complete; some characters have edges of their own, and every other one leads
to the state that reads the rest of the line. -/
def comments (number plain : Nat) (edges : List (Char × Nat)) : Bool :=
  (stateOf lexStates number).accepts == some .comment && after number '\n' == none &&
    leaves number (['\x00', '\n'] ++ edges.map (·.1)) plain &&
    edges.all fun edge => edge.1 != '\n' && after number edge.1 == some edge.2

/-- What is tested of a state in which a comment is complete. -/
structure InComment (number plain : Nat) (edges : List (Char × Nat)) : Prop where
  complete : complete number = some (.comment, [])
  newline : after number '\n' = none
  plain : ∀ c, c ≠ '\x00' → c ≠ '\n' → c ∉ edges.map (·.1) → after number c = some plain
  edge : ∀ c target, (c, target) ∈ edges → c ≠ '\n' ∧ after number c = some target

section Comments

variable {number plain : Nat} {edges : List (Char × Nat)} {text : List Char}

theorem inComment (h : comments number plain edges = true) : InComment number plain edges := by
  rw [comments, Bool.and_eq_true, Bool.and_eq_true, Bool.and_eq_true, List.all_eq_true] at h
  obtain ⟨⟨⟨haccepts, hnewline⟩, hplain⟩, hedges⟩ := h
  refine ⟨?_, beq_iff_eq.mp hnewline, fun c hnul hline hc => ?_, fun c target hmem => ?_⟩
  · rw [complete, beq_iff_eq.mp haccepts]
    rfl
  · exact after_of_leaves hplain (by simpa [hnul, hline] using hc)
  · simpa using hedges (c, target) hmem

/-- From a state without edges of its own the rest of the line is read. -/
theorem longest_line (hplain : comments plain plain [] = true) (h : comments number plain [] = true)
    (hnul : '\x00' ∉ text) : longest number text = some (lineOf text) := by
  induction text generalizing number with
  | nil => exact (inComment h).complete
  | cons c rest ih =>
    rw [List.mem_cons, not_or] at hnul
    by_cases hc : c = '\n'
    · subst hc
      exact (longest_stop (inComment h).newline).trans (inComment h).complete
    · have hafter := (inComment h).plain c (Ne.symm hnul.1) hc List.not_mem_nil
      have hline : lineOf (c :: rest) = (.comment, c :: (lineOf rest).2) := by simp [lineOf, hc]
      rw [hline]
      exact longest_go_some hafter (ih hplain hnul.2)

/-! ## Reading one of some words, or the rest of the line -/

/-- From a state, a text is read as the one of some words that it begins with, and as the rest of its line
if it begins with none. -/
structure ReadsAt (words : Symbol → List Char → Prop) (number : Nat) (text : List Char) : Prop where
  word : ∀ symbol word post, words symbol word → text = word ++ post →
    longest number text = some (symbol, word)
  line : (∀ symbol word post, words symbol word → text ≠ word ++ post) →
    longest number text = some (lineOf text)

variable {words : Symbol → List Char → Prop}

theorem ReadsAt.congr {words' : Symbol → List Char → Prop} (h : ReadsAt words number text)
    (heq : ∀ symbol word, words' symbol word ↔ words symbol word) : ReadsAt words' number text := by
  have hsame : words' = words := funext fun symbol => funext fun word => propext (heq symbol word)
  exact hsame ▸ h

/-- Where the word is complete and nothing more is read. -/
theorem ReadsAt.done {symbol : Symbol} (h : stateOf lexStates number = { accepts := some symbol })
    (text : List Char) : ReadsAt (fun s w => s = symbol ∧ w = []) number text := by
  refine ⟨?_, fun hno => absurd rfl (hno symbol [] text ⟨rfl, rfl⟩)⟩
  rintro _ _ post ⟨rfl, rfl⟩ -
  rw [longest_of_no_edges (by rw [h]), complete, h]
  rfl

/-- At the end of the line or of the text the comment is complete. -/
theorem ReadsAt.stop (h : InComment number plain edges)
    (htext : text = [] ∨ ∃ rest, text = '\n' :: rest)
    (hno : ∀ symbol word post, words symbol word → text ≠ word ++ post) : ReadsAt words number text := by
  refine ⟨fun symbol word post hw heq => absurd heq (hno symbol word post hw), fun _ => ?_⟩
  rcases htext with rfl | ⟨rest, rfl⟩
  · exact h.complete
  · exact (longest_stop h.newline).trans h.complete

/-- A character that leads on goes on to the words that it begins. -/
theorem ReadsAt.cons {c : Char} {rest : List Char} {next : Nat} (hc : c ≠ '\n')
    (hafter : after number c = some next) (hnil : ∀ symbol, ¬ words symbol [])
    (h : ReadsAt (fun symbol word => words symbol (c :: word)) next rest) :
    ReadsAt words number (c :: rest) := by
  refine ⟨fun symbol word post hw heq => ?_, fun hno => ?_⟩
  · cases word with
    | nil => exact absurd hw (hnil symbol)
    | cons d word =>
      obtain ⟨rfl, htail⟩ := List.cons.inj heq
      exact longest_go_some hafter (h.word symbol word post hw htail)
  · have hline : lineOf (c :: rest) = (.comment, c :: (lineOf rest).2) := by simp [lineOf, hc]
    rw [hline]
    refine longest_go_some hafter (h.line fun symbol word post hw heq => ?_)
    exact hno symbol (c :: word) post hw (by rw [heq, List.cons_append])

/-- **One step.**  A character with an edge of its own goes on to the words that it begins; every other one
begins none of them. -/
theorem ReadsAt.step (hplain : comments plain plain [] = true) (h : comments number plain edges = true)
    (hnul : '\x00' ∉ text) (hnil : ∀ symbol, ¬ words symbol [])
    (hnone : ∀ c, c ∉ edges.map (·.1) → ∀ symbol word, ¬ words symbol (c :: word))
    (hnext : ∀ c rest target, text = c :: rest → (c, target) ∈ edges →
      ReadsAt (fun symbol word => words symbol (c :: word)) target rest) : ReadsAt words number text := by
  have hstate := inComment h
  cases text with
  | nil =>
    refine ReadsAt.stop hstate (.inl rfl) fun symbol word post hw heq => ?_
    rw [(List.append_eq_nil_iff.mp heq.symm).1] at hw
    exact hnil symbol hw
  | cons c rest =>
    rw [List.mem_cons, not_or] at hnul
    by_cases hmem : c ∈ edges.map (·.1)
    · obtain ⟨⟨c, target⟩, hedge, rfl⟩ := List.mem_map.mp hmem
      obtain ⟨hc, hafter⟩ := hstate.edge c target hedge
      exact ReadsAt.cons hc hafter hnil (hnext c rest target rfl hedge)
    · have hno : ∀ symbol word post, words symbol word → c :: rest ≠ word ++ post := by
        intro symbol word post hw heq
        cases word with
        | nil => exact hnil symbol hw
        | cons d word =>
          obtain ⟨rfl, -⟩ := List.cons.inj heq
          exact hnone c hmem symbol word hw
      by_cases hc : c = '\n'
      · subst hc
        exact ReadsAt.stop hstate (.inr ⟨rest, rfl⟩) hno
      · refine ReadsAt.cons hc (hstate.plain c (Ne.symm hnul.1) hc hmem) hnil ⟨?_, fun _ => ?_⟩
        · exact fun symbol word _ hw _ => absurd hw (hnone c hmem symbol word)
        · exact longest_line hplain hplain hnul.2

/-- The states along a word: in each of them a comment is complete, and only the next character of the
word leads on. -/
def spells (plain : Nat) : Nat → List Char → Nat → Bool
  | number, [], last => number == last
  | number, c :: word, last =>
    match after number c with
    | some next => comments number plain [(c, next)] && spells plain next word last
    | none => false

/-- Along a word. -/
theorem ReadsAt.spelled (hplain : comments plain plain [] = true) {word : List Char} {last : Nat}
    (h : spells plain number word last = true) (hnul : '\x00' ∉ text)
    (hlast : ∀ rest, '\x00' ∉ rest → ReadsAt words last rest) :
    ReadsAt (fun symbol w => ∃ rest, w = word ++ rest ∧ words symbol rest) number text := by
  induction word generalizing number text with
  | nil =>
    rw [spells, beq_iff_eq] at h
    subst h
    exact (hlast text hnul).congr fun symbol w => by simp
  | cons c word ih =>
    rw [spells] at h
    split at h
    · rename_i next _
      rw [Bool.and_eq_true] at h
      refine ReadsAt.step hplain h.1 hnul ?_ ?_ ?_
      · rintro symbol ⟨rest, heq, -⟩
        cases heq
      · rintro d hd symbol w ⟨rest, heq, -⟩
        cases heq
        exact hd List.mem_cons_self
      · intro d rest target htext hedge
        cases List.mem_singleton.mp hedge
        rw [htext, List.mem_cons, not_or] at hnul
        exact (ih h.2 hnul.2).congr fun symbol w => by simp
    · cases h

end Comments

/-! ## Documentation tags -/

/-- The tags that open a part of the documentation. -/
inductive Opens : Symbol → List Char → Prop
  | summary : Opens .summaryStart "<summary>".toList
  | returns : Opens .returnsStart "<returns>".toList
  | param : Opens .paramTag "<param>".toList
  | attributes {c : Char} {rest : List Char} : c ∈ [' ', '\t'] → '>' ∉ rest → '\n' ∉ rest →
    Opens .paramTag ("<param".toList ++ c :: rest ++ ['>'])

/-- What may open a part of the documentation after the marker of a comment: blanks or tabs, and a tag. -/
def IsDocTag (symbol : Symbol) (word : List Char) : Prop :=
  ∃ blanks tag, (∀ c ∈ blanks, c ∈ [' ', '\t']) ∧ Opens symbol tag ∧ word = blanks ++ tag

/-- What may stand in a parameter tag after its first blank, with the end of the tag. -/
def IsAttributes (symbol : Symbol) (word : List Char) : Prop :=
  symbol = .paramTag ∧ ∃ rest, '>' ∉ rest ∧ '\n' ∉ rest ∧ word = rest ++ ['>']

/-- What may stand in a parameter tag after `<param`. -/
def EndsParam (symbol : Symbol) (word : List Char) : Prop :=
  symbol = .paramTag ∧ (word = ['>'] ∨
    ∃ c rest, c ∈ [' ', '\t'] ∧ word = c :: rest ∧ IsAttributes symbol rest)

/-- The letters of the tags one by one. -/
theorem opens_iff {symbol : Symbol} {tag : List Char} : Opens symbol tag ↔
    (symbol = .summaryStart ∧ tag = '<' :: 's' :: "ummary>".toList) ∨
    (symbol = .returnsStart ∧ tag = '<' :: 'r' :: "eturns>".toList) ∨
    ∃ rest, tag = '<' :: 'p' :: ("aram".toList ++ rest) ∧ EndsParam symbol rest := by
  constructor
  · intro h
    cases h with
    | summary => exact .inl ⟨rfl, rfl⟩
    | returns => exact .inr (.inl ⟨rfl, rfl⟩)
    | param => exact .inr (.inr ⟨_, rfl, rfl, .inl rfl⟩)
    | attributes hc hend hline =>
      exact .inr (.inr ⟨_, rfl, rfl, .inr ⟨_, _, hc, rfl, rfl, _, hend, hline, rfl⟩⟩)
  · rintro (⟨rfl, rfl⟩ | ⟨rfl, rfl⟩ | ⟨_, rfl, rfl, rfl | ⟨c, _, hc, rfl, -, rest, hend, hline, rfl⟩⟩)
    · exact .summary
    · exact .returns
    · exact .param
    · exact .attributes hc hend hline

theorem Opens.exists_eq {symbol : Symbol} {tag : List Char} (h : Opens symbol tag) :
    ∃ rest, tag = '<' :: rest := by
  rcases opens_iff.mp h with ⟨-, rfl⟩ | ⟨-, rfl⟩ | ⟨_, rfl, -⟩ <;> exact ⟨_, rfl⟩

/-- The states that read what may follow the marker of a comment. -/
structure MarkerStates where
  /-- The rest of a plain comment. -/
  plain : Nat
  /-- Right behind the marker. -/
  marker : Nat
  /-- Behind blanks. -/
  blank : Nat
  /-- Behind `<`. -/
  less : Nat
  /-- Behind the first letters of the three tags. -/
  letters : Nat × Nat × Nat
  /-- Behind `<param`. -/
  param : Nat
  /-- Behind the first blank in a parameter tag. -/
  attributes : Nat
  /-- In a parameter tag. -/
  inside : Nat
  /-- Behind the three tags. -/
  ends : Nat × Nat × Nat

namespace MarkerStates

/-- The states behind an exclamation mark. -/
def mark : MarkerStates := ⟨17, 2, 18, 19, (31, 30, 29), 72, 81, 91, (101, 100, 82)⟩

/-- The states behind two slashes. -/
def slashes : MarkerStates := ⟨35, 24, 36, 37, (48, 47, 46), 85, 94, 102, (108, 107, 95)⟩

/-- What is tested of the states: how they follow each other along the tags. -/
structure Fits (m : MarkerStates) : Prop where
  plain : comments m.plain m.plain [] = true
  blank : ∀ n ∈ [m.marker, m.blank],
    comments n m.plain [(' ', m.blank), ('\t', m.blank), ('<', m.less)] = true
  less : comments m.less m.plain [('s', m.letters.1), ('r', m.letters.2.1), ('p', m.letters.2.2)] = true
  summary : spells m.plain m.letters.1 "ummary>".toList m.ends.1 = true
  returns : spells m.plain m.letters.2.1 "eturns>".toList m.ends.2.1 = true
  param : spells m.plain m.letters.2.2 "aram".toList m.param = true
  close : comments m.param m.plain
    [('>', m.ends.2.2), (' ', m.attributes), ('\t', m.attributes)] = true
  inside : ∀ n ∈ [m.attributes, m.inside], comments n m.inside [('>', m.ends.2.2)] = true
  ends : stateOf lexStates m.ends.1 = { accepts := some .summaryStart } ∧
    stateOf lexStates m.ends.2.1 = { accepts := some .returnsStart } ∧
    stateOf lexStates m.ends.2.2 = { accepts := some .paramTag }

instance (m : MarkerStates) : Decidable m.Fits :=
  decidable_of_iff (_ ∧ _ ∧ _ ∧ _ ∧ _ ∧ _ ∧ _ ∧ _ ∧ _)
    ⟨fun ⟨h1, h2, h3, h4, h5, h6, h7, h8, h9⟩ => ⟨h1, h2, h3, h4, h5, h6, h7, h8, h9⟩,
      fun ⟨h1, h2, h3, h4, h5, h6, h7, h8, h9⟩ => ⟨h1, h2, h3, h4, h5, h6, h7, h8, h9⟩⟩

theorem markers_fit : mark.Fits ∧ slashes.Fits := by
  decide +kernel

theorem fits_mark : mark.Fits := markers_fit.1

theorem fits_slashes : slashes.Fits := markers_fit.2

section Tags

variable {m : MarkerStates} {text : List Char}

/-- In a parameter tag everything up to its end belongs to it, unless the line ends before. -/
theorem Fits.readsAt_inside (hm : m.Fits) (hnul : '\x00' ∉ text) : ∀ n ∈ [m.attributes, m.inside],
    ReadsAt IsAttributes n text := by
  have hnil : ∀ symbol, ¬ IsAttributes symbol [] := by
    rintro symbol ⟨-, rest, -, -, heq⟩
    cases rest <;> cases heq
  induction text with
  | nil =>
    intro n hn
    refine ReadsAt.stop (inComment (hm.inside n hn)) (.inl rfl) fun symbol word post hw heq => ?_
    rw [(List.append_eq_nil_iff.mp heq.symm).1] at hw
    exact hnil symbol hw
  | cons c rest ih =>
    intro n hn
    have hstate := inComment (hm.inside n hn)
    rw [List.mem_cons, not_or] at hnul
    by_cases hc : c = '\n'
    · subst hc
      refine ReadsAt.stop hstate (.inr ⟨rest, rfl⟩) ?_
      rintro symbol word post ⟨-, rest, -, hline, rfl⟩ heq
      cases rest with
      | nil => cases heq
      | cons d rest =>
        obtain ⟨rfl, -⟩ := List.cons.inj heq
        exact hline List.mem_cons_self
    · by_cases hend : c = '>'
      · subst hend
        obtain ⟨-, hafter⟩ := hstate.edge '>' m.ends.2.2 List.mem_cons_self
        refine ReadsAt.cons hc hafter hnil ((ReadsAt.done hm.ends.2.2 rest).congr fun symbol word => ?_)
        constructor
        · rintro ⟨hsymbol, rest, hno, -, heq⟩
          cases rest with
          | nil =>
            cases heq
            exact ⟨hsymbol, rfl⟩
          | cons d rest =>
            obtain ⟨rfl, -⟩ := List.cons.inj heq
            exact absurd List.mem_cons_self hno
        · rintro ⟨rfl, rfl⟩
          exact ⟨rfl, [], List.not_mem_nil, List.not_mem_nil, rfl⟩
      · have hafter := hstate.plain c (Ne.symm hnul.1) hc (by simpa using hend)
        refine ReadsAt.cons hc hafter hnil ((ih hnul.2 m.inside (by simp)).congr fun symbol word => ?_)
        constructor
        · rintro ⟨hsymbol, rest, hno, hline, heq⟩
          cases rest with
          | nil => exact absurd (List.cons.inj heq).1 hend
          | cons d rest =>
            obtain ⟨rfl, rfl⟩ := List.cons.inj heq
            rw [List.mem_cons, not_or] at hno hline
            exact ⟨hsymbol, rest, hno.2, hline.2, rfl⟩
        · rintro ⟨hsymbol, rest, hno, hline, rfl⟩
          exact ⟨hsymbol, c :: rest, by simp [hno, Ne.symm hend], by simp [hline, Ne.symm hc], rfl⟩

/-- Behind `<param` the tag ends, or a blank begins its attributes. -/
theorem Fits.readsAt_param (hm : m.Fits) (hnul : '\x00' ∉ text) : ReadsAt EndsParam m.param text := by
  refine ReadsAt.step hm.plain hm.close hnul ?_ ?_ ?_
  · rintro symbol ⟨-, h | ⟨c, rest, -, h, -⟩⟩ <;> cases h
  · rintro c hc symbol word ⟨-, h | ⟨d, rest, hd, h, -⟩⟩
    · exact hc (by simp [(List.cons.inj h).1])
    · obtain ⟨rfl, -⟩ := List.cons.inj h
      exact hc (List.mem_cons_of_mem '>' hd)
  · intro c rest target htext hedge
    rw [htext, List.mem_cons, not_or] at hnul
    have hblank : ∀ c ∈ [' ', '\t'],
        ReadsAt (fun symbol word => EndsParam symbol (c :: word)) m.attributes rest := by
      intro c hc
      refine (hm.readsAt_inside hnul.2 m.attributes List.mem_cons_self).congr fun symbol word => ?_
      constructor
      · rintro ⟨hsymbol, h | ⟨d, w, -, h, hw⟩⟩
        · obtain ⟨rfl, -⟩ := List.cons.inj h
          exact absurd hc (by decide)
        · obtain ⟨-, rfl⟩ := List.cons.inj h
          exact hw
      · exact fun h => ⟨h.1, .inr ⟨c, word, hc, rfl, h⟩⟩
    simp only [List.mem_cons, List.not_mem_nil, or_false, Prod.mk.injEq] at hedge
    rcases hedge with ⟨rfl, rfl⟩ | ⟨rfl, rfl⟩ | ⟨rfl, rfl⟩
    · refine (ReadsAt.done hm.ends.2.2 rest).congr fun symbol word => ?_
      constructor
      · rintro ⟨hsymbol, h | ⟨d, w, hd, h, -⟩⟩
        · exact ⟨hsymbol, (List.cons.inj h).2⟩
        · obtain ⟨rfl, -⟩ := List.cons.inj h
          exact absurd hd (by decide)
      · rintro ⟨rfl, rfl⟩
        exact ⟨rfl, .inl rfl⟩
    · exact hblank ' ' (by decide)
    · exact hblank '\t' (by decide)

/-- Behind `<` the letters of one of the tags follow. -/
theorem Fits.readsAt_less (hm : m.Fits) (hnul : '\x00' ∉ text) :
    ReadsAt (fun symbol word => Opens symbol ('<' :: word)) m.less text := by
  refine ReadsAt.step hm.plain hm.less hnul ?_ ?_ ?_
  · intro symbol h
    simp [opens_iff] at h
  · intro c hc symbol word h
    simp only [List.map_cons, List.map_nil, List.mem_cons, List.not_mem_nil, or_false, not_or] at hc
    simp [opens_iff, hc] at h
  · intro c rest target htext hedge
    rw [htext, List.mem_cons, not_or] at hnul
    simp only [List.mem_cons, List.not_mem_nil, or_false, Prod.mk.injEq] at hedge
    rcases hedge with ⟨rfl, rfl⟩ | ⟨rfl, rfl⟩ | ⟨rfl, rfl⟩
    · refine (ReadsAt.spelled hm.plain hm.summary hnul.2 fun rest _ =>
        ReadsAt.done hm.ends.1 rest).congr fun symbol word => ?_
      simp [opens_iff, and_comm]
    · refine (ReadsAt.spelled hm.plain hm.returns hnul.2 fun rest _ =>
        ReadsAt.done hm.ends.2.1 rest).congr fun symbol word => ?_
      simp [opens_iff, and_comm]
    · refine (ReadsAt.spelled hm.plain hm.param hnul.2 fun rest hrest =>
        hm.readsAt_param hrest).congr fun symbol word => ?_
      simp [opens_iff, and_comm]

/-- A tag in front of blanks goes on after them. -/
theorem isDocTag_blank {c : Char} (hc : c ∈ [' ', '\t']) {symbol : Symbol} {word : List Char} :
    IsDocTag symbol (c :: word) ↔ IsDocTag symbol word := by
  constructor
  · rintro ⟨blanks, tag, hblanks, htag, heq⟩
    cases blanks with
    | nil =>
      obtain ⟨rest, rfl⟩ := htag.exists_eq
      obtain ⟨rfl, -⟩ := List.cons.inj heq
      exact absurd hc (by decide)
    | cons d blanks =>
      obtain ⟨rfl, rfl⟩ := List.cons.inj heq
      exact ⟨blanks, tag, fun d hd => hblanks d (List.mem_cons_of_mem _ hd), htag, rfl⟩
  · rintro ⟨blanks, tag, hblanks, htag, rfl⟩
    exact ⟨c :: blanks, tag, List.forall_mem_cons.mpr ⟨hc, hblanks⟩, htag, rfl⟩

/-- Anything but a blank is the first character of a tag. -/
theorem isDocTag_tag {c : Char} (hc : c ∉ [' ', '\t']) {symbol : Symbol} {word : List Char} :
    IsDocTag symbol (c :: word) ↔ Opens symbol (c :: word) := by
  constructor
  · rintro ⟨blanks, tag, hblanks, htag, heq⟩
    cases blanks with
    | nil => exact heq ▸ htag
    | cons d blanks =>
      obtain ⟨rfl, -⟩ := List.cons.inj heq
      exact absurd (hblanks c List.mem_cons_self) hc
  · exact fun h => ⟨[], c :: word, fun _ hd => (nomatch hd), h, rfl⟩

/-- **Behind the marker of a comment** a tag is read if one follows after blanks, and else the line. -/
theorem Fits.readsAt_marker (hm : m.Fits) (text : List Char) (hnul : '\x00' ∉ text) :
    ∀ n ∈ [m.marker, m.blank], ReadsAt IsDocTag n text := by
  intro n hn
  refine ReadsAt.step hm.plain (hm.blank n hn) hnul ?_ ?_ ?_
  · rintro symbol ⟨blanks, tag, -, htag, heq⟩
    obtain ⟨rest, rfl⟩ := htag.exists_eq
    cases blanks <;> cases heq
  · intro c hc symbol word h
    simp only [List.map_cons, List.map_nil, List.mem_cons, List.not_mem_nil, or_false, not_or] at hc
    rw [isDocTag_tag (by simp [hc])] at h
    obtain ⟨rest, heq⟩ := h.exists_eq
    exact hc.2.2 (List.cons.inj heq).1
  · intro c rest target htext hedge
    rw [htext, List.mem_cons, not_or] at hnul
    simp only [List.mem_cons, List.not_mem_nil, or_false, Prod.mk.injEq] at hedge
    rcases hedge with ⟨rfl, rfl⟩ | ⟨rfl, rfl⟩ | ⟨rfl, rfl⟩
    · exact (hm.readsAt_marker rest hnul.2 m.blank (by simp)).congr fun _ _ =>
        isDocTag_blank (by decide)
    · exact (hm.readsAt_marker rest hnul.2 m.blank (by simp)).congr fun _ _ =>
        isDocTag_blank (by decide)
    · exact (hm.readsAt_less hnul.2).congr fun symbol word => isDocTag_tag (by decide)
termination_by text.length
decreasing_by all_goals simp [htext]

end Tags

end MarkerStates

/-! ## All start states -/

/-- The start states of the automaton in the states of the parser. -/
def lexStarts : List Nat := rowList.map Row.lexStart

/-- The start states in which documentation may begin. -/
def docStarts : List Nat := [0, 109]

/-- What is tested of a start state: where it leads with the first character of a string or a comment,
and where it leads from there with the second one. -/
def startTested (number : Nat) : Bool :=
  let state := stateOf lexStates number
  state.accepts.isNone && (state.edgeOn '"').all (· == .go (.one '"') 3) &&
    state.edgeOn '!' == some (.go (.one '!') (if number ∈ docStarts then 2 else 114)) &&
    [10, 111, 115, 137].any fun slash => state.edgeOn '/' == some (.go (.one '/') slash) &&
      after slash '*' == some 23 && (complete slash).all (·.1 == .slash) &&
      after slash '/' == some (if number ∈ docStarts then 24 else 116)

theorem starts_tested : (lexStarts.all startTested) = true ∧
    comments 114 17 [] = true ∧ comments 116 35 [] = true := by
  decide +kernel

theorem lexStarts_tested : (lexStarts.all startTested) = true := starts_tested.1

/-- Outside of documentation the line of a comment is read to its end. -/
theorem comments_outside : comments 114 17 [] = true ∧ comments 116 35 [] = true := starts_tested.2

/-- The token that a start state reads at a position, with its start and its end. -/
def tokenFrom (number : Nat) (text : List Char) (position : Extent) : Option (Symbol × Extent × Extent) :=
  let found := scan lexStates number ⟨text, position⟩
  found.token.map fun token => (token.1, found.start.position, token.2)

/-- What is tested of a start state. -/
structure Starts (number : Nat) : Prop where
  accepts : (stateOf lexStates number).accepts = none
  string : ∀ edge, (stateOf lexStates number).edgeOn '"' = some edge → edge = .go (.one '"') 3
  mark : (stateOf lexStates number).edgeOn '!' =
    some (.go (.one '!') (if number ∈ docStarts then 2 else 114))
  slash : ∃ slash, (stateOf lexStates number).edgeOn '/' = some (.go (.one '/') slash) ∧
    after slash '*' = some 23 ∧ (∀ found ∈ complete slash, found.1 = .slash) ∧
    after slash '/' = some (if number ∈ docStarts then 24 else 116)

section Starts

variable {number target : Nat} {c : Char} {rest text : List Char} {position finish : Extent}
  {symbol : Symbol}

theorem starts_of_mem (hn : number ∈ lexStarts) : Starts number := by
  have h := List.all_eq_true.mp lexStarts_tested number hn
  simp only [startTested, Bool.and_eq_true, beq_iff_eq, Option.isNone_iff_eq_none, Option.all_eq_true,
    List.any_eq_true] at h
  obtain ⟨⟨⟨haccepts, hstring⟩, hmark⟩, slash, -, ⟨⟨hedge, hstar⟩, hcomplete⟩, hslash⟩ := h
  exact ⟨haccepts, hstring, hmark, slash, hedge, hstar, hcomplete, hslash⟩

/-- A token begins with its first character. -/
theorem tokenFrom_go (h : Starts number)
    (hedge : ∃ on, (stateOf lexStates number).edgeOn c = some (.go on target)) (position : Extent) :
    tokenFrom number (c :: rest) position = (longest target rest).map fun found =>
      (found.1, position, position + Extent.of (c :: found.2)) := by
  obtain ⟨hstart, htoken⟩ := @scan_longest number c rest target h.accepts hedge position
  rw [tokenFrom, hstart, htoken, Option.map_map]
  rfl

/-- **Strings**: one begins at a quotation mark if it ends. -/
theorem tokenFrom_string (h : Starts number) (hquote : (stateOf lexStates number).edgeOn '"' ≠ none) :
    tokenFrom number ('"' :: text) position = some (.string, position, finish) ↔
      ∃ body post, text = body ++ '"' :: post ∧ IsBody body ∧
        finish = position + Extent.of ('"' :: body ++ ['"']) := by
  obtain ⟨edge, hedge⟩ := Option.ne_none_iff_exists'.mp hquote
  rw [h.string edge hedge] at hedge
  rw [tokenFrom_go h ⟨_, hedge⟩ position, Option.map_eq_some_iff]
  constructor
  · rintro ⟨⟨symbol, word⟩, hfound, heq⟩
    cases heq
    obtain ⟨body, post, htext, hbody, -, rfl⟩ := (longest_string (by decide)).mp hfound
    exact ⟨body, post, htext, hbody, rfl⟩
  · rintro ⟨body, post, htext, hbody, rfl⟩
    exact ⟨_, (longest_string (by decide)).mpr ⟨body, post, htext, hbody, rfl, rfl⟩, rfl⟩

/-- **Comments in asterisks**: one begins if it ends. -/
theorem tokenFrom_block (h : Starts number) (hnul : '\x00' ∉ text) :
    tokenFrom number ('/' :: '*' :: text) position = some (.comment, position, finish) ↔
      ∃ body post, text = body ++ '*' :: '/' :: post ∧ ¬ ['*', '/'] <:+: body ∧
        finish = position + Extent.of ('/' :: '*' :: body ++ ['*', '/']) := by
  obtain ⟨slash, hedge, hstar, hslash, -⟩ := h.slash
  rw [tokenFrom_go h ⟨_, hedge⟩ position, longest_go hstar, Option.map_eq_some_iff]
  constructor
  · rintro ⟨⟨symbol, word⟩, hfound, heq⟩
    cases heq
    rcases Option.or_eq_some_iff.mp hfound with hfound | ⟨-, hfound⟩
    · obtain ⟨⟨symbol, word⟩, hblock, heq⟩ := Option.map_eq_some_iff.mp hfound
      cases heq
      obtain ⟨body, post, htext, hbody, -, rfl⟩ := (longest_block hnul).mp hblock
      exact ⟨body, post, htext, hbody, rfl⟩
    · cases hslash _ hfound
  · rintro ⟨body, post, htext, hbody, rfl⟩
    have hfound := (longest_block hnul).mpr ⟨body, post, htext, hbody, rfl, rfl⟩
    exact ⟨_, by rw [hfound]; rfl, rfl⟩

/-- A comment in asterisks ends if the two characters of its end occur at all. -/
theorem exists_endsBlock (h : ['*', '/'] <:+: text) : ∃ word, EndsBlock text .comment word := by
  induction text with
  | nil => simp at h
  | cons c rest ih =>
    rcases List.infix_cons_iff.mp h with ⟨post, heq⟩ | hin
    · exact ⟨['*', '/'], [], post, heq.symm, by simp, rfl, rfl⟩
    · obtain ⟨word, hword⟩ := ih hin
      by_cases hc : c = '*' ∧ rest.head? = some '/'
      · obtain ⟨rfl, hhead⟩ := hc
        obtain ⟨post, rfl⟩ := List.head?_eq_some_iff.mp hhead
        exact ⟨['*', '/'], [], post, rfl, by simp, rfl, rfl⟩
      · exact ⟨_, hword.cons (by rwa [not_and_or] at hc)⟩

/-- **The marker of a comment**: the token is what is read behind it. -/
theorem tokenFrom_marker (h : Starts number) {marker : List Char} (hm : marker ∈ [['/', '/'], ['!']])
    (hnul : '\x00' ∉ text) : ∃ behind,
      (∀ found, longest behind text = some found → tokenFrom number (marker ++ text) position =
        some (found.1, position, position + Extent.of (marker ++ found.2))) ∧
      (number ∈ docStarts → ReadsAt IsDocTag behind text) ∧
      (number ∉ docStarts → longest behind text = some (lineOf text)) := by
  obtain ⟨slash, hedge, -, -, hslash⟩ := h.slash
  simp only [List.mem_cons, List.not_mem_nil, or_false] at hm
  rcases hm with rfl | rfl
  · refine ⟨if number ∈ docStarts then 24 else 116, fun found hfound => ?_, fun hdoc => ?_, fun hdoc => ?_⟩
    · show tokenFrom number ('/' :: '/' :: text) position = _
      rw [tokenFrom_go h ⟨_, hedge⟩ position, longest_go_some hslash hfound]
      rfl
    · rw [if_pos hdoc]
      exact MarkerStates.fits_slashes.readsAt_marker text hnul 24 (by decide)
    · rw [if_neg hdoc]
      exact longest_line MarkerStates.fits_slashes.plain comments_outside.2 hnul
  · refine ⟨if number ∈ docStarts then 2 else 114, fun found hfound => ?_, fun hdoc => ?_, fun hdoc => ?_⟩
    · show tokenFrom number ('!' :: text) position = _
      rw [tokenFrom_go h ⟨_, h.mark⟩ position, hfound]
      rfl
    · rw [if_pos hdoc]
      exact MarkerStates.fits_mark.readsAt_marker text hnul 2 (by decide)
    · rw [if_neg hdoc]
      exact longest_line MarkerStates.fits_mark.plain comments_outside.1 hnul

end Starts

/-- **Where tokens end.**  In a text without NUL, at every position and in every start state: where a string
can be read, one is read at a quotation mark exactly if there is a quotation mark behind characters of a
string, and it ends right after that one; a slash and an asterisk begin a comment exactly if an asterisk and
a slash follow, and it ends right after the first ones; two slashes, and an exclamation mark, begin a
comment that ends with the line, except that the start states of documentation read blanks and a tag if
these follow. -/
theorem token_extents {number : Nat} (hn : number ∈ lexStarts) {text : List Char} (hnul : '\x00' ∉ text)
    (position : Extent) :
    ((stateOf lexStates number).edgeOn '"' ≠ none → ∀ finish,
      tokenFrom number ('"' :: text) position = some (.string, position, finish) ↔
        ∃ body post, text = body ++ '"' :: post ∧ IsBody body ∧
          finish = position + Extent.of ('"' :: body ++ ['"'])) ∧
    ((∃ finish, tokenFrom number ('/' :: '*' :: text) position = some (.comment, position, finish)) ↔
      ['*', '/'] <:+: text) ∧
    (∀ body post, text = body ++ '*' :: '/' :: post → ¬ ['*', '/'] <:+: body →
      tokenFrom number ('/' :: '*' :: text) position =
        some (.comment, position, position + Extent.of ('/' :: '*' :: body ++ ['*', '/']))) ∧
    ∀ marker ∈ [['/', '/'], ['!']],
      (number ∈ docStarts → ∀ symbol word post, IsDocTag symbol word → text = word ++ post →
        tokenFrom number (marker ++ text) position =
          some (symbol, position, position + Extent.of (marker ++ word))) ∧
      ((number ∈ docStarts → ∀ symbol word post, IsDocTag symbol word → text ≠ word ++ post) →
        tokenFrom number (marker ++ text) position =
          some (.comment, position, position + Extent.of (marker ++ text.takeWhile (· != '\n')))) := by
  have h := starts_of_mem hn
  refine ⟨fun hquote finish => tokenFrom_string h hquote, ⟨?_, fun hin => ?_⟩, ?_, fun marker hm => ?_⟩
  · rintro ⟨finish, hfound⟩
    obtain ⟨body, post, rfl, -⟩ := (tokenFrom_block h hnul).mp hfound
    exact ⟨body, post, by simp⟩
  · obtain ⟨_, body, post, htext, hbody, -⟩ := exists_endsBlock hin
    exact ⟨_, (tokenFrom_block h hnul).mpr ⟨body, post, htext, hbody, rfl⟩⟩
  · exact fun body post htext hbody => (tokenFrom_block h hnul).mpr ⟨body, post, htext, hbody, rfl⟩
  · obtain ⟨behind, htoken, hdoc, hline⟩ := @tokenFrom_marker number text position h marker hm hnul
    refine ⟨fun hin symbol word post hw heq => ?_, fun hno => ?_⟩
    · exact htoken (symbol, word) ((hdoc hin).word symbol word post hw heq)
    · refine htoken (lineOf text) ?_
      by_cases hin : number ∈ docStarts
      · exact (hdoc hin).line (hno hin)
      · exact hline hin

/-- A text that begins with the marker of a comment and a tag with an attribute. -/
def taggedLine : List Char := ['/', '/', ' ', '<', 'p', 'a', 'r', 'a', 'm', ' ', 'x', '>', 'y', '\n']

/-- The tag is read where documentation may begin; anywhere else the line is a comment. -/
theorem token_extents_taggedLine :
    tokenFrom 109 taggedLine 0 = some (.paramTag, 0, 0 + Extent.of (taggedLine.take 12)) ∧
      tokenFrom 112 taggedLine 0 = some (.comment, 0, 0 + Extent.of (taggedLine.take 13)) := by
  have hnul : '\x00' ∉ taggedLine.drop 2 := by decide
  have hword : IsDocTag .paramTag ((taggedLine.drop 2).take 10) := by
    refine ⟨[' '], _, by simp, @Opens.attributes ' ' ['x'] ?_ ?_ ?_, rfl⟩ <;> decide
  have hstarts : (lexStarts.contains 109 && lexStarts.contains 112) = true := by decide +kernel
  rw [Bool.and_eq_true, List.contains_iff_mem, List.contains_iff_mem] at hstarts
  have hdoc := token_extents hstarts.1 hnul 0
  have hcode := token_extents hstarts.2 hnul 0
  refine ⟨?_, ?_⟩
  · exact (hdoc.2.2.2 ['/', '/'] (by decide)).1 (by decide) _ _ ['y', '\n'] hword rfl
  · exact (hcode.2.2.2 ['/', '/'] (by decide)).2 fun hin => absurd hin (by decide)

end Cicode.Lex
