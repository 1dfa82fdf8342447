import Cicode.Proofs.Parse.Completion

/-!
# Trees inside trees

A tree at a position *holds* another one at its position if that is the tree itself or one that a child
holds (`Holds`).  What floors hold they go on holding, since a reduction only puts a tree on top of others;
so each token that is read stands in the tree of the text, at the place where it was read
(`Floor.Completes.holds_token`).

Main statement (`HoldAll.exists_doc`): a token of a documentation comment stands inside the tree of one.
-/

namespace Cicode.Parse

open Grammar Text Cicode.Lex Grammar.ShiftReduce

/-- The tree whose padding begins at a position holds another one. -/
inductive Holds : Extent → Subtree → Extent → Subtree → Prop
  | self {p : Extent} {t : Subtree} : Holds p t p t
  | child {p q : Extent} {t u c : Subtree} {a b : List Subtree} : t.children = a ++ c :: b →
      Holds (p + extentOf a) c q u → Holds p t q u

/-- One of the trees that stand side by side holds the tree. -/
def HoldAll (p : Extent) (trees : List Subtree) (q : Extent) (u : Subtree) : Prop :=
  ∃ a t b, trees = a ++ t :: b ∧ Holds (p + extentOf a) t q u

section

variable {p q : Extent} {t u : Subtree} {a b trees : List Subtree}

theorem Holds.of_children (h : HoldAll p t.children q u) : Holds p t q u := by
  obtain ⟨a, c, b, heq, hc⟩ := h
  exact .child heq hc

theorem HoldAll.of_mem (heq : trees = a ++ t :: b) (hp : q = p + extentOf a) : HoldAll p trees q t :=
  ⟨a, t, b, heq, hp ▸ .self⟩

theorem HoldAll.left (h : HoldAll p a q u) (b : List Subtree) : HoldAll p (a ++ b) q u := by
  obtain ⟨before, t, after, rfl, ht⟩ := h
  exact ⟨before, t, after ++ b, by simp, ht⟩

theorem HoldAll.right (a : List Subtree) (h : HoldAll (p + extentOf a) b q u) : HoldAll p (a ++ b) q u := by
  obtain ⟨before, t, after, rfl, ht⟩ := h
  refine ⟨a ++ before, t, after, by simp, ?_⟩
  rwa [extentOf_append, ← Extent.add_assoc]

theorem holdAll_append : HoldAll p (a ++ b) q u ↔ HoldAll p a q u ∨ HoldAll (p + extentOf a) b q u := by
  constructor
  · rintro ⟨before, t, after, heq, ht⟩
    rcases List.append_eq_append_iff.mp heq with ⟨more, rfl, rfl⟩ | ⟨more, rfl, hmore⟩
    · refine .inr ⟨more, t, after, rfl, ?_⟩
      rwa [Extent.add_assoc, ← extentOf_append]
    · cases more with
      | nil =>
        refine .inr ⟨[], t, after, by simpa using hmore.symm, ?_⟩
        rwa [extentOf_nil, Extent.add_zero, List.append_nil]
      | cons c more =>
        obtain ⟨rfl, rfl⟩ := List.cons.inj hmore
        exact .inl ⟨before, t, more, rfl, ht⟩
  · rintro (h | h)
    · exact h.left b
    · exact .right a h

theorem holdAll_single : HoldAll p [t] q u ↔ Holds p t q u := by
  constructor
  · rintro ⟨a, c, b, heq, h⟩
    obtain ⟨rfl, rfl, rfl⟩ : a = [] ∧ c = t ∧ b = [] := by
      cases a with
      | nil => simpa [eq_comm] using heq
      | cons x a => simp at heq
    rwa [extentOf_nil, Extent.add_zero] at h
  · exact fun h => ⟨[], t, [], rfl, by rwa [extentOf_nil, Extent.add_zero]⟩

/-- A tree is held as such, or as a child of another tree that is held. -/
theorem Holds.exists_parent (h : Holds p t q u) : (p = q ∧ t = u) ∨
    ∃ r v a b, Holds p t r v ∧ v.children = a ++ u :: b ∧ q = r + extentOf a := by
  induction h with
  | self => exact .inl ⟨rfl, rfl⟩
  | @child p q t u c a b heq hc ih =>
    rcases ih with ⟨rfl, rfl⟩ | ⟨r, v, a', b', hv, hchildren, hq⟩
    · exact .inr ⟨p, t, a, b, .self, heq, rfl⟩
    · exact .inr ⟨r, v, a', b', .child heq hv, hchildren, hq⟩

theorem HoldAll.exists_parent (h : HoldAll p trees q u) : u ∈ trees ∨
    ∃ r v a b, HoldAll p trees r v ∧ v.children = a ++ u :: b ∧ q = r + extentOf a := by
  obtain ⟨before, t, after, heq, ht⟩ := h
  rcases ht.exists_parent with ⟨rfl, rfl⟩ | ⟨r, v, a, b, hv, hchildren, hq⟩
  · exact .inl (by simp [heq])
  · exact .inr ⟨r, v, a, b, ⟨before, t, after, heq, hv⟩, hchildren, hq⟩

end

/-! ## What floors hold -/

namespace Floor

variable {chars : List Char} {floors floors' last : List Floor} {q : Extent} {u : Subtree}

theorem Reduced.holdAll {symbol : Symbol} {count production : Nat}
    (h : Reduced symbol count production floors floors') (hu : HoldAll 0 (trees floors) q u) :
    HoldAll 0 (trees floors') q u := by
  obtain ⟨below, children, extras, target, -, rfl, htrees, -⟩ := h.parent
  have htrees' : trees (putAll target extras (⟨target, .ofChildren symbol production children⟩ :: below)) =
      trees below ++ [.ofChildren symbol production children] ++ extras := by
    rw [trees_putAll, trees_cons]
  rw [htrees, holdAll_append, holdAll_append] at hu
  rw [htrees', holdAll_append, holdAll_append, holdAll_single]
  rcases hu with (hu | hu) | hu
  · exact .inl (.inl hu)
  · exact .inl (.inr (.of_children (by rwa [Subtree.children_ofChildren])))
  · refine .inr ?_
    rwa [extentOf_append, extentOf_cons, extentOf_nil, Extent.add_zero, Subtree.totalSize_ofChildren,
      ← extentOf_append]

theorem Reductions.holdAll {terminal : Symbol} (h : Reductions terminal floors last) (hl : Linked floors)
    (hu : HoldAll 0 (trees floors) q u) : HoldAll 0 (trees last) q u := by
  induction h with
  | done => exact hu
  | step hchosen hr _ ih =>
    have hreduced := hl.reduced hchosen hr
    exact ih hreduced.linked (hreduced.holdAll hu)

theorem Shifts.exists_trees {token : Subtree} (h : Shifts token floors floors') :
    ∃ extra, trees floors' = trees floors ++ [token.withExtra extra] := by
  cases h with
  | tree => exact ⟨false, by simp [trees]⟩
  | extra => exact ⟨true, by simp [trees]⟩

theorem Reads.holdAll (h : Reads chars floors floors') (hl : Linked floors)
    (hu : HoldAll 0 (trees floors) q u) : HoldAll 0 (trees floors') q u := by
  obtain ⟨mid, hred, hs⟩ := h
  obtain ⟨extra, htrees⟩ := hs.exists_trees
  rw [htrees]
  exact (hred.holdAll hl hu).left _

/-- The token that is read stands where the floors reached. -/
theorem Reads.holds_token (h : Reads chars floors floors') (hl : Linked floors) :
    ∃ extra, HoldAll 0 (trees floors') (reach floors) ((next chars floors).withExtra extra) := by
  obtain ⟨mid, hred, hs⟩ := h
  obtain ⟨extra, htrees⟩ := hs.exists_trees
  refine ⟨extra, .of_mem htrees ?_⟩
  rw [Extent.zero_add, ← reach_eq, hred.reach_eq hl]

/-- **What floors hold stands in the tree of the text**, the whole program apart. -/
theorem Completes.holdAll (h : Completes chars last floors) (ha : Arrives chars floors)
    (hs : u.symbol ≠ .sourceFile) (hu : HoldAll 0 (trees floors) q u) :
    HoldAll 0 (parse chars).children q u := by
  induction h with
  | done hr hc =>
    have hlast := hr.holdAll ha.linked hu
    obtain ⟨bottom, cs, extras, htrees, -, -, -, -, hparse, -⟩ := Ends.exists_program ⟨ha, hr, hc⟩
    rw [htrees, ← List.singleton_append, ← List.append_assoc, holdAll_append, holdAll_append,
      holdAll_single] at hlast
    rw [hparse, Subtree.children_ofChildren]
    rcases hlast with (hlast | hlast) | hlast
    · exact (hlast.left _).left _
    · rcases hlast.exists_parent with ⟨-, rfl⟩ | -
      · exact absurd (Subtree.symbol_ofChildren ..) hs
      cases hlast with
      | self => exact absurd (Subtree.symbol_ofChildren ..) hs
      | child heq hin =>
        rw [Subtree.children_ofChildren] at heq
        exact HoldAll.left (.right bottom ⟨_, _, _, heq, hin⟩) _
    · refine .right _ (HoldAll.left ?_ _)
      rwa [extentOf_append, extentOf_cons, extentOf_nil, Extent.add_zero, Subtree.totalSize_ofChildren,
        ← extentOf_append] at hlast
  | read hr _ ih => exact ih (ha.read hr) (hr.holdAll ha.linked hu)

/-- **Each token that is read stands in the tree of the text**, where it was read. -/
theorem Completes.holds_token (h : Completes chars last floors') (ha : Arrives chars floors)
    (hr : Reads chars floors floors') :
    ∃ extra, HoldAll 0 (parse chars).children (reach floors) ((next chars floors).withExtra extra) := by
  obtain ⟨extra, hu⟩ := hr.holds_token ha.linked
  refine ⟨extra, h.holdAll (ha.read hr) ?_ hu⟩
  obtain ⟨mid, -, hs⟩ := hr
  rw [Subtree.symbol_withExtra]
  rintro heq
  have hterm := hs.symbol_spec.1
  rw [heq] at hterm
  cases hterm

end Floor

/-! ## Clean trees -/

open Floor

theorem Floor.Clean.production {t c : Subtree} (h : Clean t) (hc : c ∈ t.children) :
    ∃ s n cs, t = .ofChildren s n cs ∧ IsProduction s n cs ∧ ∀ c ∈ cs, Clean c := by
  obtain ⟨hgrown, hfree⟩ := h
  cases hgrown with
  | token | invented | unreadable => cases hc
  | @production s n cs hp hg =>
    refine ⟨s, n, cs, rfl, hp, fun c hc => ⟨hg c hc, ?_⟩⟩
    rw [Subtree.errorCost_ofChildren_eq_zero (not_skipped_of_rightSide hp.rhs)] at hfree
    refine (hfree c hc).resolve_left fun hround => ?_
    have herror := (hp.skipped hg c hc (by rw [hround]; rfl)).1
    rw [hround] at herror
    cases herror
  | skipped extra => exact absurd hfree (Nat.ne_of_gt (Subtree.errorCost_skipped_pos rfl ..))
  | skipping => exact absurd hfree (Nat.ne_of_gt (Subtree.errorCost_skipped_pos rfl ..))

/-- A token without repairs has a text. -/
theorem Floor.Clean.wide {t : Subtree} (h : Clean t) (hterm : t.symbol.isTerminal = true)
    (hend : t.symbol ≠ .endOfInput) : 0 < t.facts.size.bytes := by
  obtain ⟨hgrown, hfree⟩ := h
  cases hgrown with
  | token ht => exact ht.wide hend
  | invented => cases hfree
  | production hp =>
    rw [Subtree.symbol_ofChildren, not_terminal_of_rightSide hp.rhs] at hterm
    cases hterm
  | skipped extra => exact absurd hfree (Nat.ne_of_gt (Subtree.errorCost_skipped_pos rfl ..))
  | skipping => exact absurd hfree (Nat.ne_of_gt (Subtree.errorCost_skipped_pos rfl ..))
  | unreadable hu =>
    rw [show (Subtree.node _ []).symbol = .error from hu.symbol_eq] at hterm
    cases hterm

theorem Holds.clean {p q : Extent} {t u : Subtree} (h : Holds p t q u) (ht : Clean t) : Clean u := by
  induction h with
  | self => exact ht
  | @child p q t u c a b heq _ ih =>
    have hc : c ∈ t.children := by rw [heq]; simp
    obtain ⟨s, n, cs, rfl, -, hcs⟩ := ht.production hc
    rw [Subtree.children_ofChildren] at hc
    exact ih (hcs c hc)

theorem HoldAll.clean {p q : Extent} {trees : List Subtree} {u : Subtree} (h : HoldAll p trees q u)
    (ht : ∀ t ∈ trees, Clean t) : Clean u := by
  obtain ⟨a, t, b, rfl, hu⟩ := h
  exact hu.clean (ht t (by simp))

/-! ## Documentation comments -/

/-- The productions of documentation comments. -/
def docKinds : List Symbol := [.docSummary, .docParam, .docReturns]

/-- The bodies of documentation tags and the closing tags. -/
def docInner : List Symbol :=
  [.summaryContent, .summaryEnd, .paramContent, .paramEnd, .returnsContent, .returnsEnd]

/-- The opening documentation tags. -/
def docOpeners : List Symbol := [.summaryStart, .paramTag, .returnsStart]

/-- The tokens of documentation comments. -/
def docTokens : List Symbol := docOpeners ++ docInner

/-- Documentation comments are made of an opening tag and what comes after it, and nothing else is made of
their tokens. -/
theorem docTokens_rightSides (symbol : Symbol) : ∀ rhs ∈ rightSides symbol, ∀ x ∈ rhs, x ∈ docTokens →
    symbol ∈ docKinds ∧ ∀ y ∈ rhs.head?, y.isTerminal = true ∧ y ≠ .endOfInput ∧ y ∉ docInner := by
  cases symbol <;> decide

/-- A child begins and ends inside its parent, and after the first child if it is another one. -/
theorem child_inside {s : Symbol} {n : Nat} {a b : List Subtree} {u : Subtree} (r : Extent) :
    (r + (Subtree.ofChildren s n (a ++ u :: b)).facts.padding).bytes ≤
        (r + extentOf a + u.facts.padding).bytes ∧
      (r + extentOf a + u.totalSize).bytes ≤ (r + (Subtree.ofChildren s n (a ++ u :: b)).totalSize).bytes ∧
      ∀ c ∈ a.head?, (r + (Subtree.ofChildren s n (a ++ u :: b)).facts.padding + c.facts.size).bytes ≤
        (r + extentOf a).bytes := by
  rw [Subtree.totalSize_ofChildren]
  simp only [Extent.bytes_add, extentOf_append, extentOf_cons]
  cases a with
  | nil =>
    rw [List.nil_append, Subtree.padding_ofChildren]
    simp only [extentOf_nil, Extent.bytes_zero]
    exact ⟨by omega, by omega, fun c hc => by cases hc⟩
  | cons first a =>
    rw [List.cons_append, Subtree.padding_ofChildren]
    simp only [extentOf_cons, Extent.bytes_add, Subtree.totalSize]
    refine ⟨by omega, by omega, fun c hc => ?_⟩
    obtain rfl : first = c := by simpa using hc
    omega

/-- **A token of documentation stands inside a documentation comment**, and all but the opening tag behind
its beginning. -/
theorem HoldAll.exists_doc {p q : Extent} {trees : List Subtree} {u : Subtree} (h : HoldAll p trees q u)
    (htrees : ∀ t ∈ trees, Clean t) (hrhs : spelling trees ∈ rightSides .sourceFile)
    (hs : u.symbol ∈ docTokens) : ∃ r v, HoldAll p trees r v ∧ v.symbol ∈ docKinds ∧
      (r + v.facts.padding).bytes ≤ (q + u.facts.padding).bytes ∧
      (q + u.totalSize).bytes ≤ (r + v.totalSize).bytes ∧
      (u.symbol ∈ docInner → (r + v.facts.padding).bytes < q.bytes) := by
  have hclean := h.clean htrees
  have hextra : u.isExtra = false := by
    by_contra hx
    rcases hclean.grown.cases_extra (by simpa using hx) with heq | heq | ⟨-, hcost⟩
    · rw [heq] at hs
      exact absurd hs (by decide)
    · rw [heq] at hs
      exact absurd hs (by decide)
    · exact absurd hclean.free (Nat.ne_of_gt hcost)
  rcases h.exists_parent with hmem | ⟨r, v, a, b, hv, hchildren, rfl⟩
  · have hkind := (docTokens_rightSides _ _ hrhs _ (mem_spelling hmem hextra) hs).1
    exact absurd hkind (by decide)
  have hmem : u ∈ v.children := by rw [hchildren]; simp
  obtain ⟨s, n, cs, rfl, hp, hcs⟩ := (hv.clean htrees).production hmem
  rw [Subtree.children_ofChildren] at hchildren hmem
  subst hchildren
  obtain ⟨hkind, hfirst⟩ := docTokens_rightSides _ _ hp.rhs _ (mem_spelling hmem hextra) hs
  obtain ⟨hstart, hstop, hafter⟩ := child_inside (s := s) (n := n) (a := a) (b := b) (u := u) r
  refine ⟨r, _, hv, by rwa [Subtree.symbol_ofChildren], hstart, hstop, fun hinner => ?_⟩
  -- The comment begins with the opening tag, which has a text.
  cases a with
  | nil =>
    have hu : u.symbol ∈ (spelling (u :: b)).head? := by simp [spelling, hextra]
    exact absurd hinner (hfirst _ hu).2.2
  | cons c a =>
    have hc : c.isExtra = false := hp.first c rfl
    obtain ⟨hterm, hend, -⟩ := hfirst c.symbol (by simp [spelling, hc])
    have hwide := (hcs c (by simp)).wide hterm hend
    have hle := hafter c rfl
    rw [Extent.bytes_add] at hle
    omega

end Cicode.Parse
