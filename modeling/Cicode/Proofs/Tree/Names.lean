import Cicode.Proofs.Tree.Places

/-!
# The names in a syntax tree

A name is shown as that of a function, of a parameter or of a variable.  Productions show nothing but
words in these ways, and no symbol is shown so by itself; the field of a name refers to names only.  So
each node of such a kind that is no invented token is a leaf, and its text is a word that is no keyword
(`naming_parse`).  The tag that names a parameter in documentation is never invented.
-/

namespace Cicode.Tree

open Grammar Text Parse Cicode.Lex

/-- The kinds under which names are shown. -/
def nameKinds : List Symbol := [.functionName, .parameterName, .variableName]

/-- What is known of a node as a name. -/
structure Node.Naming (chars : List Char) (node : Node) : Prop where
  leaf : node.kind ∈ nameKinds → node.isMissing = false → node.children = [] ∧
    ∃ pre word post, chars = pre ++ word ++ post ∧ node.label.start = Extent.of pre ∧
      node.label.stop = Extent.of (pre ++ word) ∧ IsIdentifier word
  field : node.label.field = some .name → node.kind ∈ nameKinds
  tag : node.kind = .paramTag → node.first < node.last

/-- It is known of a node and of all that is below it. -/
abbrev Node.AllNaming (chars : List Char) : Node → Prop := Node.Everywhere (Node.Naming chars)

/-! ## What productions show as names -/

/-- What is tested of a right-hand side: where something is shown as a name stands a word, nothing is
shown as a tag, and what the field of a name refers to is shown as a name. -/
def namesTested (number : Nat) (rhs : List Symbol) : Bool :=
  rhs.zipIdx.all fun q =>
    ((shownKind number q.2).all fun kind =>
        (!nameKinds.contains kind || q.1 == .identifier) && kind != .paramTag) &&
      (fieldAt number q.2 != some .name || (shownKind number q.2).any nameKinds.contains)

theorem namesTested_rightSides {s : Symbol} {rhs : List Symbol} (h : rhs ∈ rightSides s) :
    namesTested (productionNumber s rhs) rhs = true := by
  have hall : ∀ rhs ∈ rightSides s, namesTested (productionNumber s rhs) rhs = true := by
    cases s <;> decide
  exact hall rhs h

/-- No symbol is shown as a name by itself: these are no tokens, and no production makes them. -/
theorem rightSides_nameKinds : ∀ kind ∈ nameKinds, kind.isTerminal = false ∧ rightSides kind = [] ∧
    kind ∉ inventable ∧ kind.isSkipped = false := by
  decide

/-- A view shows nothing but a word as a name, and the field of a name refers to what is shown as one. -/
structure View.Names (v : View) : Prop where
  word : ∀ kind ∈ v.shown, kind ∈ nameKinds → v.tree.symbol = .identifier
  tag : v.shown ≠ some .paramTag
  field : v.field = some .name → ∃ kind ∈ v.shown, kind ∈ nameKinds

/-- Where the field of a view comes from. -/
theorem field_eq_of_views {production place : Nat} {position : Extent} {inherited : Option Field}
    {trees : List Subtree} {v : View} (h : v ∈ views production place position inherited trees) :
    v.tree.isExtra = true ∧ v.field = none ∧ v.shown = none ∨ v.tree.isExtra = false ∧ ∃ pre post,
      trees = pre ++ v.tree :: post ∧
      v.field = (fieldAt production (place + (spelling pre).length) <|> inherited) ∧
      v.shown = shownKind production (place + (spelling pre).length) := by
  induction trees generalizing place position with
  | nil => cases h
  | cons tree rest ih =>
    rw [views] at h
    rcases List.mem_cons.mp h with rfl | h
    · by_cases hx : tree.isExtra = true
      · rw [if_pos hx]
        exact .inl ⟨hx, rfl, rfl⟩
      · rw [if_neg hx]
        exact .inr ⟨by simpa using hx, [], rest, rfl, rfl, rfl⟩
    · rcases ih h with h | ⟨hx, pre, post, heq, hfield, hshown⟩
      · exact .inl h
      · have hplace : (if tree.isExtra then place else place + 1) + (spelling pre).length =
            place + (spelling (tree :: pre)).length := by
          rw [spelling_cons]
          split
          · rfl
          · rw [List.length_cons]
            omega
        rw [hplace] at hfield hshown
        exact .inr ⟨hx, tree :: pre, post, by rw [heq]; rfl, hfield, hshown⟩

theorem names_views {s : Symbol} {p : Nat} {cs : List Subtree} (hp : IsProduction s p cs)
    {position : Extent} {inherited : Option Field} (hi : inherited ≠ some .name) {v : View}
    (h : v ∈ views p 0 position inherited cs) : v.Names := by
  rcases field_eq_of_views h with ⟨-, hf, hs⟩ | ⟨hx, pre, post, heq, hf, hs⟩
  · exact ⟨by simp [hs], by simp [hs], by simp [hf]⟩
  · have hplace : (spelling cs)[(spelling pre).length]? = some v.tree.symbol := by
      rw [heq, spelling_append, spelling_cons, if_neg (by simp [hx])]
      simp
    have htest := List.all_eq_true.mp (namesTested_rightSides hp.rhs)
      (v.tree.symbol, (spelling pre).length) (List.mem_zipIdx_iff_getElem?.mpr hplace)
    rw [← hp.number, Bool.and_eq_true] at htest
    rw [Nat.zero_add] at hf hs
    refine ⟨fun kind hkind hname => ?_, fun hkind => ?_, fun hfield => ?_⟩
    · have hword := htest.1
      rw [← hs, Option.mem_def.mp hkind, Option.all_some, List.contains_iff_mem.mpr hname,
        Bool.and_eq_true] at hword
      simpa using hword.1
    · have htag := htest.1
      rw [← hs, hkind] at htag
      simp at htag
    · have hat : fieldAt p (spelling pre).length = some .name := by
        rw [hf, Option.orElse_eq_orElse, Option.orElse_eq_or] at hfield
        exact (Option.or_eq_some_iff.mp hfield).resolve_right fun hand => hi hand.2
      have hany := htest.2
      rw [hat, ← hs] at hany
      obtain ⟨kind, hkind, hname⟩ := (Option.any_eq_true ..).mp (by simpa using hany)
      exact ⟨kind, hkind, List.contains_iff_mem.mp hname⟩

theorem names_views_zero {position : Extent} {inherited : Option Field} (hi : inherited ≠ some .name)
    {cs : List Subtree} {v : View} (h : v ∈ views 0 0 position inherited cs) : v.Names := by
  have hshown := shown_views_zero h
  refine ⟨by simp [hshown], by simp [hshown], fun hfield => ?_⟩
  rcases field_eq_of_views h with ⟨-, hf, -⟩ | ⟨-, pre, post, -, hf, -⟩
  · rw [hf] at hfield
    cases hfield
  · rw [hf] at hfield
    exact absurd hfield hi

/-! ## Nodes that show names -/

/-- A word that is no invented token is a leaf that takes up some text. -/
theorem leaf_of_identifier {t : Subtree} (h : Grown t) (hs : t.symbol = .identifier)
    (hm : t.facts.missing = false) : t.children = [] ∧ 0 < t.facts.size.bytes := by
  have hwide := h.wide_token (by rw [hs]; rfl) (.inl hm) (by rw [hs]; decide)
  cases h with
  | token | invented | unreadable => exact ⟨rfl, hwide⟩
  | production hp =>
    rw [Subtree.symbol_ofChildren] at hs
    have hrhs := hp.rhs
    rw [hs] at hrhs
    cases hrhs
  | skipped | skipping => simp [Subtree.skipped] at hs

theorem symbol_not_nameKind {t : Subtree} (h : Grown t) : t.symbol ∉ nameKinds := by
  intro hname
  obtain ⟨hterm, hrhs, hinv, hskip⟩ := rightSides_nameKinds _ hname
  cases h with
  | token ht => exact Bool.false_ne_true (hterm.symm.trans ht.terminal)
  | invented hs => exact hinv hs
  | production hp =>
    rw [Subtree.symbol_ofChildren] at hrhs
    have hmem := hp.rhs
    rw [hrhs] at hmem
    cases hmem
  | skipped | skipping => simp [Subtree.skipped, Symbol.isSkipped] at hskip
  | @unreadable facts hu =>
    have hs : (Subtree.node facts []).symbol = .error := hu.symbol_eq
    rw [hs] at hskip
    cases hskip

theorem lies_leaf_named {chars : List Char} {position : Extent} {t : Subtree} (h : Lies chars position t)
    (hc : t.children = []) (hs : t.symbol = .identifier) (hw : 0 < t.facts.size.bytes) :
    NamedAt chars (position + t.facts.padding) t.facts.size := by
  cases h with
  | leaf _ _ _ hname => exact hname hs hw
  | node => cases hc

namespace View

variable {chars : List Char} {v : View}

theorem naming_node (hg : Grown v.tree) (hl : Lies chars v.position v.tree) (hv : v.Names) :
    (Node.node v.label (v.inner.flatMap nodes)).Naming chars := by
  refine ⟨fun hkind hmissing => ?_, fun hfield => ?_, fun hkind => ?_⟩
  · have hkind : v.shown.getD v.tree.symbol ∈ nameKinds := hkind
    cases hshown : v.shown with
    | none =>
      rw [hshown] at hkind
      exact absurd hkind (symbol_not_nameKind hg)
    | some kind =>
      rw [hshown] at hkind
      have hword := hv.word kind hshown hkind
      obtain ⟨hc, hwide⟩ := leaf_of_identifier hg hword hmissing
      obtain ⟨pre, word, post, hchars, hstart, hsize, hid⟩ := lies_leaf_named hl hc hword hwide
      refine ⟨?_, pre, word, post, hchars, hstart, ?_, hid⟩
      · show v.inner.flatMap nodes = []
        rw [inner, hc]
        rfl
      · show v.position + v.tree.facts.padding + v.tree.facts.size = _
        rw [hstart, hsize, Extent.of_append]
  · obtain ⟨kind, hshown, hname⟩ := hv.field hfield
    show v.shown.getD v.tree.symbol ∈ nameKinds
    rw [Option.mem_def.mp hshown]
    exact hname
  · have hkind : v.shown.getD v.tree.symbol = .paramTag := hkind
    cases hshown : v.shown with
    | some kind =>
      rw [hshown, Option.getD_some] at hkind
      exact absurd (hkind ▸ hshown) hv.tag
    | none =>
      rw [hshown, Option.getD_none] at hkind
      have hwide := hg.wide_token (by rw [hkind]; rfl) (.inr (by rw [hkind]; decide))
        (by rw [hkind]; decide)
      show v.first < v.last
      rw [View.last]
      omega

/-- A tree becomes nodes whose names are known, if its children do. -/
theorem allNaming (hg : Grown v.tree) (hl : Lies chars v.position v.tree) (hv : v.Names)
    (hin : ∀ w ∈ v.inner, ∀ node ∈ w.nodes, node.AllNaming chars) :
    ∀ node ∈ v.nodes, node.AllNaming chars := by
  have hall : ∀ node ∈ v.inner.flatMap View.nodes, node.AllNaming chars := by
    intro node hnode
    obtain ⟨w, hw, hmem⟩ := List.mem_flatMap.mp hnode
    exact hin w hw node hmem
  rw [View.nodes_eq]
  split
  · intro node hnode
    obtain rfl := List.mem_singleton.mp hnode
    exact .mk (naming_node hg hl hv) hall
  · exact hall

/-- A hidden tree hands on no field of a name. -/
theorem inherited_ne_name (hv : v.Names) : (if v.isShown then none else v.field) ≠ some .name := by
  split
  · simp
  · rename_i hshown
    intro hfield
    obtain ⟨kind, hkind, -⟩ := hv.field hfield
    rw [isShown, Option.mem_def.mp hkind, Option.isSome_some, Bool.true_or] at hshown
    exact hshown rfl

end View

/-- What the productions show of the children of a tree. -/
theorem View.names_inner {v : View} (hg : Grown v.tree) (hv : v.Names) : ∀ w ∈ v.inner, w.Names := by
  intro w hw
  have hinherited := View.inherited_ne_name hv
  rw [View.inner] at hw
  generalize (if v.isShown then none else v.field) = inherited at hw hinherited
  generalize v.tree = t at hg hw
  cases hg with
  | token | invented | unreadable => cases hw
  | production hp =>
    rw [Subtree.production_ofChildren, Subtree.children_ofChildren] at hw
    exact names_views hp hinherited hw
  | skipped | skipping =>
    have hproduction : ∀ (s : Symbol) (cs : List Subtree) (extra : Bool),
        ((Subtree.ofChildren s 0 cs).withExtra extra).facts.production = 0 := fun s cs _ =>
      Subtree.production_ofChildren s 0 cs
    simp only [Subtree.skipped, hproduction, Subtree.production_ofChildren] at hw
    exact names_views_zero hinherited hw

/-- **The nodes that a tree becomes show words as names, and nothing else.** -/
theorem allNaming_nodes {chars : List Char} {position : Extent} {t : Subtree}
    (hl : Lies chars position t) (hg : Grown t) (v : View) (hpos : v.position = position)
    (ht : v.tree = t) (hv : v.Names) : ∀ node ∈ v.nodes, node.AllNaming chars := by
  induction hl generalizing v with
  | leaf hplace hstart hstop hname =>
    refine v.allNaming (ht ▸ hg) (hpos ▸ ht ▸ .leaf hplace hstart hstop hname) hv fun w hw => ?_
    rw [View.inner, ht] at hw
    cases hw
  | node hp hs hall ih =>
    refine v.allNaming (ht ▸ hg) (hpos ▸ ht ▸ .node hp hs hall) hv fun w hw => ?_
    have hnames := v.names_inner (ht ▸ hg) hv w hw
    rw [View.inner, ht, hpos] at hw
    obtain ⟨pre, post, heq, hwpos⟩ := lies_views hall hw
    refine ih pre w.tree post heq (hg.children _ ?_) w hwpos rfl hnames
    exact (mem_views hw).1

theorem allNaming_root {chars : List Char} {root : Subtree} (h : IsRoot root) (hl : Lies chars 0 root) :
    (Node.ofSubtree root).AllNaming chars := by
  obtain ⟨hgrown, hproduction⟩ := h.children
  rw [ofSubtree_eq]
  refine .mk ⟨fun hkind => ?_, (fun hfield => by cases hfield), fun hkind => ?_⟩ fun node hnode => ?_
  · have hroot : root.symbol ∈ nameKinds := hkind
    cases h with
    | whole | gaveUp => simp [nameKinds] at hroot
  · have hroot : root.symbol = .paramTag := hkind
    cases h with
    | whole | gaveUp => simp at hroot
  · obtain ⟨w, hw, hmem⟩ := List.mem_flatMap.mp hnode
    rw [View.inner, isShown_rootView, if_pos rfl] at hw
    have hw : w ∈ views root.facts.production 0 0 none root.children := hw
    obtain ⟨pre, post, heq, hpos⟩ := lies_views hl.children hw
    rw [hproduction] at hw
    exact allNaming_nodes (hl.children pre w.tree post heq) (hgrown _ (mem_views hw).1) w hpos rfl
      (names_views_zero (by simp) hw) node hmem

/-- **The names in the syntax tree of a text are words that are no keywords.** -/
theorem naming_parse (chars : List Char) : (Node.parse chars).AllNaming chars :=
  allNaming_root (isRoot_parse chars) (isWhole_parse chars).lies

end Cicode.Tree
