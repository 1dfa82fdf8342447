import Cicode.Proofs.Parse.Run
import Cicode.Proofs.Tree.Problems
import Cicode.Proofs.Tree.Views

/-!
# Which repairs are reported

The repairs in a tree are the tokens that the parser invented and the trees for text that it
skipped.  A tree has its price exactly if there is a repair in it (`errorCost_eq_zero_iff`).

Skipped text is always shown, and so is every invented token but one: the closing tags of
documentation have no node of their own.  A text has a problem to report exactly if one of its repairs
is something else than such a tag (`under_eq_nil_iff`).
-/

namespace Cicode.Parse.Subtree

open Grammar

mutual

/-- The repairs in a tree: invented tokens and skipped text, at any depth. -/
def repairs : Subtree → List Subtree
  | .node facts children =>
    (if facts.missing || facts.symbol.isSkipped then [.node facts children] else []) ++
      repairsAll children

/-- The repairs in several trees. -/
def repairsAll : List Subtree → List Subtree
  | [] => []
  | tree :: rest => repairs tree ++ repairsAll rest

end

/-- The tree is itself a repair. -/
def isRepair (tree : Subtree) : Bool := tree.facts.missing || tree.symbol.isSkipped

theorem repairsAll_eq (trees : List Subtree) : repairsAll trees = trees.flatMap repairs := by
  induction trees with
  | nil => rfl
  | cons tree rest ih => rw [repairsAll, ih, List.flatMap_cons]

theorem repairs_eq (tree : Subtree) : tree.repairs =
    (if tree.isRepair then [tree] else []) ++ tree.children.flatMap repairs := by
  obtain ⟨facts, children⟩ := tree
  rw [repairs, repairsAll_eq]
  rfl

theorem repairs_leaf {facts : Facts} (h : (Subtree.node facts []).isRepair = false) :
    (Subtree.node facts []).repairs = [] := by
  rw [repairs_eq, h]
  rfl

theorem repairs_eq_nil {tree : Subtree} (h : tree.isRepair = false) :
    tree.repairs = [] ↔ ∀ c ∈ tree.children, c.repairs = [] := by
  rw [repairs_eq, h]
  simp

theorem mem_repairs_self {tree : Subtree} (h : tree.isRepair = true) : tree ∈ tree.repairs := by
  rw [repairs_eq, h]
  simp

end Cicode.Parse.Subtree

namespace Cicode.Parse

open Grammar

/-- Skipped text is wrapped up and has its price. -/
def Wrapped (tree : Subtree) : Prop :=
  tree.symbol.isSkipped = true → tree.symbol = .error ∧ 0 < tree.errorCost

theorem IsToken.not_repair {facts : Facts} (h : IsToken facts) :
    (Subtree.node facts []).isRepair = false := by
  have hs : facts.symbol.isSkipped = false := by
    have ht := h.terminal
    revert ht
    cases facts.symbol <;> decide
  simp [Subtree.isRepair, Subtree.symbol, Subtree.facts, hs, h.present]

theorem IsProduction.not_repair {s : Symbol} {p : Nat} {cs : List Subtree} (h : IsProduction s p cs) :
    s.isSkipped = false ∧ (Subtree.ofChildren s p cs).isRepair = false := by
  have hs : s.isSkipped = false := by
    have hrhs := h.rhs
    revert hrhs
    cases s <;> simp [rightSides, rule, repeated, Symbol.isSkipped]
  exact ⟨hs, by simp [Subtree.isRepair, hs]⟩

/-- A tree of skipped text is a repair that has its price. -/
theorem skipped_repair (cs : List Subtree) (extra : Bool) :
    (Subtree.skipped cs extra).isRepair = true ∧ 0 < (Subtree.skipped cs extra).errorCost := by
  refine ⟨by simp [Subtree.isRepair, Subtree.skipped, Symbol.isSkipped], ?_⟩
  rw [Subtree.skipped, Subtree.errorCost_withExtra]
  exact Subtree.errorCost_skipped_pos rfl ..

/-- **A tree has its price exactly if there is a repair in it.** -/
theorem errorCost_eq_zero_iff {t : Subtree} (h : Grown t) (hw : Wrapped t) :
    t.errorCost = 0 ↔ t.repairs = [] := by
  induction h with
  | token ht => exact iff_of_true ht.free (Subtree.repairs_leaf ht.not_repair)
  | @invented s hs =>
    refine iff_of_false (by decide : missingCost + recoveryCost ≠ 0) fun hnil => ?_
    have hmem : Subtree.missingToken s ∈ (Subtree.missingToken s).repairs :=
      Subtree.mem_repairs_self rfl
    rw [hnil] at hmem
    cases hmem
  | @production s p cs hp hg ih =>
    obtain ⟨hs, hrep⟩ := hp.not_repair
    rw [Subtree.errorCost_ofChildren_eq_zero hs, Subtree.repairs_eq_nil hrep, Subtree.children_ofChildren]
    refine forall₂_congr fun c hc => ?_
    have hwc : Wrapped c := hp.skipped hg c hc
    rw [ih c hc hwc, or_iff_right]
    intro hr
    cases hr.symm.trans (hwc (by rw [hr]; rfl)).1
  | @skipped cs extra =>
    obtain ⟨hrep, hcost⟩ := skipped_repair cs extra
    refine iff_of_false (Nat.ne_of_gt hcost) fun hnil => ?_
    have hmem := Subtree.mem_repairs_self hrep
    rw [hnil] at hmem
    cases hmem
  | @skipping cs =>
    have herr := (hw (by simp [Symbol.isSkipped])).1
    simp at herr
  | @unreadable facts hu =>
    have hs : (Subtree.node facts []).symbol = .error := hu.symbol_eq
    exact absurd hu.free (Nat.ne_of_gt (hw (by rw [hs]; rfl)).2)

end Cicode.Parse

namespace Cicode.Tree

open Grammar Text Parse Cicode.Lex

/-- The closing tags of documentation. -/
def closingTags : List Symbol := [.summaryEnd, .paramEnd, .returnsEnd]

/-- What closing tags may be a part of, and the tags themselves. -/
def docSymbols : List Symbol :=
  [.sourceFile, .topLevelItems, .docComment, .docSummary, .docParam, .docReturns] ++ closingTags

/-! ## What productions show -/

/-- The kinds that productions give to children. -/
theorem shownKind_kinds {production place : Nat} {kind : Symbol}
    (h : shownKind production place = some kind) : kind ≠ .error ∧ kind ∉ docSymbols ∧
      kind ≠ .statementOrExpression ∧ kind ≠ .returnStatement ∧ kind ≠ .endOfInput := by
  have hall : ∀ p ∈ productions.toList, ∀ k ∈ p.kinds, k.2 ≠ .error ∧ k.2 ∉ docSymbols ∧
      k.2 ≠ .statementOrExpression ∧ k.2 ≠ .returnStatement ∧ k.2 ≠ .endOfInput := by
    decide
  rw [shownKind] at h
  obtain ⟨p, hp, h⟩ := Option.bind_eq_some_iff.mp h
  obtain ⟨k, hk, rfl⟩ := Option.map_eq_some_iff.mp h
  exact hall p (Array.mem_toList_iff.mpr (Array.mem_of_getElem? hp)) k (List.mem_of_find?_eq_some hk)

/-- Documentation is never shown under another kind. -/
theorem shownKind_docSymbol {s : Symbol} {rhs : List Symbol} (h : rhs ∈ rightSides s) (place : Nat)
    {x : Symbol} (hx : rhs[place]? = some x) (hc : x ∈ docSymbols) :
    shownKind (productionNumber s rhs) place = none := by
  have hall : ∀ rhs ∈ rightSides s, (rhs.zipIdx.all fun q =>
      !docSymbols.contains q.1 || (shownKind (productionNumber s rhs) q.2).isNone) = true := by
    cases s <;> decide
  have hq := List.all_eq_true.mp (hall rhs h) (x, place) (List.mem_zipIdx_iff_getElem?.mpr hx)
  simpa [List.contains_iff_mem, hc] using hq

/-- What is shown under another kind is part of a right-hand side, and no documentation. -/
theorem shown_views {s : Symbol} {p : Nat} {cs : List Subtree} (hp : IsProduction s p cs)
    {position : Extent} {inherited : Option Field} {v : View} (h : v ∈ views p 0 position inherited cs)
    (hs : v.shown.isSome = true) : v.tree.symbol ∈ spelling cs ∧ v.tree.symbol ∉ docSymbols := by
  obtain ⟨hmem, hshown⟩ := mem_views h
  obtain ⟨hextra, pre, post, heq, hkind⟩ := hshown hs
  refine ⟨mem_spelling hmem hextra, fun hc => ?_⟩
  have hplace : (spelling cs)[0 + (spelling pre).length]? = some v.tree.symbol := by
    rw [heq, spelling_append, spelling_cons, if_neg (by simp [hextra])]
    simp
  rw [hkind, hp.number, shownKind_docSymbol hp.rhs _ hplace hc] at hs
  cases hs

/-- A view that shows neither skipped text nor closing tags under another kind. -/
structure View.Plain (v : View) : Prop where
  shown_ne : v.shown ≠ some .error
  symbol : v.shown.isSome = true → v.tree.symbol.isSkipped = false ∧ v.tree.symbol ∉ closingTags

theorem plain_views {s : Symbol} {p : Nat} {cs : List Subtree} (hp : IsProduction s p cs)
    {position : Extent} {inherited : Option Field} {v : View} (h : v ∈ views p 0 position inherited cs) :
    v.Plain := by
  obtain ⟨-, hshown⟩ := mem_views h
  refine ⟨fun he => ?_, fun hs => ?_⟩
  · obtain ⟨-, pre, post, -, heq⟩ := hshown (by rw [he]; rfl)
    exact (shownKind_kinds (heq.symm.trans he)).1 rfl
  · obtain ⟨hsym, hdoc⟩ := shown_views hp h hs
    exact ⟨(mem_rightSide hp.rhs _ hsym).1, fun hc => hdoc (List.mem_append_right _ hc)⟩

/-! ## Problems and repairs -/

variable {source : Source}

/-- There is something to report below some nodes. -/
theorem underAll_eq_nil {nodes : List Node} :
    Problem.underAll source nodes = [] ↔ ∀ node ∈ nodes, Problem.under source node = [] := by
  induction nodes with
  | nil => simp [Problem.underAll]
  | cons node rest ih => simp [Problem.underAll, ih]

/-- A node that is no problem itself. -/
theorem ofNode?_eq_none {node : Node} :
    Problem.ofNode? source node = none ↔ node.isMissing = false ∧ node.isError = false := by
  rw [Problem.ofNode?, Option.map_eq_none_iff, Problem.messageFor?]
  cases hm : node.isMissing with
  | true =>
    simp only [↓reduceIte, Bool.true_eq_false, false_and, iff_false]
    split
    · simp
    · split <;> simp
  | false =>
    cases he : node.isError <;> simp

/-- A tree that is no repair is shown as a node that is no problem. -/
theorem View.Plain.ofNode?_label {v : View} (hp : v.Plain) (hr : v.tree.isRepair = false)
    (children : List Node) : Problem.ofNode? source (.node v.label children) = none := by
  simp only [Subtree.isRepair, Bool.or_eq_false_iff] at hr
  refine ofNode?_eq_none.mpr ⟨hr.1, ?_⟩
  show (v.shown.getD v.tree.symbol == .error) = false
  cases hs : v.shown with
  | none =>
    refine beq_eq_false_iff_ne.mpr fun he => ?_
    rw [show v.tree.symbol = .error from he] at hr
    cases hr.2
  | some kind =>
    refine beq_eq_false_iff_ne.mpr fun he => ?_
    rw [show kind = .error from he] at hs
    exact hp.shown_ne hs

/-- What lies below a tree that is no repair is reported if it has its price. -/
theorem View.under_nodes {v : View} (hp : v.Plain) (hr : v.tree.isRepair = false)
    (hfree : v.tree.errorCost = 0 → ∀ w ∈ v.inner, ∀ node ∈ w.nodes, Problem.under source node = []) :
    (∀ node ∈ v.nodes, Problem.under source node = []) ↔
      ∀ w ∈ v.inner, ∀ node ∈ w.nodes, Problem.under source node = [] := by
  rw [v.nodes_eq]
  split
  · simp only [List.mem_singleton, forall_eq]
    rw [Problem.under_eq, hp.ofNode?_label hr]
    by_cases hcost : v.tree.errorCost = 0
    · have herr : (Node.node v.label (v.inner.flatMap View.nodes)).hasError = false := by
        show decide (0 < v.tree.errorCost) = false
        simp [hcost]
      rw [herr]
      exact iff_of_true rfl (hfree hcost)
    · have herr : (Node.node v.label (v.inner.flatMap View.nodes)).hasError = true := by
        show decide (0 < v.tree.errorCost) = true
        simpa using Nat.pos_of_ne_zero hcost
      rw [herr, if_pos rfl]
      simp only [Node.children, underAll_eq_nil, List.mem_flatMap, forall_exists_index, and_imp]
      exact ⟨fun h w hw node hn => h node w hw hn, fun h node w hw hn => h w hw node hn⟩
  · simp only [List.mem_flatMap, forall_exists_index, and_imp]
    exact ⟨fun h w hw node hn => h node w hw hn, fun h node w hw hn => h w hw node hn⟩

/-- A repair that is shown is reported. -/
theorem View.under_repair {v : View} (hs : v.isShown = true) (hcost : 0 < v.tree.errorCost)
    (hr : v.label.isMissing = true ∨ v.label.kind = .error) :
    ¬∀ node ∈ v.nodes, Problem.under source node = [] := by
  intro hall
  have hnil := hall (.node v.label (v.inner.flatMap View.nodes)) (by simp [v.nodes_eq, hs])
  have herr : (Node.node v.label (v.inner.flatMap View.nodes)).hasError = true := by
    show decide (0 < v.tree.errorCost) = true
    simpa using hcost
  rw [Problem.under_eq, herr, if_pos rfl] at hnil
  split at hnil
  · cases hnil
  · rename_i hnone
    obtain ⟨h1, h2⟩ := ofNode?_eq_none.mp hnone
    rcases hr with hr | hr
    · exact absurd (hr.symm.trans h1) (by simp)
    · exact beq_eq_false_iff_ne.mp h2 hr

/-- A tree that is no repair reports what its children report. -/
theorem View.under_ofChildren {s : Symbol} {p : Nat} {cs : List Subtree} {v : View}
    (ht : v.tree = .ofChildren s p cs) (hp : v.Plain) (hr : (Subtree.ofChildren s p cs).isRepair = false)
    (hfree : (Subtree.ofChildren s p cs).errorCost = 0 → ∀ c ∈ cs, c.repairs = [])
    (hiff : ∀ w ∈ views p 0 v.position (if v.isShown then none else v.field) cs,
      ((∀ node ∈ w.nodes, Problem.under source node = []) ↔
        ∀ r ∈ w.tree.repairs, r.symbol ∈ closingTags)) :
    (∀ node ∈ v.nodes, Problem.under source node = []) ↔
      ∀ r ∈ (Subtree.ofChildren s p cs).repairs, r.symbol ∈ closingTags := by
  have hinner : v.inner = views p 0 v.position (if v.isShown then none else v.field) cs := by
    rw [View.inner, ht, Subtree.production_ofChildren, Subtree.children_ofChildren]
  have hchildren : (∀ w ∈ v.inner, ∀ node ∈ w.nodes, Problem.under source node = []) ↔
      ∀ c ∈ cs, ∀ r ∈ c.repairs, r.symbol ∈ closingTags := by
    rw [hinner, forall₂_congr hiff]
    refine ⟨fun h c hc => ?_, fun h w hmem => h w.tree (mem_views hmem).1⟩
    obtain ⟨w, hmem, rfl⟩ := exists_view hc p 0 v.position (if v.isShown then none else v.field)
    exact h w hmem
  rw [View.under_nodes hp (ht ▸ hr) ?_, hchildren, Subtree.repairs_eq, hr, Subtree.children_ofChildren]
  · simp only [Bool.false_eq_true, ↓reduceIte, List.nil_append, List.mem_flatMap,
      forall_exists_index, and_imp]
    exact ⟨fun h r c hc hr => h c hc r hr, fun h c hc r hr => h r c hc hr⟩
  · intro hcost
    refine hchildren.mpr fun c hc => ?_
    rw [hfree (ht ▸ hcost) c hc]
    simp

/-- Of the tokens that are invented, all but the closing tags are visible. -/
theorem inventable_visible : ∀ s ∈ inventable, s ∈ closingTags ∧ s.isVisible = false ∨
    s ∉ closingTags ∧ s.isVisible = true := by
  decide

theorem skipped_of_mem_closingTags : ∀ s ∈ closingTags, s.isSkipped = false := by decide

/-- **A tree has nothing to report exactly if all its repairs are closing tags.** -/
theorem under_eq_nil_iff {t : Subtree} (h : Grown t) (hw : Wrapped t) (v : View) (ht : v.tree = t)
    (hp : v.Plain) : (∀ node ∈ v.nodes, Problem.under source node = []) ↔
      ∀ r ∈ t.repairs, r.symbol ∈ closingTags := by
  induction h generalizing v with
  | @token facts hf =>
    have hinner : v.inner = [] := by rw [View.inner, ht]; rfl
    rw [View.under_nodes hp (ht ▸ hf.not_repair) (by simp [hinner]), hinner,
      Subtree.repairs_leaf hf.not_repair]
    simp
  | @invented s hs =>
    have hrepairs : (Subtree.missingToken s).repairs = [.missingToken s] := by
      rw [Subtree.repairs_eq]
      rfl
    rw [hrepairs]
    simp only [List.mem_singleton, forall_eq]
    rcases inventable_visible s hs with ⟨htag, hhid⟩ | ⟨htag, hvis⟩
    · -- A closing tag becomes no node.
      have hshown : v.isShown = false := by
        have hnone : v.shown.isSome = false := Bool.eq_false_iff.mpr fun hsome =>
          (hp.symbol hsome).2 (by rw [ht]; exact htag)
        rw [View.isShown, hnone, ht]
        exact hhid
      have hinner : v.inner = [] := by rw [View.inner, ht]; rfl
      refine iff_of_true (fun node hn => ?_) htag
      rw [v.nodes_eq, hshown, hinner] at hn
      cases hn
    · refine iff_of_false (View.under_repair ?_ ?_ (.inl ?_)) htag
      · rw [View.isShown, ht]
        exact Bool.or_eq_true_iff.mpr (.inr hvis)
      · rw [ht]
        exact Nat.zero_lt_succ _
      · show v.tree.facts.missing = true
        rw [ht]
        rfl
  | @production s p cs hprod hg ih =>
    obtain ⟨hs, hrep⟩ := hprod.not_repair
    have hwc : ∀ c ∈ cs, Wrapped c := fun c hc => hprod.skipped hg c hc
    refine View.under_ofChildren ht hp hrep (fun hcost => ?_) fun w hmem => ?_
    · rwa [errorCost_eq_zero_iff (.production hprod hg) hw, Subtree.repairs_eq_nil hrep] at hcost
    · have hc := (mem_views hmem).1
      exact ih w.tree hc (hwc w.tree hc) w rfl (plain_views hprod hmem)
  | @skipped cs extra =>
    obtain ⟨hrep, hcost⟩ := skipped_repair cs extra
    have hsym : v.tree.symbol = .error := by rw [ht]; simp [Subtree.skipped]
    have hnone : v.shown = none := by
      by_contra hsome
      have := (hp.symbol (Option.isSome_iff_ne_none.mpr hsome)).1
      rw [hsym] at this
      cases this
    refine iff_of_false (View.under_repair ?_ (ht ▸ hcost) (.inr ?_)) fun hall => ?_
    · rw [View.isShown, hnone, Subtree.isVisible, hsym]
      rfl
    · show v.shown.getD v.tree.symbol = .error
      rw [hnone, hsym]
      rfl
    · have htag := skipped_of_mem_closingTags _ (hall _ (Subtree.mem_repairs_self hrep))
      rw [← ht, hsym] at htag
      cases htag
  | @skipping cs =>
    have herr := (hw (by simp [Symbol.isSkipped])).1
    simp at herr
  | @unreadable facts hu =>
    have hs : (Subtree.node facts []).symbol = .error := hu.symbol_eq
    exact absurd hu.free (Nat.ne_of_gt (hw (by rw [hs]; rfl)).2)

/-! ## The whole text -/

/-- The root of a syntax tree as a view. -/
def rootView (tree : Subtree) : View := ⟨0, some tree.symbol, none, tree⟩

theorem isShown_rootView (tree : Subtree) : (rootView tree).isShown = true := rfl

theorem ofSubtree_eq (tree : Subtree) :
    Node.ofSubtree tree = .node (rootView tree).label ((rootView tree).inner.flatMap View.nodes) := by
  have hnodes := (rootView tree).nodes_eq
  rw [if_pos (isShown_rootView tree)] at hnodes
  have hof : Node.ofSubtree tree = ((rootView tree).nodes.head?).getD default := rfl
  rw [hof, hnodes]
  rfl

theorem hasError_ofSubtree (tree : Subtree) :
    (Node.ofSubtree tree).hasError = decide (0 < tree.errorCost) := by
  rw [ofSubtree_eq]
  rfl

/-- Nothing is shown under another kind where children go unnamed. -/
theorem shownKind_zero (place : Nat) : shownKind 0 place = none := rfl

theorem plain_views_zero {cs : List Subtree} {position : Extent} {inherited : Option Field} {v : View}
    (h : v ∈ views 0 0 position inherited cs) : v.Plain := by
  have hnone : ¬v.shown.isSome = true := by
    intro hs
    obtain ⟨-, pre, post, -, heq⟩ := (mem_views h).2 hs
    rw [heq, shownKind_zero] at hs
    cases hs
  refine ⟨fun he => hnone (by rw [he]; rfl), fun hs => absurd hs hnone⟩

/-- **The tree of a text has its price exactly if it was repaired, and nothing is reported exactly if
all repairs are closing tags.** -/
theorem IsRoot.reported {root : Subtree} (h : IsRoot root) :
    ((Node.ofSubtree root).hasError = false ↔ root.repairs = []) ∧
    (Problem.under source (Node.ofSubtree root) = [] ↔ ∀ r ∈ root.repairs, r.symbol ∈ closingTags) := by
  have hnodes : (∀ node ∈ (rootView root).nodes, Problem.under source node = []) ↔
      Problem.under source (Node.ofSubtree root) = [] := by
    rw [(rootView root).nodes_eq, if_pos (isShown_rootView root), ofSubtree_eq]
    simp
  rw [hasError_ofSubtree, decide_eq_false_iff_not, Nat.not_lt, Nat.le_zero, ← hnodes]
  cases h with
  | @whole cs hg hskip =>
    have hrep : (Subtree.ofChildren .sourceFile 0 cs).isRepair = false := by
      simp [Subtree.isRepair, Symbol.isSkipped]
    have hplain : (rootView (.ofChildren .sourceFile 0 cs)).Plain := by
      refine ⟨?_, fun _ => ?_⟩
      · simp [rootView]
      · simp [rootView, Symbol.isSkipped, closingTags]
    by_cases hex : ∃ c ∈ cs, c.symbol.isSkipped = true
    · -- Beside skipped text that is not wrapped up there is some that is.
      obtain ⟨c, hc, hsym, hcost⟩ := hskip hex
      have hcrep : c.isRepair = true := by simp [Subtree.isRepair, hsym, Symbol.isSkipped]
      have hne : (Subtree.ofChildren .sourceFile 0 cs).errorCost ≠ 0 := by
        rw [ne_eq, Subtree.errorCost_ofChildren_eq_zero rfl]
        intro hall
        rcases hall c hc with h | h
        · rw [hsym] at h
          cases h
        · omega
      have hmem : c ∈ (Subtree.ofChildren .sourceFile 0 cs).repairs := by
        rw [Subtree.repairs_eq, hrep, Subtree.children_ofChildren]
        exact List.mem_flatMap.mpr ⟨c, hc, Subtree.mem_repairs_self hcrep⟩
      have htag : c.symbol ∉ closingTags := by rw [hsym]; decide
      refine ⟨iff_of_false hne fun hnil => ?_, iff_of_false (fun hall => ?_) fun hall => htag (hall c hmem)⟩
      · rw [hnil] at hmem
        cases hmem
      · rw [View.under_nodes hplain hrep fun h0 => absurd h0 hne] at hall
        obtain ⟨w, hw, rfl⟩ := exists_view hc 0 0 0 none
        have hinner : (rootView (.ofChildren .sourceFile 0 cs)).inner = views 0 0 0 none cs := by
          rw [View.inner, if_pos (isShown_rootView _)]
          simp [rootView]
        have hquiet := (under_eq_nil_iff (hg _ hc) (fun _ => ⟨hsym, hcost⟩) w rfl
          (plain_views_zero hw)).mp (hall w (hinner ▸ hw))
        exact htag (hquiet _ (Subtree.mem_repairs_self hcrep))
    · have hwc : ∀ c ∈ cs, Wrapped c := fun c hc hs => absurd ⟨c, hc, hs⟩ hex
      have hcost : (Subtree.ofChildren .sourceFile 0 cs).errorCost = 0 ↔ ∀ c ∈ cs, c.repairs = [] := by
        rw [Subtree.errorCost_ofChildren_eq_zero rfl]
        refine forall₂_congr fun c hc => ?_
        rw [errorCost_eq_zero_iff (hg c hc) (hwc c hc), or_iff_right]
        intro hr
        exact hex ⟨c, hc, by rw [hr]; rfl⟩
      refine ⟨?_, ?_⟩
      · rw [hcost, Subtree.repairs_eq_nil hrep, Subtree.children_ofChildren]
      · refine View.under_ofChildren rfl hplain hrep hcost.mp fun w hw => ?_
        have hc := (mem_views hw).1
        exact under_eq_nil_iff (hg _ hc) (hwc _ hc) w rfl (plain_views_zero hw)
  | @gaveUp cs hg =>
    have hcost : 0 < (Subtree.ofChildren .error 0 cs).errorCost := Subtree.errorCost_skipped_pos rfl ..
    have hmem : Subtree.ofChildren .error 0 cs ∈ (Subtree.ofChildren .error 0 cs).repairs :=
      Subtree.mem_repairs_self (by simp [Subtree.isRepair, Symbol.isSkipped])
    refine ⟨iff_of_false (Nat.ne_of_gt hcost) fun hnil => ?_, iff_of_false ?_ fun hall => ?_⟩
    · rw [hnil] at hmem
      cases hmem
    · refine View.under_repair rfl hcost (.inr ?_)
      exact Subtree.symbol_ofChildren .error 0 cs
    · have htag := hall _ hmem
      rw [Subtree.symbol_ofChildren] at htag
      exact absurd htag (by decide)

end Cicode.Tree
