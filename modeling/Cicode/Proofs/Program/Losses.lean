import Cicode.Proofs.Program.Visits
import Cicode.Proofs.Tree.Coverage

/-!
# Nothing is lost in silence

The nodes that lowering leaves out lie apart from each other.  One that holds no repair takes up
some text, so that its span is its own, and it is reported with this span.  One that holds a repair is
reported by the list of problems, inside the node or around it.

Main statement (`lowering_loses_nothing_silently`): each node that lowering visits is kept, reported
once, or covered by a syntax problem; the reports are those of the nodes that are left out without a
repair; and of the statements that are left out none lies inside another one.
-/

namespace Cicode.Program

open Text Cicode.Lex Cicode.Tree Grammar

theorem branching?_mem {node inner : Node} (h : branching? node = some inner) :
    inner ∈ node.children := by
  rw [branching?] at h
  split at h
  · obtain ⟨hhead, -⟩ := Option.filter_eq_some_iff.mp h
    exact mem_children_of_significant (List.mem_of_head? hhead)
  · cases h

theorem header?_spec {node header : Node} (h : header? node = some header) :
    header ∈ node.significant ∧ header.kind = .functionDefinition :=
  ⟨List.mem_of_find?_eq_some h, by simpa using List.find?_some h⟩

theorem isStatement_kind {node : Node} (h : isStatement node = true) :
    node.kind = .statementOrExpression ∨ node.kind = .returnStatement := by
  simpa [isStatement] using h

/-! ## Where the visited nodes lie -/

/-- The visited nodes of a block are statements, in one of the statements of the block. -/
theorem BlockVisits.located {nodes : List Node} {statements : List Statement} {visits : List Visit}
    (h : BlockVisits nodes statements visits) : ∀ v ∈ visits, isStatement v.node = true ∧
      ∃ node ∈ nodes, isStatement node = true ∧ node.Within v.node := by
  induction h with
  | nil => simp
  | other _ _ ih =>
    intro v hv
    obtain ⟨hs, node, hmem, hin⟩ := ih v hv
    exact ⟨hs, node, List.mem_cons_of_mem _ hmem, hin⟩
  | lose hstatement _ ih | keep hstatement _ _ _ ih =>
    intro v hv
    rcases List.mem_cons.mp hv with rfl | hv
    · exact ⟨hstatement, _, List.mem_cons_self, hstatement, .refl _⟩
    · obtain ⟨hs, node, hmem, hin⟩ := ih v hv
      exact ⟨hs, node, List.mem_cons_of_mem _ hmem, hin⟩
  | branch hstatement hbranch _ _ _ ihthen ih =>
    intro v hv
    rcases List.mem_cons.mp hv with rfl | hv
    · exact ⟨hstatement, _, List.mem_cons_self, hstatement, .refl _⟩
    rcases List.mem_append.mp hv with hv | hv
    · obtain ⟨hs, part, hmem, -, hin⟩ := ihthen v hv
      exact ⟨hs, _, List.mem_cons_self, hstatement, .step (branching?_mem hbranch) (.step hmem hin)⟩
    · obtain ⟨hs, node, hmem, hin⟩ := ih v hv
      exact ⟨hs, node, List.mem_cons_of_mem _ hmem, hin⟩
  | branches hstatement hbranch hsplit _ _ _ _ _ ihthen ihelse ih =>
    intro v hv
    rcases List.mem_cons.mp hv with rfl | hv
    · exact ⟨hstatement, _, List.mem_cons_self, hstatement, .refl _⟩
    rcases List.mem_append.mp hv with hv | hv
    · rcases List.mem_append.mp hv with hv | hv
      · obtain ⟨hs, part, hmem, -, hin⟩ := ihthen v hv
        refine ⟨hs, _, List.mem_cons_self, hstatement, .step (branching?_mem hbranch) (.step ?_ hin)⟩
        rw [hsplit]
        exact List.mem_append_left _ hmem
      · obtain ⟨hs, part, hmem, -, hin⟩ := ihelse v hv
        refine ⟨hs, _, List.mem_cons_self, hstatement, .step (branching?_mem hbranch) (.step ?_ hin)⟩
        rw [hsplit]
        exact List.mem_append_right _ (List.mem_cons_of_mem _ hmem)
    · obtain ⟨hs, node, hmem, hin⟩ := ih v hv
      exact ⟨hs, node, List.mem_cons_of_mem _ hmem, hin⟩

/-- The lost statements of a block stand one after the other. -/
theorem BlockVisits.spread {nodes : List Node} {statements : List Statement} {visits : List Visit}
    (h : BlockVisits nodes statements visits) {low high : Nat} (hs : Spread low high nodes)
    (hsound : ∀ node ∈ nodes, node.Sound) : Spread low high (lost visits) := by
  induction h generalizing low high with
  | nil => exact hs
  | other _ _ ih | keep _ _ _ _ ih =>
    have hrest := ih hs.2.2 fun node hn => hsound node (List.mem_cons_of_mem _ hn)
    simpa using hrest.mono_low (Nat.le_trans hs.1 hs.2.1)
  | lose _ _ ih =>
    have hrest := ih hs.2.2 fun node hn => hsound node (List.mem_cons_of_mem _ hn)
    simpa using ⟨hs.1, hs.2.1, hrest⟩
  | branch _ hbranch _ _ _ ihthen ih =>
    have hnode := hsound _ List.mem_cons_self
    have hinner := hnode.child (branching?_mem hbranch)
    obtain ⟨h1, -, h2⟩ := hnode.fair.spread.inside (branching?_mem hbranch)
    have hrest := ih hs.2.2 fun node hn => hsound node (List.mem_cons_of_mem _ hn)
    have hthen := ihthen hinner.fair.spread fun part hpart => hinner.child hpart
    rw [lost_kept, lost_append]
    exact ((hthen.mono_low (Nat.le_trans hs.1 h1)).mono_high h2).append hrest
  | @branches node inner _ _ _ _ _ _ _ _ _ _ _ _ hbranch hsplit _ _ _ _ _ ihthen ihelse ih =>
    have hnode := hsound _ List.mem_cons_self
    have hinner := hnode.child (branching?_mem hbranch)
    obtain ⟨h1, -, h2⟩ := hnode.fair.spread.inside (branching?_mem hbranch)
    have hrest := ih hs.2.2 fun node hn => hsound node (List.mem_cons_of_mem _ hn)
    have hparts := hinner.fair.spread
    have hsoundparts : ∀ part ∈ inner.children, part.Sound := fun part hpart => hinner.child hpart
    rw [hsplit] at hparts hsoundparts
    obtain ⟨mid, hbefore, hafter⟩ := hparts.of_append
    have hthen := ihthen hbefore fun part hpart => hsoundparts part (List.mem_append_left _ hpart)
    have helse := ihelse hafter.2.2 fun part hpart =>
      hsoundparts part (List.mem_append_right _ (List.mem_cons_of_mem _ hpart))
    have hboth := hthen.append (helse.mono_low (Nat.le_trans hafter.1 hafter.2.1))
    rw [lost_kept, lost_append, lost_append]
    exact ((hboth.mono_low (Nat.le_trans hs.1 h1)).mono_high h2).append hrest

theorem ItemVisits.mem {nodes : List Node} {spans : List Span} {visits : List Visit}
    (h : ItemVisits nodes spans visits) {v : Visit} (hv : v ∈ visits) : v.node ∈ nodes := by
  rw [← h.visited]
  exact List.mem_map_of_mem hv

theorem ItemVisits.sublist {nodes : List Node} {spans : List Span} {visits : List Visit}
    (h : ItemVisits nodes spans visits) : (lost visits).Sublist nodes := by
  rw [← h.visited]
  exact List.filter_sublist.map _

theorem isCode_of_kind {node : Node} {kind : Symbol} (hk : node.kind = kind)
    (h : kind ∉ .error :: .endOfInput :: docSymbols) : node.IsCode := by
  rw [← hk] at h
  simp only [List.mem_cons, not_or] at h
  exact ⟨h.2.2, h.2.1, fun he => absurd he h.1⟩

theorem isCode_of_isStatement {node : Node} (h : isStatement node = true) : node.IsCode := by
  rcases isStatement_kind h with hk | hk
  · exact isCode_of_kind hk (by decide)
  · exact isCode_of_kind hk (by decide)

/-- The nodes of a parameter list lie in the header.  The list is no skipped text, since a field refers
to it, so that they are no documentation. -/
theorem listed_spec {header : Node} (hsound : header.Sound) (hk : header.kind = .functionDefinition) :
    (∃ list, header.Within list ∧ (listed header).Sublist list.children) ∧
      ∀ node ∈ listed header, header.Within node ∧ node.IsCode := by
  rw [listed]
  cases hc : header.child? .parameters with
  | none => exact ⟨⟨header, .refl _, List.nil_sublist _⟩, by simp⟩
  | some list =>
    have hlist : list ∈ header.children := List.mem_of_find?_eq_some hc
    have hfield : list.label.field.isSome = true := by
      rw [show list.label.field = some .parameters by simpa using List.find?_some hc]
      rfl
    obtain ⟨hdoc, -, -⟩ := hsound.fair.code (by rw [hk]; decide) (by rw [hk]; decide) list hlist
    have herror := hsound.fair.field list hlist hfield
    refine ⟨⟨list, .child hlist, significant_sublist list⟩, fun node hn => ?_⟩
    have hnode := mem_children_of_significant hn
    exact ⟨.step hlist (.child hnode), (hsound.child hlist).fair.code hdoc herror node hnode⟩

section Functions

variable {node : Node} {f : Function} {visits : List Visit}

theorem FunctionVisits.located (h : FunctionVisits node f visits) (hsound : node.Sound) :
    ∀ v ∈ visits, v.node.IsCode ∧ node.Within v.node := by
  obtain ⟨-, hheader, hp, hl, hb⟩ := h
  obtain ⟨hmem, hk⟩ := header?_spec hheader
  have hchild := mem_children_of_significant hmem
  intro v hv
  rcases List.mem_append.mp hv with hv | hv
  · rcases List.mem_append.mp hv with hv | hv
    · obtain ⟨hin, hcode⟩ := (listed_spec (hsound.child hchild) hk).2 v.node (hp.mem hv)
      exact ⟨hcode, .step hchild hin⟩
    · obtain ⟨hsig, hkind⟩ := List.mem_filter.mp (hl.mem hv)
      exact ⟨isCode_of_kind (by simpa using hkind) (by decide), .child (mem_children_of_significant hsig)⟩
  · obtain ⟨hs, part, hpart, -, hin⟩ := hb.located v hv
    exact ⟨isCode_of_isStatement hs, .step (mem_children_of_significant hpart) hin⟩

/-- The lost nodes of a function are apart from each other: a parameter lies in the header, a statement
in a statement of the function, and these and the declarations are different parts. -/
theorem FunctionVisits.apart (h : FunctionVisits node f visits) (hsound : node.Sound) :
    (lost visits).Pairwise Node.Apart := by
  obtain @⟨header, parameters, locals, body, -, hheader, hp, hl, hb⟩ := h
  obtain ⟨hmem, hk⟩ := header?_spec hheader
  have hchild := mem_children_of_significant hmem
  have hspread := hsound.fair.spread.sublist (significant_sublist node)
  obtain ⟨⟨list, hlist, hsub⟩, hin⟩ := listed_spec (hsound.child hchild) hk
  have hparts : ∀ {a b x y : Node}, a ∈ node.significant → b ∈ node.significant → a.kind ≠ b.kind →
      a.Within x → b.Within y → x.Apart y := by
    intro a b x y ha hb hne hx hy
    refine (hspread.apart ha hb fun heq => hne (congrArg Node.kind heq)).within hx hy ?_ ?_
    · exact hsound.child (mem_children_of_significant ha)
    · exact hsound.child (mem_children_of_significant hb)
  have hparameter : ∀ x ∈ lost parameters, header.Within x := fun x hx => (hin x (hp.sublist.subset hx)).1
  have hlocal : ∀ x ∈ lost locals, x ∈ node.significant ∧ x.kind = .variableDeclaration := by
    intro x hx
    obtain ⟨hsig, hkind⟩ := List.mem_filter.mp (hl.sublist.subset hx)
    exact ⟨hsig, by simpa using hkind⟩
  have hstatement : ∀ x ∈ lost body, ∃ part ∈ node.significant,
      (part.kind = .statementOrExpression ∨ part.kind = .returnStatement) ∧ part.Within x := by
    intro x hx
    obtain ⟨-, part, hpart, hs, hin⟩ := hb.located _ (mem_lost.mp hx)
    exact ⟨part, hpart, isStatement_kind hs, hin⟩
  rw [lost_append, lost_append, List.pairwise_append, List.pairwise_append]
  refine ⟨⟨?_, ?_, ?_⟩, ?_, ?_⟩
  · have hlistsound := hlist.sound (hsound.child hchild)
    exact (hlistsound.fair.spread.sublist (hp.sublist.trans hsub)).pairwise_apart
  · exact (hspread.sublist (hl.sublist.trans List.filter_sublist)).pairwise_apart
  · intro x hx y hy
    obtain ⟨hsig, hkind⟩ := hlocal y hy
    exact hparts hmem hsig (by rw [hk, hkind]; decide) (hparameter x hx) (.refl y)
  · exact (hb.spread hspread fun part hpart =>
      hsound.child (mem_children_of_significant hpart)).pairwise_apart
  · intro x hx y hy
    obtain ⟨part, hpart, hkind, hy⟩ := hstatement y hy
    rcases List.mem_append.mp hx with hx | hx
    · exact hparts hmem hpart (by rcases hkind with h | h <;> rw [hk, h] <;> decide)
        (hparameter x hx) hy
    · obtain ⟨hsig, hkindx⟩ := hlocal x hx
      exact hparts hsig hpart (by rcases hkind with h | h <;> rw [hkindx, h] <;> decide) (.refl x) hy

end Functions

theorem ProgramVisits.located {nodes : List Node} {functions : List Function} {visits : List Visit}
    (h : ProgramVisits nodes functions visits) (hsound : ∀ node ∈ nodes, node.Sound) :
    ∀ v ∈ visits, v.node.IsCode ∧ ∃ node ∈ nodes, node.Within v.node := by
  induction h with
  | nil => simp
  | other _ _ ih =>
    intro v hv
    obtain ⟨hcode, node, hmem, hin⟩ := ih (fun n hn => hsound n (List.mem_cons_of_mem _ hn)) v hv
    exact ⟨hcode, node, List.mem_cons_of_mem _ hmem, hin⟩
  | lose hk _ ih =>
    intro v hv
    rcases List.mem_cons.mp hv with rfl | hv
    · exact ⟨isCode_of_kind hk (by decide), _, List.mem_cons_self, .refl _⟩
    · obtain ⟨hcode, node, hmem, hin⟩ := ih (fun n hn => hsound n (List.mem_cons_of_mem _ hn)) v hv
      exact ⟨hcode, node, List.mem_cons_of_mem _ hmem, hin⟩
  | keep hk hf _ ih =>
    intro v hv
    rcases List.mem_cons.mp hv with rfl | hv
    · exact ⟨isCode_of_kind hk (by decide), _, List.mem_cons_self, .refl _⟩
    rcases List.mem_append.mp hv with hv | hv
    · obtain ⟨hcode, hin⟩ := hf.located (hsound _ List.mem_cons_self) v hv
      exact ⟨hcode, _, List.mem_cons_self, hin⟩
    · obtain ⟨hcode, node, hmem, hin⟩ := ih (fun n hn => hsound n (List.mem_cons_of_mem _ hn)) v hv
      exact ⟨hcode, node, List.mem_cons_of_mem _ hmem, hin⟩

/-- **The lost nodes of a tree are apart from each other.** -/
theorem ProgramVisits.apart {nodes : List Node} {functions : List Function} {visits : List Visit}
    (h : ProgramVisits nodes functions visits) (hsound : ∀ node ∈ nodes, node.Sound)
    (hnodes : nodes.Pairwise Node.Apart) : (lost visits).Pairwise Node.Apart := by
  induction h with
  | nil => exact .nil
  | other _ _ ih =>
    exact ih (fun n hn => hsound n (List.mem_cons_of_mem _ hn)) (List.pairwise_cons.mp hnodes).2
  | lose hk hrest ih =>
    obtain ⟨hfirst, hnodes⟩ := List.pairwise_cons.mp hnodes
    have hsoundrest := fun n hn => hsound n (List.mem_cons_of_mem _ hn)
    rw [lost_lost, List.pairwise_cons]
    refine ⟨fun y hy => ?_, ih hsoundrest hnodes⟩
    obtain ⟨-, other, hmem, hin⟩ := hrest.located hsoundrest _ (mem_lost.mp hy)
    exact (hfirst other hmem).within (.refl _) hin (hsound _ List.mem_cons_self) (hsoundrest other hmem)
  | keep hk hf hrest ih =>
    obtain ⟨hfirst, hnodes⟩ := List.pairwise_cons.mp hnodes
    have hsoundrest := fun n hn => hsound n (List.mem_cons_of_mem _ hn)
    have hnode := hsound _ List.mem_cons_self
    rw [lost_kept, lost_append, List.pairwise_append]
    refine ⟨hf.apart hnode, ih hsoundrest hnodes, fun x hx y hy => ?_⟩
    obtain ⟨-, hinx⟩ := hf.located hnode _ (mem_lost.mp hx)
    obtain ⟨-, other, hmem, hiny⟩ := hrest.located hsoundrest _ (mem_lost.mp hy)
    exact (hfirst other hmem).within hinx hiny hnode (hsoundrest other hmem)

/-! ## Reports -/

/-- The diagnostics of lowering. -/
def reports (text : String) : List Diagnostic := (parse text).2.filter (·.phase == .lowering)

/-- One of two spans lies inside the other. -/
def Nested (a b : Span) : Prop :=
  a.start ≤ b.start ∧ b.stop ≤ a.stop ∨ b.start ≤ a.start ∧ a.stop ≤ b.stop

/-- A visited node is accounted for: it is kept, or there is just one report with its span, or it holds
a problem of the tree and some listed problem lies inside it or encloses it. -/
def Accounted (reports : List Diagnostic) (problems : List Problem) (v : Visit) : Prop :=
  v.kept = true ∨
  reports.countP (·.span == spanOf v.node) = 1 ∨
  (∃ inner, v.node.Within inner ∧ inner.isProblem = true) ∧
    ∃ problem ∈ problems, problem.Inside v.node ∨ problem.Encloses v.node

theorem fst_parse (text : String) : (parse text).1 =
    (lower (Source.ofList text.toList) (Node.parse text.toList)).1 := by
  rw [parse]

theorem reports_eq (text : String) : reports text =
    (lower (Source.ofList text.toList) (Node.parse text.toList)).2.filterMap Dropped.report? := by
  rw [reports, parse]
  simp only [List.filter_append]
  rw [List.filter_eq_nil_iff.mpr, List.filter_eq_self.mpr, List.nil_append]
  · intro d hd
    obtain ⟨dropped, -, hd⟩ := List.mem_filterMap.mp hd
    rw [Dropped.report?] at hd
    split at hd <;> cases hd
    rfl
  · intro d hd
    obtain ⟨problem, -, rfl⟩ := List.mem_map.mp hd
    simp [reportProblem]

/-- What is left out without a repair is reported with its span. -/
theorem map_span_report (dropped : List Dropped) : (dropped.filterMap Dropped.report?).map (·.span) =
    ((leftOut dropped).filter (!·.hasError)).map spanOf := by
  induction dropped with
  | nil => rfl
  | cons first rest ih =>
    by_cases herr : first.node.hasError = true
    · simpa [Dropped.report?, herr] using ih
    · simpa [Dropped.report?, herr] using ih

/-- A visited node without repairs takes up some text. -/
theorem wide_of_isCode {node : Node} (hsound : node.Sound) (hcode : node.IsCode)
    (hfree : node.hasError = false) : node.first < node.last := by
  obtain ⟨hdoc, hend, herror⟩ := hcode
  refine hsound.fair.wide hfree ?_
  simp only [List.mem_cons, List.not_mem_nil, or_false, not_or]
  refine ⟨fun hk => hdoc (by rw [hk]; decide), fun hk => ?_, hend⟩
  rw [herror hk] at hfree
  cases hfree

/-- Spans of nodes that are apart and take up some text are not nested. -/
theorem not_nested_of_apart {a b : Node} (h : a.Apart b) (ha : a.first < a.last)
    (hb : b.first < b.last) : ¬Nested (spanOf a) (spanOf b) := by
  have hspan : ∀ node, spanOf node = ⟨node.first, node.last⟩ := fun _ => rfl
  rw [hspan, hspan, Nested]
  simp only
  rcases h with h | h <;> omega

theorem count_span_eq_one {spans : List Span} (hnodup : spans.Nodup) {diagnostics : List Diagnostic}
    (hd : diagnostics.map (·.span) = spans) {span : Span} (hmem : span ∈ spans) :
    diagnostics.countP (·.span == span) = 1 := by
  rw [← hd] at hnodup hmem
  have hcount := List.count_eq_one_of_mem hnodup hmem
  rw [List.count, List.countP_map] at hcount
  exact hcount

/-- What lowering makes of a sound tree accounts for each visited node. -/
theorem accounts_lower (source : Source) {root : Node} (hsound : root.Sound) {reports : List Diagnostic}
    (hreports : reports = (lower source root).2.filterMap Dropped.report?) : ∃ visits,
    ProgramVisits root.significant (lower source root).1 visits ∧
    (∀ v ∈ visits, Accounted reports (Problem.list source root) v) ∧
    reports.map (·.span) = ((lost visits).filter (!·.hasError)).map spanOf ∧
    (reports.map (·.span)).Nodup ∧
    ((lost visits).filter isStatement).Pairwise fun a b => ¬Nested (spanOf a) (spanOf b) := by
  obtain ⟨visits, hv, hlost⟩ := exists_visits_lower source root
  have hsig := significant_sublist root
  have hnodes : ∀ node ∈ root.significant, node.Sound := fun node hn => hsound.child (hsig.subset hn)
  have hapart := hv.apart hnodes (hsound.fair.spread.sublist hsig).pairwise_apart
  have hlocated : ∀ v ∈ visits, v.node.IsCode ∧ root.Within v.node := by
    intro v hmem
    obtain ⟨hcode, node, hn, hin⟩ := hv.located hnodes v hmem
    exact ⟨hcode, .step (hsig.subset hn) hin⟩
  have hspans : reports.map (·.span) = ((lost visits).filter (!·.hasError)).map spanOf := by
    rw [hreports, map_span_report, hlost]
  -- Lost nodes without repairs take up some text, and so their spans differ.
  have hnodup : (((lost visits).filter (!·.hasError)).map spanOf).Nodup := by
    rw [List.Nodup, List.pairwise_map]
    refine (hapart.sublist List.filter_sublist).imp_of_mem fun {a b} ha hb hab heq => ?_
    obtain ⟨ha, hfa⟩ := List.mem_filter.mp ha
    obtain ⟨hb, hfb⟩ := List.mem_filter.mp hb
    obtain ⟨hca, hwa⟩ := hlocated _ (mem_lost.mp ha)
    obtain ⟨hcb, hwb⟩ := hlocated _ (mem_lost.mp hb)
    refine not_nested_of_apart hab (wide_of_isCode (hwa.sound hsound) hca (by simpa using hfa))
      (wide_of_isCode (hwb.sound hsound) hcb (by simpa using hfb)) ?_
    rw [heq]
    exact .inl ⟨Nat.le_refl _, Nat.le_refl _⟩
  refine ⟨visits, hv, fun v hmem => ?_, hspans, hspans ▸ hnodup, ?_⟩
  · obtain ⟨hcode, hwithin⟩ := hlocated v hmem
    obtain ⟨node, kept⟩ := v
    cases kept with
    | true => exact .inl rfl
    | false =>
      by_cases herr : node.hasError = true
      · refine .inr (.inr ⟨(hwithin.sound hsound).exists_problem hcode.1 herr, ?_⟩)
        rw [Problem.list_eq]
        exact hsound.covered hwithin hcode.1 herr
      · refine .inr (.inl (count_span_eq_one hnodup hspans (List.mem_map_of_mem ?_)))
        exact List.mem_filter.mpr ⟨mem_lost.mpr hmem, by simpa using herr⟩
  · refine (hapart.sublist List.filter_sublist).imp_of_mem fun {a b} ha hb hab => ?_
    obtain ⟨ha, hsa⟩ := List.mem_filter.mp ha
    obtain ⟨hb, hsb⟩ := List.mem_filter.mp hb
    have hwa := (hlocated _ (mem_lost.mp ha)).2.sound hsound
    have hwb := (hlocated _ (mem_lost.mp hb)).2.sound hsound
    exact not_nested_of_apart hab (hwa.fair.wide_statement (isStatement_kind hsa))
      (hwb.fair.wide_statement (isStatement_kind hsb))

/-- **Lowering loses nothing silently.**  Each visited node is kept, in the order of the text, or
reported once, or covered by a problem.  The reports are those of the nodes that are lost without a
repair, one each, and their spans differ.  The statements that are lost are not nested. -/
theorem lowering_loses_nothing_silently (text : String) : ∃ visits,
    ProgramVisits (Node.parse text.toList).significant (parse text).1 visits ∧
    (∀ v ∈ visits, Accounted (reports text)
      (Problem.list (Source.ofList text.toList) (Node.parse text.toList)) v) ∧
    (reports text).map (·.span) = ((lost visits).filter (!·.hasError)).map spanOf ∧
    ((reports text).map (·.span)).Nodup ∧
    ((lost visits).filter isStatement).Pairwise fun a b => ¬Nested (spanOf a) (spanOf b) := by
  have hsound := sound_parse text.toList
  have hreports := reports_eq text
  rw [fst_parse]
  generalize reports text = found at hreports ⊢
  generalize Node.parse text.toList = root at hsound hreports ⊢
  exact accounts_lower _ hsound hreports

end Cicode.Program
