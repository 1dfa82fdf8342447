import Cicode.Proofs.Program.Arranged
import Cicode.Proofs.Program.Breaches
import Cicode.Proofs.Program.Comments
import Cicode.Proofs.Program.Returns
import Cicode.Proofs.Tree.Concatenated

/-!
# Two sources in a row

A text whose last item is a function, a line feed, and a second text behind it: the tree of all is that of the
first text with the nodes of the second one behind, which have moved.  Lowering does not look beyond an item but
for the documentation before it, and validation compares functions by their names only.

Main statement (`parse_concatenated`): the functions and the diagnostics of all are those of both texts, one
after the other, and functions of the second text are defined again if the first one has their names.
-/

namespace Cicode.Program

open Grammar Text Cicode.Lex Cicode.Tree

/-! ## Places further on -/

/-- The span a number of bytes further on. -/
def shifted (bytes : Nat) (span : Span) : Span := ⟨bytes + span.start, bytes + span.stop⟩

theorem shifted_zero : shifted 0 = id := by
  funext span
  rw [shifted, Nat.zero_add, Nat.zero_add]
  rfl

theorem shifted_merge (bytes : Nat) (a b : Span) :
    shifted bytes (a.merge b) = (shifted bytes a).merge (shifted bytes b) := by
  rw [shifted, Span.merge, Span.merge, shifted, shifted, Nat.add_min_add_left, Nat.add_max_add_left]

/-! ## A text inside another one -/

/-- The node of a text, and the same node where the text stands behind another one. -/
structure Stands (before chars after : List Char) (n n' : Node) : Prop where
  moved : n' = n.moved (Extent.of before)
  portrayed : Portrayed (.ofList chars) n
  portrayed' : Portrayed (.ofList (before ++ (chars ++ after))) n'
  placed : n.AllPlaced chars

/-- The nodes of a row stand in the other text, if they are found there further on. -/
theorem stands_row {before chars after : List Char} {root root' : Node} {nodes : List Node}
    (h : Portrayed (.ofList chars) root) (h' : Portrayed (.ofList (before ++ (chars ++ after))) root')
    (hplaced : root.AllPlaced chars) (hcode : ∀ n ∈ nodes, n ∈ root.code)
    (hcode' : ∀ n ∈ nodes, n.moved (Extent.of before) ∈ root'.code) :
    List.Forall₂ (Stands before chars after) nodes (nodes.map (Node.moved (Extent.of before))) := by
  rw [List.forall₂_map_right_iff, List.forall₂_same]
  intro n hn
  exact ⟨rfl, h.child (hcode n hn), h'.child (hcode' n hn),
    fun inner hin => hplaced inner (.step (List.mem_of_mem_filter (hcode n hn)) hin)⟩

/-- **A text is lowered in the same way wherever it stands**, if its tree is the same there. -/
theorem twins_stands (before chars after : List Char) :
    Twins (.ofList chars) (.ofList (before ++ (chars ++ after))) (shifted (byteLength before)) id
      (Stands before chars after) where
  portrayed h := ⟨h.portrayed, h.portrayed'⟩
  kind_eq h := by rw [h.moved, Node.kind_moved]
  field_eq h := by rw [h.moved, Node.label_moved]
  span_eq {n n'} h := by
    rw [id_eq, h.moved, spanOf, spanOf, Node.label_moved, Extent.bytes_add, Extent.bytes_add, Extent.bytes_of]
    rfl
  text_eq {n n'} h _ := by
    obtain ⟨pre, post, hchars, hspan⟩ := exists_text (h.placed n (.refl n))
    rw [spanOf, Span.mk.injEq] at hspan
    generalize textOf (.ofList chars) n = word at hchars hspan
    have hwhole : before ++ (chars ++ after) = (before ++ pre) ++ (word ++ (post ++ after)) := by
      rw [hchars]
      simp only [List.append_assoc]
    rw [textOf, h.moved, Node.label_moved, hwhole]
    refine (slice_of_bytes ?_ ?_).symm
    · rw [Extent.bytes_add, Extent.bytes_of, hspan.1, byteLength_append]
    · rw [Extent.bytes_add, Extent.bytes_of, hspan.2, byteLength_append, byteLength_append, Nat.add_assoc]
  code {n n'} h := by
    have hcode : n'.code = n.code.map (Node.moved (Extent.of before)) := by
      rw [h.moved, Node.code, Node.children_moved]
      exact Node.filter_moved (!· == .comment) n.children
    rw [hcode]
    exact stands_row h.portrayed h.portrayed' h.placed (fun _ hchild => hchild)
      fun child hchild => hcode ▸ List.mem_map_of_mem hchild
  merge := shifted_merge _
  merge' _ _ := rfl

/-- Nodes of a text become the same functions behind another text, further on, and the same is reported. -/
theorem lower_stands {before chars after : List Char} {nodes nodes' : List Node}
    (h : List.Forall₂ (Stands before chars after) nodes nodes')
    (hlimits : LimitsPassed (functionsFrom (.ofList chars) {} nodes).2) :
    (functionsFrom (.ofList (before ++ (chars ++ after))) {} nodes').1 =
      (functionsFrom (.ofList chars) {} nodes).1.map (Function.relocate (shifted (byteLength before))) ∧
    (functionsFrom (.ofList (before ++ (chars ++ after))) {} nodes').2.filterMap Dropped.report? =
      ((functionsFrom (.ofList chars) {} nodes).2.filterMap Dropped.report?).map
        (Diagnostic.relocate (shifted (byteLength before))) := by
  have ht := twins_stands before chars after
  obtain ⟨hfunctions, hlost⟩ := ht.functionsFrom
    (show Meets (Doc.relocate (shifted (byteLength before))) (Doc.relocate id) {} {} from rfl) h
  have hreports := ht.reports hlost hlimits
  rw [show Function.relocate id = id from funext Function.relocate_id, List.map_id] at hfunctions
  rw [show Diagnostic.relocate id = id from rfl, List.map_id] at hreports
  exact ⟨hfunctions.symm, hreports.symm⟩

/-! ## Functions in a row -/

/-- **Behind a function nothing is said of the next one yet**, so that what comes after it is lowered alone. -/
theorem functionsFrom_append (source : Source) {doc : Doc} {nodes rest : List Node}
    (hlast : ∀ n ∈ nodes.getLast?, n.kind = .function) (hdoc : nodes = [] → doc = {}) :
    functionsFrom source doc (nodes ++ rest) =
      ((functionsFrom source doc nodes).1 ++ (functionsFrom source {} rest).1,
        (functionsFrom source doc nodes).2 ++ (functionsFrom source {} rest).2) := by
  induction nodes generalizing doc with
  | nil =>
    rw [hdoc rfl, List.nil_append]
    rfl
  | cons n nodes ih =>
    have hrest : ∀ m ∈ nodes.getLast?, m.kind = .function := by
      intro m hm
      cases nodes with
      | nil => cases hm
      | cons => exact hlast m (by rwa [List.getLast?_cons_cons])
    rw [List.cons_append]
    by_cases hk : n.kind = .function
    · have hnone := ih hrest fun _ => rfl
      rw [functionsFrom, functionsFrom]
      simp only [hk, hnone]
      cases function source n (if doc.isEmpty then none else some doc) with
      | ok a => simp only [List.cons_append, List.append_assoc]
      | error e => rfl
    · obtain ⟨doc', heq⟩ := functionsFrom_cons_other source doc hk
      rw [heq, heq]
      refine ih hrest fun hnil => absurd (hlast n ?_) hk
      rw [hnil]
      rfl

/-! ## Names that are defined again -/

section Again

variable {α : Type} {name : α → String}

/-- An entry after others, if one of them has its name. -/
def again (name : α → String) (before : List α) (a : α) : List α :=
  if before.any fun earlier => sameName (name a) (name earlier) then [a] else []

/-- An entry after others that is the first with its name, if the name is one of those in front. -/
def againBehind (name : α → String) (front : List String) (before : List α) (a : α) : List α :=
  if !(before.any fun earlier => sameName (name a) (name earlier)) && front.any (sameName (name a)) then [a] else []

theorem repeated_eq_again (entries : List α) : repeated name [] entries = passing (again name) [] entries :=
  repeated_eq_passing entries [] [] fun _ => rfl

/-- **With entries in front, those are found that are found without, and those that have a name from the front.** -/
theorem passing_again_perm (front before entries : List α) : (passing (again name) (front ++ before) entries).Perm
    (passing (again name) before entries ++ passing (againBehind name (front.map name)) before entries) := by
  induction entries generalizing before with
  | nil => exact .nil
  | cons a entries ih =>
    have hrest := ih (before ++ [a])
    rw [← List.append_assoc] at hrest
    rw [passing, passing, passing, again, again, againBehind, List.any_append, List.any_map]
    rw [Function.comp_def]
    cases before.any fun earlier => sameName (name a) (name earlier) with
    | true =>
      rw [Bool.or_true, if_pos rfl, if_neg (by simp)]
      exact hrest.cons a
    | false =>
      cases front.any fun earlier => sameName (name a) (name earlier) with
      | true =>
        rw [Bool.or_false, if_pos rfl, if_neg Bool.false_ne_true, if_pos (by simp)]
        exact (hrest.cons a).trans List.perm_middle.symm
      | false =>
        rw [Bool.or_false, if_neg Bool.false_ne_true, if_neg (by simp)]
        exact hrest

end Again

/-- The report that a function is defined again. -/
def Function.redefinition (f : Function) : Diagnostic :=
  { message := "function `" ++ f.name ++ "` is already defined", span := f.nameSpan, severity := .error,
    phase := .validation }

theorem getLast?_message (s : String) {t : String} {c : Char} (h : t.toList.getLast? = some c) :
    (s ++ t).toList.getLast? = some c := by
  rw [String.toList_append, List.getLast?_append, h]
  rfl

/-- What is wrong with a function by itself is never that it is defined again. -/
theorem FunctionBreach.ne_redefinition {f g : Function} {p : Address} {d : Diagnostic} (h : FunctionBreach f p d) :
    d ≠ g.redefinition := by
  have hlast : g.redefinition.message.toList.getLast? = some 'd' := getLast?_message _ rfl
  have hother : d.message.toList.getLast? = some 'e' → d ≠ g.redefinition := by
    rintro hd rfl
    rw [hlast] at hd
    cases hd
  cases h with
  | redeclared | defaultNeeded | valueInVoid | valueMissing => exact hother (getLast?_message _ rfl)
  | unknownParameter =>
    intro heq
    have hseverity : Severity.info = .error := congrArg Diagnostic.severity heq
    cases hseverity
  | neverReturns =>
    intro heq
    have hseverity : Severity.warning = .error := congrArg Diagnostic.severity heq
    cases hseverity

/-- The names of two functions of a text stand at different places. -/
theorem pairwise_nameSpan {text : String} (hsound : (Node.parse text.toList).hasError = false) :
    (parse text).1.Pairwise fun f g => f.nameSpan ≠ g.nameSpan := by
  have hwell := wellformed_parse hsound
  have hall := sound_parse text.toList
  rw [fst_parse]
  generalize Node.parse text.toList = root at hwell hall
  have hname : ∀ f ∈ (lower (.ofList text.toList) root).1, f.span.start ≤ f.nameSpan.start ∧
      f.nameSpan.start < f.nameSpan.stop ∧ f.nameSpan.stop ≤ f.span.stop := by
    intro f hf
    obtain ⟨n, hn, -, header, dropped, hlowers, -, child, hchild, hspan⟩ :=
      exists_lowered (fun n hn _ => hwell.portrayed n (.child (mem_children_of_significant hn))) hf
    obtain ⟨hin, hwide⟩ := wide_functionName hwell hall hn hlowers.headed hchild
    obtain ⟨hstart, hstop⟩ := hin.inside (hall.child (mem_children_of_significant hn))
    rw [hspan, hlowers.span]
    exact ⟨hstart, hwide, hstop⟩
  have hspans := (limited_lower hwell).1
  have hapart : ((lower (.ofList text.toList) root).1.map (·.span)).Pairwise fun a b => a.stop ≤ b.start := by
    rw [hspans, List.pairwise_map]
    exact (hall.fair.spread.sublist (List.filter_sublist.trans (significant_sublist root))).pairwise
  rw [List.pairwise_map] at hapart
  refine hapart.imp_of_mem fun {f g} hf hg hle heq => ?_
  obtain ⟨-, hwide, hstop⟩ := hname f hf
  obtain ⟨hstart, -, -⟩ := hname g hg
  rw [heq] at hwide hstop
  omega

/-- **A function is reported to be defined again exactly if one before it has its name.** -/
theorem mem_redefinition {program pre post : List Function} {f : Function}
    (hd : program.Pairwise fun f g => f.nameSpan ≠ g.nameSpan) (hsplit : program = pre ++ f :: post) :
    f.redefinition ∈ validate program ↔ ∃ earlier ∈ pre, SameName earlier.name f.name := by
  rw [(tells_validate program).mem_iff]
  constructor
  · rintro ⟨p, hbreach⟩
    generalize hreport : f.redefinition = report at hbreach
    cases hbreach with
    | @redefined pre' post' g hprogram hearlier =>
      have hname : f.nameSpan = g.nameSpan := congrArg Diagnostic.span hreport
      -- No other function has its name at the same place.
      obtain ⟨-, hpost, hpre⟩ := List.pairwise_append.mp (hsplit ▸ hd)
      have hfront : g ∉ pre := fun hg => hpre g hg f List.mem_cons_self hname.symm
      have hback : g ∉ post := fun hg => (List.pairwise_cons.mp hpost).1 g hg hname
      obtain ⟨rfl, rfl, -⟩ :=
        (List.append_cons_inj_of_notMem hfront hback).mp (hsplit.symm.trans hprogram)
      exact hearlier
    | inside _ hbreach => exact absurd hreport.symm hbreach.ne_redefinition
  · rintro hearlier
    exact ⟨_, .redefined hsplit hearlier⟩

/-! ## Both texts -/

/-- The functions that no report says to be defined again, and that have the name of one of those in front. -/
def definedBehind (front program : List Function) : List Function :=
  program.filter fun f => f.redefinition ∉ validate program ∧ ∃ earlier ∈ front, SameName earlier.name f.name

theorem passing_againBehind {front program : List Function}
    (hd : program.Pairwise fun f g => f.nameSpan ≠ g.nameSpan) :
    passing (againBehind Function.name (front.map Function.name)) [] program = definedBehind front program := by
  have hany : ∀ (fs : List Function) (f : Function), (fs.any fun earlier => sameName f.name earlier.name) = true ↔
      ∃ earlier ∈ fs, SameName earlier.name f.name := by
    intro fs f
    rw [List.any_eq_true]
    exact exists_congr fun earlier => and_congr_right fun _ => sameName_iff.trans eq_comm
  have hall : ∀ pre post, program = pre ++ post →
      passing (againBehind Function.name (front.map Function.name)) pre post = post.filter fun f =>
        f.redefinition ∉ validate program ∧ ∃ earlier ∈ front, SameName earlier.name f.name := by
    intro pre post hsplit
    induction post generalizing pre with
    | nil => rfl
    | cons f post ih =>
      rw [passing, ih (pre ++ [f]) (by rw [hsplit, List.append_assoc]; rfl), againBehind, List.filter_cons,
        List.any_map, Function.comp_def]
      simp only [Bool.and_eq_true, Bool.not_eq_true', ← Bool.not_eq_true, hany, decide_eq_true_eq,
        mem_redefinition hd hsplit]
      split <;> rfl
  exact hall [] program rfl

/-- Names are defined again wherever their functions stand. -/
theorem passing_againBehind_map {α β : Type} {name : α → String} {name' : β → String} {f : α → β}
    (hname : ∀ a, name' (f a) = name a) (front : List String) (before entries : List α) :
    passing (againBehind name' front) (before.map f) (entries.map f) =
      (passing (againBehind name front) before entries).map f := by
  induction entries generalizing before with
  | nil => rfl
  | cons a entries ih =>
    have hrest := ih (before ++ [a])
    rw [List.map_append, List.map_singleton] at hrest
    rw [List.map_cons, passing, passing, hrest, List.map_append, againBehind, againBehind, hname, List.any_map]
    simp only [Function.comp_def, hname]
    split <;> rfl

theorem perm_regroup {α : Type} [DecidableEq α] (a b c u v : List α) :
    (a ++ (b ++ c) ++ (u ++ v)).Perm (a ++ u ++ (b ++ v) ++ c) := by
  rw [List.perm_iff_count]
  intro x
  simp only [List.count_append]
  omega

/-- **A program behind another one** has the faults of both, and its functions are defined again if the other one
has their names. -/
theorem validate_append_perm (front program : List Function) (g : Span → Span)
    (hd : program.Pairwise fun f g => f.nameSpan ≠ g.nameSpan) :
    (validate (front ++ program.map (Function.relocate g))).Perm
      (validate front ++ (validate program).map (Diagnostic.relocate g) ++
        (definedBehind front program).map fun f => f.redefinition.relocate g) := by
  have hmoved : passing (againBehind Function.name (front.map Function.name)) [] (program.map (Function.relocate g)) =
      (definedBehind front program).map (Function.relocate g) := by
    rw [← passing_againBehind hd]
    exact passing_againBehind_map (fun _ => rfl) _ [] program
  have hagain : (passing (again Function.name) front (program.map (Function.relocate g))).Perm
      (repeated Function.name [] (program.map (Function.relocate g)) ++
        (definedBehind front program).map (Function.relocate g)) := by
    rw [repeated_eq_again, ← hmoved]
    have hbehind : (passing (again Function.name) (front ++ []) (program.map (Function.relocate g))).Perm _ :=
      passing_again_perm ..
    rwa [List.append_nil] at hbehind
  have hnames : repeated Function.name [] (front ++ program.map (Function.relocate g)) =
      repeated Function.name [] front ++ passing (again Function.name) front (program.map (Function.relocate g)) := by
    rw [repeated_eq_again, repeated_eq_again, passing_append, List.nil_append]
  rw [← validate_relocate, validate, validate, validate, hnames, List.map_append, List.flatMap_append]
  have hreports := hagain.map Function.redefinition
  rw [List.map_append, List.map_map] at hreports
  exact ((hreports.append_left _).append_right _).trans (perm_regroup ..)

/-- Both texts in a row are read like both of them alone. -/
structure ReadInARow (a b : String) : Prop where
  /-- There are no repairs. -/
  sound : (Node.parse (a ++ "\n" ++ b).toList).hasError = false
  /-- The functions are those of both texts. -/
  functions : (parse (a ++ "\n" ++ b)).1 =
    (parse a).1 ++ (parse b).1.map (Function.relocate (shifted (byteLength a.toList + 1)))
  /-- What lowering reports is what it reports of both texts. -/
  reported : reports (a ++ "\n" ++ b) =
    reports a ++ (reports b).map (Diagnostic.relocate (shifted (byteLength a.toList + 1)))
  /-- What validation reports is what it reports of both texts, and the functions of the second one that the first
  one defines already. -/
  validated : (validate (parse (a ++ "\n" ++ b)).1).Perm
    (validate (parse a).1 ++
      (validate (parse b).1).map (Diagnostic.relocate (shifted (byteLength a.toList + 1))) ++
      (definedBehind (parse a).1 (parse b).1).map fun f =>
        f.redefinition.relocate (shifted (byteLength a.toList + 1)))

/-- The last item of a source is its last significant one. -/
theorem getLast?_significant {root : Node} (h : ∀ node ∈ root.code.getLast?, node.kind = .function) :
    ∀ node ∈ root.significant.getLast?, node.kind = .function := by
  rw [Node.significant_eq]
  rcases List.eq_nil_or_concat root.code with hnil | ⟨init, last, hcode⟩
  · rw [hnil]
    exact fun node hnode => nomatch hnode
  · rw [hcode, List.concat_eq_append] at h ⊢
    have hlast : last.kind = .function := h last (by simp)
    have hnamed : last.isNamed = true := by
      rw [Node.isNamed, hlast]
      rfl
    rw [List.filter_append, List.filter_cons_of_pos hnamed, List.filter_nil, List.getLast?_concat]
    intro node hnode
    rwa [← Option.some.inj hnode]

/-- Comments and punctuation aside, the nodes of both texts in a row are those of both. -/
theorem code_concatenated {root rootA rootB : Node} {e : Extent}
    (h : root.children = rootA.children ++ Node.movedAll e rootB.children) :
    root.code = rootA.code ++ rootB.code.map (Node.moved e) ∧
      root.significant = rootA.significant ++ rootB.significant.map (Node.moved e) := by
  have hcode : root.code = rootA.code ++ rootB.code.map (Node.moved e) := by
    rw [Node.code, h, List.filter_append, Node.movedAll_eq]
    exact congrArg (rootA.code ++ ·) (Node.filter_moved (!· == .comment) rootB.children)
  refine ⟨hcode, ?_⟩
  rw [Node.significant_eq, Node.significant_eq, Node.significant_eq, hcode, List.filter_append]
  exact congrArg (rootA.code.filter _ ++ ·) (Node.filter_moved Symbol.isNamed rootB.code)

/-- Both texts in a row are lowered like both of them alone. -/
theorem lower_concatenated {a b : List Char} (ha : (Node.parse a).hasError = false)
    (hb : (Node.parse b).hasError = false) (hlast : ∀ node ∈ (Node.parse a).code.getLast?, node.kind = .function) :
    (Node.parse (a ++ '\n' :: b)).hasError = false ∧
    (lower (.ofList (a ++ '\n' :: b)) (Node.parse (a ++ '\n' :: b))).1 =
      (lower (.ofList a) (Node.parse a)).1 ++
        (lower (.ofList b) (Node.parse b)).1.map (Function.relocate (shifted (byteLength a + 1))) ∧
    (lower (.ofList (a ++ '\n' :: b)) (Node.parse (a ++ '\n' :: b))).2.filterMap Dropped.report? =
      (lower (.ofList a) (Node.parse a)).2.filterMap Dropped.report? ++
        ((lower (.ofList b) (Node.parse b)).2.filterMap Dropped.report?).map
          (Diagnostic.relocate (shifted (byteLength a + 1))) := by
  obtain ⟨beforeA, lastA, hendsA⟩ := exists_ends ha
  obtain ⟨beforeB, lastB, hendsB⟩ := exists_ends hb
  obtain ⟨⟨before, last, hends⟩, hchildren⟩ := exists_concatenated hendsA hendsB
  have hroot := (samePart_root hends hends rfl).portrayed.1
  have hrootA := (wellformed_parse ha).portrayed _ (.refl _)
  have hrootB := (wellformed_parse hb).portrayed _ (.refl _)
  have hlimitsA := (limited_lower (wellformed_parse ha)).2
  have hlimitsB := (limited_lower (wellformed_parse hb)).2
  have hplacedA := allPlaced_parse a
  have hplacedB := allPlaced_parse b
  refine ⟨hroot.sound, ?_⟩
  rw [lower, lower, lower]
  generalize Node.parse (a ++ '\n' :: b) = root at hroot hchildren
  generalize Node.parse a = rootA at hchildren hlast hrootA hlimitsA hplacedA
  generalize Node.parse b = rootB at hchildren hrootB hlimitsB hplacedB
  obtain ⟨hcode, hsignificant⟩ := code_concatenated hchildren
  have hsub : ∀ root : Node, ∀ n ∈ root.significant, n ∈ root.code := by
    intro root n hn
    rw [Node.significant_eq] at hn
    exact List.mem_of_mem_filter hn
  have hstandsA : List.Forall₂ (Stands [] a ('\n' :: b)) rootA.significant rootA.significant := by
    have hzero : rootA.significant.map (Node.moved (Extent.of [])) = rootA.significant := by
      rw [show Node.moved (Extent.of []) = id from funext Node.moved_zero, List.map_id]
    have hroot' : Portrayed (.ofList ([] ++ (a ++ '\n' :: b))) root := hroot
    have hstands := stands_row hrootA hroot' hplacedA (hsub rootA) fun n hn => by
      rw [show Extent.of [] = 0 from rfl, Node.moved_zero, hcode]
      exact List.mem_append_left _ (hsub rootA n hn)
    rwa [hzero] at hstands
  have hsplit : a ++ '\n' :: b = (a ++ ['\n']) ++ (b ++ []) := by simp
  have hstandsB : List.Forall₂ (Stands (a ++ ['\n']) b []) rootB.significant
      (rootB.significant.map (Node.moved (Extent.of (a ++ ['\n'])))) := by
    refine stands_row hrootB (hsplit ▸ hroot) hplacedB (hsub rootB) fun n hn => ?_
    rw [hcode]
    exact List.mem_append_right _ (List.mem_map_of_mem (hsub rootB n hn))
  have hlowerA := lower_stands hstandsA hlimitsA
  have hlowerB := lower_stands hstandsB hlimitsB
  rw [show byteLength [] = 0 from rfl, shifted_zero, show Function.relocate id = id from funext Function.relocate_id,
    show Diagnostic.relocate id = id from rfl, List.map_id, List.map_id, List.nil_append] at hlowerA
  rw [← hsplit, byteLength_append, show byteLength ['\n'] = 1 from rfl] at hlowerB
  rw [hsignificant, functionsFrom_append _ (getLast?_significant hlast) fun _ => rfl, hlowerA.1, hlowerB.1,
    List.filterMap_append, hlowerA.2, hlowerB.2]
  exact ⟨rfl, rfl⟩

/-- **Parsing distributes over texts in a row.**  If two texts have no repairs, and the last item of the first one
is a function, comments aside, then both with a line feed between them have no repairs either, and they are read
like both of them alone, one after the other. -/
theorem parse_concatenated {a b : String} (ha : (Node.parse a.toList).hasError = false)
    (hb : (Node.parse b.toList).hasError = false)
    (hlast : ∀ node ∈ (Node.parse a.toList).code.getLast?, node.kind = .function) : ReadInARow a b := by
  have htext : (a ++ "\n" ++ b).toList = a.toList ++ '\n' :: b.toList := by
    simp [String.toList_append]
  obtain ⟨hsound, hfunctions, hreported⟩ := lower_concatenated ha hb hlast
  rw [← htext] at hsound hfunctions hreported
  rw [← fst_parse, ← fst_parse, ← fst_parse] at hfunctions
  rw [← reports_eq, ← reports_eq, ← reports_eq] at hreported
  refine ⟨hsound, hfunctions, hreported, ?_⟩
  rw [hfunctions]
  exact validate_append_perm _ _ _ (pairwise_nameSpan hb)

/-- A source with two functions. -/
def earlierSource : String :=
  "FUNCTION Twice()\nEND\nFUNCTION Report()\nEND // the first source"

/-- A source with functions that have the name of one of those, in other letters. -/
def laterSource : String :=
  "// <summary>Tells.</summary>\nFUNCTION report(INT a)\nEND\nFUNCTION REPORT()\nEND"

theorem parse_concatenated_sources : (Node.parse earlierSource.toList).hasError = false ∧
    (Node.parse laterSource.toList).hasError = false ∧
    (∀ node ∈ (Node.parse earlierSource.toList).code.getLast?, node.kind = .function) ∧
    (definedBehind (parse earlierSource).1 (parse laterSource).1).map (·.name) = ["report"] ∧
    ReadInARow earlierSource laterSource := by
  have hclean : (Node.parse earlierSource.toList).hasError = false ∧
      (Node.parse laterSource.toList).hasError = false ∧
      (∀ node ∈ (Node.parse earlierSource.toList).code.getLast?, node.kind = .function) ∧
      (definedBehind (parse earlierSource).1 (parse laterSource).1).map (·.name) = ["report"] := by
    decide +kernel
  obtain ⟨hearlier, hlater, hlast, hagain⟩ := hclean
  exact ⟨hearlier, hlater, hlast, hagain, parse_concatenated hearlier hlater hlast⟩

end Cicode.Program
