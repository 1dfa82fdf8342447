import Cicode.Proofs.Program.Listing
import Cicode.Proofs.Program.Visits

/-!
# Which documentation belongs to a function

Lowering collects documentation from one top-level node to the next and forgets it at every node that is
neither documentation nor a comment.  A function that lowers takes what has been collected, and so does
one that does not.

A `Site` is a function among the top-level nodes with the stretch of nodes before it, back to the nearest
one at which documentation is forgotten.  Main statement (`documentation_attaches`): the functions of a
program are those of the sites that lower, in their order, each documented by its stretch and by nothing
else; and the stretches of two sites do not overlap, so that no node documents two functions.
-/

namespace Cicode.Program

open Text Cicode.Lex Cicode.Tree Grammar

/-- Whether a node documents something. -/
def isDocumentation (node : Node) : Bool :=
  node.kind == .docSummary || node.kind == .docParam || node.kind == .docReturns

/-- Whether the documentation before a node is forgotten behind it.  Punctuation, which has no name, is
passed over as comments are. -/
def forgets (node : Node) : Bool := node.isNamed && !node.isComment && !isDocumentation node

/-! ## What a stretch of nodes says -/

section

variable (source : Source)

/-- The kinds of the nodes that hold what is said between two tags. -/
def bodyKinds : List Symbol := [.summaryContent, .paramContent, .returnsContent]

/-- What a node says: the text of the first of its children that is a body, cleaned, and no text at all if
none of them is one. -/
def saidBy (node : Node) : String :=
  match node.children.filter (bodyKinds.contains ·.kind) with
  | [] => ""
  | body :: _ => Doc.clean (String.ofList (source.slice body.label.start body.label.stop))

/-- What a node says about a parameter: nothing if its tag names none. -/
def documentedParam? (node : Node) : Option DocParam :=
  if node.kind == .docParam then
    (node.significant.find? (·.kind == .paramTag)).bind fun tag =>
      (Doc.attribute? (Doc.tagAttributes (textOf source tag)) "name").map fun name =>
        ⟨name, saidBy source node, spanOf tag⟩
  else none

/-- The summary that some nodes give: that of the first one that is a summary. -/
def summaryOf (nodes : List Node) : Option String :=
  (nodes.find? (·.kind == .docSummary)).map (saidBy source)

/-- The description of the result that some nodes give. -/
def returnsOf (nodes : List Node) : Option String :=
  (nodes.find? (·.kind == .docReturns)).map (saidBy source)

/-- The parameters that some nodes describe. -/
def paramsOf (nodes : List Node) : List DocParam := nodes.filterMap (documentedParam? source)

/-- All that some nodes say. -/
def docOf (nodes : List Node) : Doc := ⟨summaryOf source nodes, paramsOf source nodes, returnsOf source nodes⟩

/-- The nodes say what a function is documented with. -/
structure Documents (nodes : List Node) (doc : Option Doc) : Prop where
  summary : doc.bind (·.summary) = summaryOf source nodes
  params : doc.elim [] (·.params) = paramsOf source nodes
  returns : doc.bind (·.returns) = returnsOf source nodes
  absent : doc = none ↔
    summaryOf source nodes = none ∧ paramsOf source nodes = [] ∧ returnsOf source nodes = none

end

/-- A function among some nodes, and the stretch before it in which it may be documented. -/
structure Site (nodes : List Node) where
  /-- The nodes up to the last one before the function at which documentation is forgotten. -/
  older : List Node
  /-- The nodes between that one and the function. -/
  stretch : List Node
  /-- The function. -/
  node : Node
  /-- The nodes after the function. -/
  later : List Node
  nodes_eq : nodes = older ++ stretch ++ node :: later
  isFunction : node.kind = .function
  nearest : ∀ last ∈ older.getLast?, forgets last = true
  kept : ∀ inner ∈ stretch, forgets inner = false

/-- The number of nodes before the function. -/
def Site.place {nodes : List Node} (site : Site nodes) : Nat := site.older.length + site.stretch.length

theorem Site.place_eq {nodes : List Node} (site : Site nodes) :
    site.place = site.older.length + site.stretch.length := rfl

/-- The nodes before a place end with the stretch behind the last node that forgets. -/
theorem exists_stretch (nodes : List Node) : ∃ older stretch, nodes = older ++ stretch ∧
    (∀ last ∈ older.getLast?, forgets last = true) ∧ ∀ inner ∈ stretch, forgets inner = false := by
  induction nodes using List.reverseRecOn with
  | nil => exact ⟨[], [], rfl, by simp, by simp⟩
  | append_singleton nodes node ih =>
    by_cases h : forgets node = true
    · refine ⟨nodes ++ [node], [], by simp, ?_, by simp⟩
      intro last hlast
      simp only [List.getLast?_append, List.getLast?_singleton, Option.some_or, Option.mem_some_iff] at hlast
      exact hlast ▸ h
    · obtain ⟨older, stretch, rfl, hnearest, hkept⟩ := ih
      refine ⟨older, stretch ++ [node], by simp, hnearest, ?_⟩
      intro inner hinner
      rcases List.mem_append.mp hinner with hinner | hinner
      · exact hkept inner hinner
      · rw [List.mem_singleton.mp hinner]
        exact Bool.eq_false_iff.mpr h

theorem forgets_of_function {node : Node} (h : node.kind = .function) : forgets node = true := by
  rw [forgets, Node.isNamed, Node.isComment, isDocumentation, h]
  decide

/-- The stretch of a later function begins behind the earlier one. -/
theorem Site.place_lt {nodes : List Node} (s t : Site nodes) (h : s.place < t.place) :
    s.place < t.older.length := by
  by_contra hle
  -- Otherwise the function of `s` stands in the stretch of `t`, where nothing is forgotten.
  have hs : nodes[s.place]? = some s.node := by
    rw [congrArg (·[s.place]?) s.nodes_eq, place, ← List.length_append,
      List.getElem?_append_right (Nat.le_refl _), Nat.sub_self]
    rfl
  have ht : nodes[s.place]? = t.stretch[s.place - t.older.length]? := by
    have hlt : s.place - t.older.length < t.stretch.length := by
      rw [t.place_eq] at h
      omega
    rw [congrArg (·[s.place]?) t.nodes_eq, List.append_assoc, List.getElem?_append_right (by omega),
      List.getElem?_append_left hlt]
  have hkept := t.kept s.node (List.mem_of_getElem? (ht.symm.trans hs))
  rw [forgets_of_function s.isFunction] at hkept
  cases hkept

/-! ## Collecting -/

section

variable (source : Source)

/-- What lowering takes from a node is what the node says. -/
theorem clean_docContent (node : Node) : Doc.clean (docContent source node) = saidBy source node := by
  have hbody : ∀ kind ∈ bodyKinds, kind.isNamed = true ∧ kind ≠ .comment := by decide
  have hfilter : node.significant.filter (bodyKinds.contains ·.kind) =
      node.children.filter (bodyKinds.contains ·.kind) := by
    rw [Node.significant, Node.namedChildren, List.filter_filter, List.filter_filter]
    refine List.filter_congr fun child _ => ?_
    by_cases hk : child.kind ∈ bodyKinds
    · obtain ⟨hnamed, hcomment⟩ := hbody _ hk
      simp [hk, Node.isNamed, Node.isComment, hnamed, hcomment]
    · simp [hk]
  have hfirst : node.significant.find? (bodyKinds.contains ·.kind) =
      (node.children.filter (bodyKinds.contains ·.kind)).head? := by
    rw [← hfilter, List.head?_filter]
  rw [docContent, saidBy]
  rw [show [Symbol.summaryContent, .paramContent, .returnsContent] = bodyKinds from rfl, hfirst]
  cases node.children.filter (bodyKinds.contains ·.kind) with
  | nil => rfl
  | cons body rest => rfl

/-- What has been said behind a node, of what had been said before it. -/
def heard (doc : Doc) (node : Node) : Doc :=
  if forgets node then {}
  else ⟨doc.summary.or (summaryOf source [node]), doc.params ++ paramsOf source [node],
    doc.returns.or (returnsOf source [node])⟩

/-- The documentation that a function gets of what has been said. -/
def given (doc : Doc) : Option Doc := if doc.isEmpty then none else some doc

/-- The function that a node gives, if it is one and lowers. -/
def functionAt (doc : Doc) (node : Node) : List Function :=
  if node.kind = .function then ((function source node (given doc)).toOption.map (·.1)).toList else []

variable {source} {doc : Doc} {node : Node}

theorem functionAt_of_ne (h : node.kind ≠ .function) : functionAt source doc node = [] := if_neg h

theorem heard_docSummary (h : node.kind = .docSummary) :
    heard source doc node = doc.addSummary (docContent source node) := by
  cases hs : doc.summary <;>
    simp [heard, forgets, isDocumentation, summaryOf, returnsOf, paramsOf, documentedParam?,
      Doc.addSummary, h, hs, clean_docContent]

theorem heard_docReturns (h : node.kind = .docReturns) :
    heard source doc node = doc.addReturns (docContent source node) := by
  cases hr : doc.returns <;>
    simp [heard, forgets, isDocumentation, summaryOf, returnsOf, paramsOf, documentedParam?,
      Doc.addReturns, h, hr, clean_docContent]

theorem heard_docParam (h : node.kind = .docParam) :
    heard source doc node = match node.significant.find? (·.kind == .paramTag) with
      | none => doc
      | some tag =>
        doc.addParam (String.ofList (textOf source tag)) (docContent source node) (spanOf tag) := by
  cases htag : node.significant.find? (·.kind == .paramTag) with
  | none => simp [heard, forgets, isDocumentation, summaryOf, returnsOf, paramsOf, documentedParam?, h, htag]
  | some tag =>
    cases hname : Doc.attribute? (Doc.tagAttributes (textOf source tag)) "name" <;>
      simp [heard, forgets, isDocumentation, summaryOf, returnsOf, paramsOf, documentedParam?,
        Doc.addParam, h, htag, hname, clean_docContent]

/-- A node that is passed over says nothing. -/
theorem heard_of_passed (source : Source) (doc : Doc) {node : Node} (h : (node.isNamed && !node.isComment) = false) :
    heard source doc node = doc ∧ functionAt source doc node = [] := by
  have hkind : ∀ kind : Symbol, kind.isNamed = true → kind ≠ .comment → node.kind ≠ kind := by
    rintro _ hnamed hcomment rfl
    simp [Node.isNamed, Node.isComment, hnamed, hcomment] at h
  have hs := hkind .docSummary rfl (by decide)
  have hp := hkind .docParam rfl (by decide)
  have hr := hkind .docReturns rfl (by decide)
  refine ⟨?_, functionAt_of_ne (hkind .function rfl (by decide))⟩
  simp [heard, forgets, h, summaryOf, returnsOf, paramsOf, documentedParam?, hs, hp, hr]

theorem functionsFrom_cons {rest : List Node} (hnamed : node.isNamed = true)
    (hcomment : node.isComment = false) : (functionsFrom source doc (node :: rest)).1 =
      functionAt source doc node ++ (functionsFrom source (heard source doc node) rest).1 := by
  rw [functionsFrom]
  split
  · rename_i hk
    rw [functionAt_of_ne (by rw [hk]; decide), heard_docSummary hk, List.nil_append]
  · rename_i hk
    rw [functionAt_of_ne (by rw [hk]; decide), heard_docReturns hk, List.nil_append]
  · rename_i hk
    rw [functionAt_of_ne (by rw [hk]; decide), heard_docParam hk, List.nil_append]
    cases node.significant.find? (·.kind == .paramTag) <;> rfl
  · rename_i hk
    rw [functionAt, if_pos hk, heard, if_pos (forgets_of_function hk), given]
    cases function source node (if doc.isEmpty then none else some doc) <;> rfl
  · rename_i hs hr hp hf
    have hforgets : forgets node = true := by
      simp only [forgets, isDocumentation, hnamed, hcomment, Bool.not_false, Bool.and_self, Bool.true_and,
        Bool.not_eq_true', Bool.or_eq_false_iff, beq_eq_false_iff_ne]
      exact ⟨⟨hs, hp⟩, hr⟩
    rw [functionAt_of_ne hf, heard, if_pos hforgets, List.nil_append]

/-- Lowering goes over the top-level nodes, and gives a function what the nodes before it say. -/
theorem functionsFrom_eq_passing (before children : List Node) :
    (functionsFrom source (before.foldl (heard source) {})
      (children.filter fun node => node.isNamed && !node.isComment)).1 =
        passing (fun before => functionAt source (before.foldl (heard source) {})) before children := by
  induction children generalizing before with
  | nil => rfl
  | cons node rest ih =>
    have hrest := ih (before ++ [node])
    rw [List.foldl_append, List.foldl_cons, List.foldl_nil] at hrest
    rw [passing, ← hrest]
    by_cases h : (node.isNamed && !node.isComment) = true
    · have hnode : node.isNamed = true ∧ node.isComment = false := by simpa using h
      rw [List.filter_cons, if_pos h, functionsFrom_cons hnode.1 hnode.2]
    · obtain ⟨hheard, hnone⟩ := heard_of_passed source (before.foldl (heard source) {})
        (Bool.eq_false_iff.mpr h)
      rw [List.filter_cons, if_neg h, hheard, hnone, List.nil_append]

/-! ## What has been said in a stretch -/

/-- What has been said behind a stretch is what its nodes say. -/
theorem foldl_heard_stretch {stretch : List Node} (h : ∀ inner ∈ stretch, forgets inner = false) :
    stretch.foldl (heard source) {} = docOf source stretch := by
  induction stretch using List.reverseRecOn with
  | nil => rfl
  | append_singleton stretch node ih =>
    have hnode := h node (List.mem_append_right _ (List.mem_singleton.mpr rfl))
    rw [List.foldl_append, ih fun inner hinner => h inner (List.mem_append_left _ hinner),
      List.foldl_cons, List.foldl_nil, heard, if_neg (Bool.eq_false_iff.mp hnode)]
    simp only [docOf, summaryOf, paramsOf, returnsOf, List.find?_append, List.filterMap_append, Option.map_or]

/-- What was said before the last node that forgets does not matter. -/
theorem foldl_heard {older stretch : List Node} (hnearest : ∀ last ∈ older.getLast?, forgets last = true)
    (h : ∀ inner ∈ stretch, forgets inner = false) :
    (older ++ stretch).foldl (heard source) {} = docOf source stretch := by
  have holder : older.foldl (heard source) {} = {} := by
    cases older using List.reverseRecOn with
    | nil => rfl
    | append_singleton older last =>
      rw [List.foldl_append, List.foldl_cons, List.foldl_nil, heard, if_pos (hnearest last (by simp))]
  rw [List.foldl_append, holder, foldl_heard_stretch h]

/-- What some nodes say is one documentation, or none. -/
theorem documents_iff {nodes : List Node} {doc : Option Doc} : Documents source nodes doc ↔
    doc = given (docOf source nodes) := by
  have hempty : (docOf source nodes).isEmpty = true ↔
      summaryOf source nodes = none ∧ paramsOf source nodes = [] ∧ returnsOf source nodes = none := by
    simp [docOf, Doc.isEmpty, and_assoc]
  rw [given]
  constructor
  · rintro ⟨hsummary, hparams, hreturns, habsent⟩
    cases doc with
    | none => rw [if_pos (hempty.mpr (habsent.mp rfl))]
    | some doc =>
      rw [if_neg fun hno => nomatch habsent.mpr (hempty.mp hno)]
      rw [docOf, ← hsummary, ← hparams, ← hreturns]
      rfl
  · rintro rfl
    by_cases h : (docOf source nodes).isEmpty = true
    · rw [if_pos h]
      obtain ⟨hsummary, hparams, hreturns⟩ := hempty.mp h
      exact ⟨hsummary.symm, hparams.symm, hreturns.symm, iff_of_true rfl ⟨hsummary, hparams, hreturns⟩⟩
    · rw [if_neg h]
      exact ⟨rfl, rfl, rfl, iff_of_false (fun hno => nomatch hno) fun hno => h (hempty.mpr hno)⟩

/-- A function keeps the documentation that it is given. -/
theorem doc_function {above : Option Doc} {f : Function} {dropped : List Dropped}
    (h : function source node above = .ok (f, dropped)) : f.doc = above := by
  rw [function] at h
  obtain ⟨header, -, h⟩ := bind_eq_ok.mp h
  obtain ⟨⟨name, nameSpan⟩, -, h⟩ := bind_eq_ok.mp h
  obtain ⟨⟨body, lostStatements⟩, -, h⟩ := bind_eq_ok.mp h
  cases h
  rfl

/-- The function at a node that gives one. -/
theorem tells_functionAt (source : Source) (doc : Doc) (node : Node) : Tells (fun p f => p = [] ∧ node.kind = .function ∧
    ∃ dropped, function source node (given doc) = .ok (f, dropped)) (functionAt source doc node) := by
  rw [functionAt]
  by_cases hk : node.kind = .function
  · rw [if_pos hk]
    cases hf : function source node (given doc) with
    | error cause =>
      exact .nil fun p f h => nomatch h.2.2.choose_spec
    | ok lowered =>
      obtain ⟨g, dropped⟩ := lowered
      refine (Tells.one g).congr fun p f => ?_
      constructor
      · rintro ⟨rfl, rfl⟩
        exact ⟨rfl, hk, dropped, rfl⟩
      · rintro ⟨rfl, -, _, h⟩
        cases h
        exact ⟨rfl, rfl⟩
  · rw [if_neg hk]
    exact .nil fun p f h => hk h.2.1

/-- What is due at a function among the top-level nodes, which may be found by what has been said before
it or by the stretch that documents it. -/
theorem atMember_iff_site {nodes : List Node} {p : Address} {f : Function} :
    AtMember (fun before node q f => q = [] ∧ node.kind = .function ∧ ∃ dropped,
        function source node (given (before.foldl (heard source) {})) = .ok (f, dropped)) nodes p f ↔
      ∃ site : Site nodes, p = [site.place] ∧ Documents source site.stretch f.doc ∧
        ∃ dropped, function source site.node f.doc = .ok (f, dropped) := by
  constructor
  · rintro ⟨before, node, later, -, hnodes, rfl, rfl, hk, dropped, hlowered⟩
    obtain ⟨older, stretch, rfl, hnearest, hkept⟩ := exists_stretch before
    have hdoc := doc_function hlowered
    refine ⟨⟨older, stretch, node, later, hnodes, hk, hnearest, hkept⟩, by simp [Site.place_eq], ?_,
      dropped, ?_⟩
    · rw [foldl_heard hnearest hkept] at hdoc
      exact documents_iff.mpr hdoc
    · rw [hdoc, hlowered]
  · rintro ⟨⟨older, stretch, node, later, hnodes, hk, hnearest, hkept⟩, rfl, hdoc, dropped, hlowered⟩
    refine ⟨older ++ stretch, node, later, [], hnodes, by simp [Site.place_eq], rfl, hk, dropped, ?_⟩
    rw [foldl_heard hnearest hkept, ← documents_iff.mp hdoc, hlowered]

end

/-- **Documentation belongs to the function that it stands before.**  The functions of a program are those
that the sites give, in their order, one for each site that lowers; the nodes of its stretch document it,
and no node of any other stretch does, as the stretch of a later site begins behind the earlier function. -/
theorem documentation_attaches (source : Source) (root : Node) :
    Tells (fun p f => ∃ site : Site root.children, p = [site.place] ∧
      Documents source site.stretch f.doc ∧
        ∃ dropped, function source site.node f.doc = .ok (f, dropped)) (lower source root).1 ∧
    ∀ s t : Site root.children, s.place < t.place → s.place < t.older.length := by
  refine ⟨?_, Site.place_lt⟩
  have hsignificant : root.significant =
      root.children.filter fun node => node.isNamed && !node.isComment := by
    rw [Node.significant, Node.namedChildren, List.filter_filter]
    simp only [Bool.and_comm]
  have htold := Tells.passed (fun before node =>
    tells_functionAt source (before.foldl (heard source) {}) node) [] root.children
  rw [← functionsFrom_eq_passing, ← hsignificant] at htold
  exact htold.congr fun p f => atMember_iff_site

end Cicode.Program
