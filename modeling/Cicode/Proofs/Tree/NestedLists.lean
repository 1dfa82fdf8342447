import Cicode.Tree.Sexp
import Cicode.Proofs.Tree.Walk
import Cicode.Proofs.Tree.Coverage

/-!
# What the nested list of a tree says

The nested list of a tree is written on one walk of a cursor, which opens a group on the way down,
closes it on the way up and puts a blank in front of a group unless nothing is written yet.  Here it is
said by recursion.  The written nodes of a tree form a tree of their own (`Node.forms`): below a written
node stand the outermost written nodes below it, and a node that is not written gives way to its
children.  A walk that goes below every node is a fold over the tree (`Cursor.walk_eq_visit`), and the
fold appends the texts of the forms, one after another (`Node.visit_eq_after`).

The text can be read back.  A heading ends at a blank or a closing parenthesis, which none of its words
contains outside quotation marks (`Heading.text_determines`), and by induction on the form a group ends
at its own closing parenthesis (`Form.text_determines`).

Main statement (`Node.toSexp_reads_back`): writing ends, it writes the texts of the forms with a blank in
between, these are groups that are balanced, one for each written node with the outer before the inner,
and two trees with the same text have the same forms.
-/

namespace Cicode

open Grammar

/-! ## The names of kinds -/

namespace Symbol

/-- What the names of all symbols show: no name is used twice, the name of a rule is one word, and
that of a piece of punctuation or a keyword has no quotation mark. -/
theorem names_checked : ∀ s ∈ withSkipped,
    withSkipped.find? (·.name == s.name) = some s ∧
    (s.isNamed = true →
      (s.name.toList.all fun c => c != ' ' && c != ')' && c != '"') = true ∧ s.name ≠ "MISSING") ∧
    (s.isNamed = false → '"' ∉ s.name.toList ∧ s.name ≠ "\\n") := by
  decide +kernel

/-- A symbol is found by its name. -/
theorem find?_name (s : Symbol) (h : s ∈ withSkipped) :
    withSkipped.find? (·.name == s.name) = some s :=
  (names_checked s h).1

/-- No two symbols have the same name. -/
theorem name_injective : Function.Injective name := by
  intro a b h
  have ha := find?_name a (mem_withSkipped a)
  rw [h, find?_name b (mem_withSkipped b)] at ha
  exact (Option.some.inj ha).symm

/-- The name of a rule is one word, and not the word by which a missing token is marked. -/
theorem named_is_word (s : Symbol) (h : s ∈ withSkipped) : s.isNamed = true →
    (s.name.toList.all fun c => c != ' ' && c != ')' && c != '"') = true ∧ s.name ≠ "MISSING" :=
  (names_checked s h).2.1

/-- The name of a piece of punctuation or a keyword can be put between quotation marks, and a line
break is not written like it. -/
theorem anonymous_unquoted (s : Symbol) (h : s ∈ withSkipped) : s.isNamed = false →
    '"' ∉ s.name.toList ∧ s.name ≠ "\\n" :=
  (names_checked s h).2.2

end Symbol

namespace Tree

/-! ## A walk that goes everywhere -/

namespace Cursor

section

variable {σ : Type} (enter leave : σ → Node → σ)

mutual

/-- Visit a node and all nodes below it. -/
def visit (state : σ) : Node → σ
  | .node label children =>
    leave (visitAll (enter state (.node label children)) children) (.node label children)

/-- Visit several trees, one after another. -/
def visitAll (state : σ) : List Node → σ
  | [] => state
  | first :: rest => visitAll (visit state first) rest

end

/-- Visit what is left on the way up, and leave the nodes above. -/
def finish (state : σ) : List Frame → σ
  | [] => state
  | frame :: path => finish (leave (visitAll enter leave state frame.later) frame.parent) path

variable {enter leave}

theorem visit_eq (state : σ) (node : Node) : visit enter leave state node =
    leave (visitAll enter leave (enter state node) node.children) node := by
  cases node
  rw [visit, Node.children]

/-- Climbing leaves the nodes above in the order in which finishing does, up to the next node. -/
theorem finish_climb (state : σ) (left : List Node) (path : List Frame) :
    finish enter leave (left.reverse.foldl leave state) path =
      match climb left path with
      | (none, left) => left.reverse.foldl leave state
      | (some next, left) =>
        finish enter leave (visit enter leave (left.reverse.foldl leave state) next.node)
          next.path := by
  induction path generalizing left with
  | nil => rfl
  | cons frame path ih =>
    obtain ⟨parent, later⟩ := frame
    cases later with
    | nil =>
      rw [climb, ← ih, List.reverse_cons, List.foldl_append]
      rfl
    | cons sibling later => rfl

/-- A walk that goes below every node visits the tree and then what is left on the way up. -/
theorem walk_eq_visit (fuel : Nat) (state : σ) (cursor : Cursor) (h : cursor.unvisited ≤ fuel) :
    walk (fun state cursor => (enter state cursor.node, true)) leave fuel state cursor =
      finish enter leave (visit enter leave state cursor.node) cursor.path := by
  induction fuel generalizing state cursor with
  | zero =>
    rw [unvisited, Node.sizeAll, Node.size_eq] at h
    omega
  | succ fuel ih =>
    rw [walk_turn]
    cases hturn : turn (fun state cursor => (enter state cursor.node, true)) leave state cursor with
    | mk between next =>
      have hless : ∀ other, next = some other → other.unvisited ≤ fuel := by
        intro other hother
        have := unvisited_turn (hother ▸ hturn)
        omega
      unfold turn at hturn
      rw [visit_eq]
      cases hc : cursor.node.children with
      | cons child later =>
        have hfirst : cursor.firstChild? = some ⟨child, ⟨cursor.node, later⟩ :: cursor.path⟩ := by
          rw [firstChild?, hc]
        simp only [↓reduceIte, hfirst, Prod.mk.injEq] at hturn
        obtain ⟨rfl, rfl⟩ := hturn
        show walk _ leave fuel _ _ = _
        rw [ih _ _ (hless _ rfl), visitAll]
        rfl
      | nil =>
        have hfirst : cursor.firstChild? = none := by
          rw [firstChild?, hc]
        simp only [↓reduceIte, hfirst, Prod.mk.injEq] at hturn
        rw [visitAll]
        -- Nothing is below the node, so the cursor climbs.
        have hclimb := @finish_climb _ enter leave (leave (enter state cursor.node) cursor.node) []
          cursor.path
        rw [List.reverse_nil, List.foldl_nil] at hclimb
        rw [hclimb]
        obtain ⟨rfl, rfl⟩ := hturn
        rw [advance] at hless ⊢
        generalize climb [] cursor.path = climbed at hless ⊢
        obtain ⟨next, left⟩ := climbed
        cases next with
        | none => rfl
        | some next => exact ih _ _ (hless _ rfl)

end

end Cursor

/-! ## The tree of the written nodes -/

/-- What is written of a node before what is below it. -/
structure Heading where
  /-- The field by which its parent refers to it. -/
  field : Option Field
  /-- Its kind. -/
  kind : Symbol
  /-- Whether it is a token that the text does not hold. -/
  isMissing : Bool
  /-- Only nodes of a rule and missing tokens are written. -/
  written : (kind.isNamed || isMissing) = true
  deriving DecidableEq

namespace Heading

/-- The heading of a node that is written. -/
def ofNode (node : Node) (h : node.isWritten = true) : Heading :=
  ⟨node.label.field, node.kind, node.isMissing, h⟩

/-- The label of the field, if there is one. -/
def fieldText : Option Field → String
  | some field => field.label ++ ": "
  | none => ""

/-- The words for the kind. -/
def kindText (heading : Heading) : String :=
  if heading.isMissing then
    "MISSING " ++
      if heading.kind.isNamed then heading.kind.name else Node.quotedKind heading.kind
  else heading.kind.name

/-- The text of a heading. -/
def text (heading : Heading) : String := fieldText heading.field ++ "(" ++ heading.kindText

theorem text_ofNode (node : Node) (h : node.isWritten = true) :
    (ofNode node h).text = node.heading := by
  have hopen : "(MISSING " = "(" ++ "MISSING " := by decide
  rw [text, kindText, Node.heading, String.append_assoc]
  show fieldText node.label.field ++ ("(" ++ if node.isMissing then _ else _) = _
  congr 1
  by_cases hm : node.isMissing = true
  · rw [if_pos hm, if_pos hm, hopen, String.append_assoc]
    rfl
  · rw [if_neg hm, if_neg hm]
    rfl

end Heading

/-- A node that is written, with the outermost written nodes below it. -/
inductive Form where
  | form (heading : Heading) (inner : List Form)

namespace Form

mutual

/-- The text of a form: its heading, the forms below it with a blank before each, and a closing
parenthesis. -/
def text : Form → String
  | .form heading inner => heading.text ++ textBelow inner ++ ")"

/-- The texts of the forms below a heading. -/
def textBelow : List Form → String
  | [] => ""
  | first :: rest => " " ++ text first ++ textBelow rest

end

/-- The texts of several forms with a blank in between. -/
def row (forms : List Form) : String := " ".intercalate (forms.map text)

mutual

/-- The headings of a form, the outer before the inner. -/
def headings : Form → List Heading
  | .form heading inner => heading :: headingsOf inner

/-- The headings of several forms. -/
def headingsOf : List Form → List Heading
  | [] => []
  | first :: rest => headings first ++ headingsOf rest

end

theorem headingsOf_append (a b : List Form) : headingsOf (a ++ b) = headingsOf a ++ headingsOf b := by
  induction a with
  | nil => rfl
  | cons first rest ih => rw [List.cons_append, headingsOf, ih, headingsOf, List.append_assoc]

theorem row_cons (first : Form) (rest : List Form) :
    row (first :: rest) = first.text ++ textBelow rest := by
  induction rest generalizing first with
  | nil => rw [row, List.map_singleton, String.intercalate_singleton, textBelow, String.append_empty]
  | cons second rest ih =>
    have hrow : row (first :: second :: rest) = first.text ++ " " ++ row (second :: rest) := by
      simp only [row, List.map_cons]
      exact String.intercalate_cons_cons
    rw [hrow, ih, textBelow, String.append_assoc, String.append_assoc]

theorem textBelow_eq_row (first : Form) (rest : List Form) :
    textBelow (first :: rest) = " " ++ row (first :: rest) := by
  rw [row_cons, textBelow, String.append_assoc]

theorem text_ne_empty (f : Form) : f.text ≠ "" := by
  cases f
  rw [text, Ne, String.append_eq_empty_iff]
  intro h
  exact absurd h.2 (by decide)

/-- What is written after forms are appended: a blank comes before each form, but not at the very
beginning. -/
def after (out : String) (forms : List Form) : String :=
  if out = "" then row forms else out ++ textBelow forms

theorem after_nil (out : String) : after out [] = out := by
  by_cases h : out = ""
  · rw [after, if_pos h, h, row, List.map_nil, String.intercalate_nil]
  · rw [after, if_neg h, textBelow, String.append_empty]

theorem after_ne_empty {out : String} (h : out ≠ "") (forms : List Form) : after out forms ≠ "" := by
  rw [after, if_neg h, Ne, String.append_eq_empty_iff]
  exact fun hboth => h hboth.1

theorem textBelow_append (a b : List Form) : textBelow (a ++ b) = textBelow a ++ textBelow b := by
  induction a with
  | nil => rw [List.nil_append, textBelow, String.empty_append]
  | cons first rest ih =>
    rw [List.cons_append, textBelow, ih, textBelow]
    simp only [String.append_assoc]

theorem after_append (out : String) (a b : List Form) : after out (a ++ b) = after (after out a) b := by
  cases a with
  | nil => rw [after_nil, List.nil_append]
  | cons first rest =>
    by_cases h : out = ""
    · have hne : row (first :: rest) ≠ "" := by
        rw [row_cons, Ne, String.append_eq_empty_iff]
        exact fun hboth => text_ne_empty first hboth.1
      have hout : after out (first :: rest) = row (first :: rest) := by rw [after, if_pos h]
      rw [hout, after, if_pos h, after, if_neg hne, List.cons_append, row_cons, row_cons,
        textBelow_append, String.append_assoc]
    · rw [after, if_neg h, textBelow_append, after, if_neg (after_ne_empty h _), after, if_neg h,
        String.append_assoc]

end Form

namespace Node

mutual

/-- The outermost written nodes of a tree, as forms. -/
def forms : Node → List Form
  | .node label children =>
    if h : (Node.node label children).isWritten = true then
      [.form (.ofNode (.node label children) h) (formsOf children)]
    else formsOf children

/-- The outermost written nodes of several trees. -/
def formsOf : List Node → List Form
  | [] => []
  | first :: rest => forms first ++ formsOf rest

end

/-- The heading of a node, if it is written. -/
def heading? (node : Node) : Option Heading :=
  if h : node.isWritten = true then some (.ofNode node h) else none

mutual

/-- The headings of the forms are those of the written nodes, in the order of the walk. -/
theorem headingsOf_forms : ∀ node : Node,
    Form.headingsOf node.forms = node.all.filterMap heading?
  | .node label children => by
    rw [forms, all, List.filterMap_cons, heading?]
    by_cases h : (Node.node label children).isWritten = true
    · rw [dif_pos h, dif_pos h, Form.headingsOf, Form.headingsOf, Form.headings, List.append_nil,
        headingsOf_formsOf children]
    · rw [dif_neg h, dif_neg h, headingsOf_formsOf children]

theorem headingsOf_formsOf : ∀ nodes : List Node,
    Form.headingsOf (formsOf nodes) = (allOf nodes).filterMap heading?
  | [] => rfl
  | first :: rest => by
    rw [formsOf, allOf, Form.headingsOf_append, List.filterMap_append, headingsOf_forms first,
      headingsOf_formsOf rest]

end

/-- What is written when the walk comes to a node. -/
def openGroup (out : String) (node : Node) : String :=
  if node.isWritten then (if out.isEmpty then out else out ++ " ") ++ node.heading else out

/-- What is written when the walk leaves a node. -/
def closeGroup (out : String) (node : Node) : String :=
  if node.isWritten then out ++ ")" else out

/-- A group is opened by the heading of the node, with a blank before it if something is written. -/
theorem openGroup_written {node : Node} (h : node.isWritten = true) (out : String) :
    openGroup out node = (if out = "" then "" else out ++ " ") ++ (Heading.ofNode node h).text := by
  rw [openGroup, if_pos h, Heading.text_ofNode]
  by_cases ho : out = ""
  · rw [if_pos (String.isEmpty_iff.mpr ho), if_pos ho, ho]
  · rw [if_neg (fun he => ho (String.isEmpty_iff.mp he)), if_neg ho]

theorem openGroup_ne_empty {node : Node} (h : node.isWritten = true) (out : String) :
    openGroup out node ≠ "" := by
  rw [openGroup_written h, Heading.text, Ne, String.append_eq_empty_iff, String.append_eq_empty_iff,
    String.append_eq_empty_iff]
  intro hempty
  exact absurd hempty.2.1.2 (by decide)

mutual

/-- The walk appends the texts of the forms. -/
theorem visit_eq_after : ∀ (node : Node) (out : String),
    Cursor.visit openGroup closeGroup out node = Form.after out node.forms
  | .node label children, out => by
    rw [Cursor.visit, visitAll_eq_after children, forms]
    by_cases h : (Node.node label children).isWritten = true
    · rw [dif_pos h, closeGroup, if_pos h, Form.after, if_neg (openGroup_ne_empty h out),
        openGroup_written h, Form.after, Form.row_cons, Form.textBelow, Form.text, Form.textBelow]
      by_cases ho : out = ""
      · rw [if_pos ho, if_pos ho, String.empty_append, String.append_empty]
      · rw [if_neg ho, if_neg ho, Form.text, Form.textBelow, String.append_empty]
        simp only [String.append_assoc]
    · rw [dif_neg h, closeGroup, if_neg h, openGroup, if_neg h]

theorem visitAll_eq_after : ∀ (nodes : List Node) (out : String),
    Cursor.visitAll openGroup closeGroup out nodes = Form.after out (formsOf nodes)
  | [], out => (Form.after_nil out).symm
  | first :: rest, out => by
    rw [Cursor.visitAll, visit_eq_after first, visitAll_eq_after rest, formsOf, Form.after_append]

end

theorem size_unlabelled (node : Node) : node.unlabelled.size = node.size := by
  cases node
  rw [unlabelled, size, size]

theorem toSexp_eq_walk (node : Node) : node.toSexp =
    Cursor.walk (fun out cursor => (openGroup out cursor.node, true)) closeGroup node.size ""
      (Cursor.ofNode node.unlabelled) := by
  rw [toSexp]
  congr 1
  funext out cursor
  by_cases h : cursor.node.isWritten = true
  · rw [if_pos h, openGroup, if_pos h]
  · rw [if_neg h, openGroup, if_neg h]

/-- What is written of a tree is the row of its forms. -/
theorem toSexp_eq_row (node : Node) : node.toSexp = Form.row node.unlabelled.forms := by
  have hunvisited : (Cursor.ofNode node.unlabelled).unvisited ≤ node.size := by
    rw [Cursor.unvisited_ofNode, size_unlabelled]
  rw [toSexp_eq_walk, Cursor.walk_eq_visit _ _ _ hunvisited, visit_eq_after, Form.after, if_pos rfl]
  rfl

end Node

/-! ## Balanced groups -/

/-- The text is a row of balanced groups with these headings, the outer before the inner. -/
inductive Groups : List Heading → String → Prop
  /-- A heading with nothing below it. -/
  | leaf (heading : Heading) : Groups [heading] (heading.text ++ ")")
  /-- Groups below a heading. -/
  | around (heading : Heading) {headings : List Heading} {body : String} :
    Groups headings body → Groups (heading :: headings) (heading.text ++ " " ++ body ++ ")")
  /-- Groups beside each other. -/
  | beside {headings later : List Heading} {a b : String} :
    Groups headings a → Groups later b → Groups (headings ++ later) (a ++ " " ++ b)

mutual

theorem Form.groups : ∀ f : Form, Groups f.headings f.text
  | .form heading inner => by
    have hinner := Form.groups_row inner
    rw [headings, text]
    cases inner with
    | nil =>
      rw [headingsOf, textBelow, String.append_empty]
      exact .leaf heading
    | cons first rest =>
      have haround := Groups.around heading (hinner (List.cons_ne_nil _ _))
      rw [textBelow_eq_row, ← String.append_assoc]
      exact haround

/-- Forms in a row are groups beside each other. -/
theorem Form.groups_row : ∀ forms : List Form, forms ≠ [] → Groups (headingsOf forms) (row forms)
  | [], h => absurd rfl h
  | first :: rest, _ => by
    have hfirst := Form.groups first
    have hrest := Form.groups_row rest
    rw [headingsOf, row_cons]
    cases rest with
    | nil =>
      rw [headingsOf, textBelow, List.append_nil, String.append_empty]
      exact hfirst
    | cons second rest =>
      have hbeside := Groups.beside hfirst (hrest (List.cons_ne_nil _ _))
      rw [textBelow_eq_row, ← String.append_assoc]
      exact hbeside

end

/-! ## Reading back -/

/-- Two words that are followed by a stop are the same if they stop at the same place. -/
theorem append_inj_of_stops {α : Type} (stop : α → Prop) {a b t t' : List α} (ha : ∀ x ∈ a, ¬ stop x)
    (hb : ∀ x ∈ b, ¬ stop x) (ht : ∃ x ∈ t.head?, stop x) (ht' : ∃ x ∈ t'.head?, stop x)
    (h : a ++ t = b ++ t') : a = b ∧ t = t' := by
  induction a generalizing b with
  | nil =>
    cases b with
    | nil => exact ⟨rfl, h⟩
    | cons y b =>
      obtain ⟨x, hx, hstop⟩ := ht
      rw [List.nil_append] at h
      rw [h, List.cons_append, List.head?_cons, Option.mem_some_iff] at hx
      exact absurd (hx ▸ hstop) (hb y List.mem_cons_self)
  | cons x a ih =>
    cases b with
    | nil =>
      obtain ⟨y, hy, hstop⟩ := ht'
      rw [List.nil_append] at h
      rw [← h, List.cons_append, List.head?_cons, Option.mem_some_iff] at hy
      exact absurd (hy ▸ hstop) (ha x List.mem_cons_self)
    | cons y b =>
      rw [List.cons_append, List.cons_append, List.cons.injEq] at h
      obtain ⟨hab, htt⟩ := ih (fun z hz => ha z (List.mem_cons_of_mem _ hz))
        (fun z hz => hb z (List.mem_cons_of_mem _ hz)) h.2
      exact ⟨by rw [h.1, hab], htt⟩

/-- A blank, or the end of a group. -/
def isStop (c : Char) : Prop := c = ' ' ∨ c = ')'

/-- The text goes on with a blank before a group, or with the end of the group. -/
def Stops (rest : List Char) : Prop := ∃ c ∈ rest.head?, isStop c

namespace Heading

/-- Field labels are followed by the parenthesis that opens the group. -/
theorem fieldText_no_paren (field : Option Field) : '(' ∉ (fieldText field).toList := by
  cases field with
  | none => decide
  | some field => cases field <;> decide

theorem fieldText_injective : Function.Injective fieldText := by
  have hfound : ∀ field ∈ none :: Field.all.map some,
      (none :: Field.all.map some).find? (fieldText · == fieldText field) = some field := by
    decide +kernel
  have hmem : ∀ field : Option Field, field ∈ none :: Field.all.map some := by
    rintro (_ | field)
    · decide
    · cases field <;> decide
  intro a b h
  have ha := hfound a (hmem a)
  rw [h, hfound b (hmem b)] at ha
  exact (Option.some.inj ha).symm

/-- The words for a kind without the mark of a missing token. -/
def word (heading : Heading) : String :=
  if heading.kind.isNamed then heading.kind.name else Node.quotedKind heading.kind

theorem kindText_missing {heading : Heading} (h : heading.isMissing = true) :
    heading.kindText = "MISSING " ++ heading.word := by
  rw [kindText, if_pos h, word]

theorem kindText_present {heading : Heading} (h : heading.isMissing = false) :
    heading.kind.isNamed = true ∧ heading.kindText = heading.kind.name := by
  have hnamed : heading.kind.isNamed = true := by
    have hwritten := heading.written
    rwa [h, Bool.or_false] at hwritten
  rw [kindText, h]
  exact ⟨hnamed, rfl⟩

/-- The name of a rule has no stop in it, and no quotation mark. -/
theorem name_of_named {kind : Symbol} (h : kind.isNamed = true) :
    ∀ c ∈ kind.name.toList, ¬ isStop c ∧ c ≠ '"' := by
  have hall := (Symbol.named_is_word kind kind.mem_withSkipped h).1
  intro c hc
  have hchar := List.all_eq_true.mp hall c hc
  simp only [Bool.and_eq_true, bne_iff_ne] at hchar
  exact ⟨fun hstop => hstop.elim hchar.1.1 hchar.1.2, hchar.2⟩

/-- The name of a rule is read up to the next stop. -/
theorem name_determines {a b : Symbol} (ha : a.isNamed = true) (hb : b.isNamed = true)
    {t t' : List Char} (ht : Stops t) (ht' : Stops t') (h : a.name.toList ++ t = b.name.toList ++ t') :
    a.name = b.name ∧ t = t' := by
  obtain ⟨hname, hrest⟩ := append_inj_of_stops isStop (fun c hc => (name_of_named ha c hc).1)
    (fun c hc => (name_of_named hb c hc).1) ht ht' h
  exact ⟨String.toList_inj.mp hname, hrest⟩

/-- What stands between the quotation marks. -/
def unquoted (kind : Symbol) : String := if kind == .lineFeed then "\\n" else kind.name

theorem quotedKind_toList (kind : Symbol) :
    (Node.quotedKind kind).toList = '"' :: ((unquoted kind).toList ++ ['"']) := by
  unfold Node.quotedKind unquoted
  by_cases h : (kind == .lineFeed) = true
  · rw [if_pos h, if_pos h]
    decide
  · rw [if_neg h, if_neg h, String.toList_append, String.toList_append]
    have hquote : "\"".toList = ['"'] := by decide
    rw [hquote]
    rfl

theorem unquoted_no_quote {kind : Symbol} (h : kind.isNamed = false) :
    '"' ∉ (unquoted kind).toList := by
  unfold unquoted
  by_cases hline : (kind == .lineFeed) = true
  · rw [if_pos hline]
    decide
  · rw [if_neg hline]
    exact (Symbol.anonymous_unquoted kind kind.mem_withSkipped h).1

theorem unquoted_injective {a b : Symbol} (ha : a.isNamed = false) (hb : b.isNamed = false)
    (h : unquoted a = unquoted b) : a = b := by
  have hname {kind : Symbol} (hk : kind.isNamed = false) : kind.name ≠ "\\n" :=
    (Symbol.anonymous_unquoted kind kind.mem_withSkipped hk).2
  unfold unquoted at h
  by_cases hla : (a == .lineFeed) = true
  · by_cases hlb : (b == .lineFeed) = true
    · rw [eq_of_beq hla, eq_of_beq hlb]
    · rw [if_pos hla, if_neg hlb] at h
      exact absurd h.symm (hname hb)
  · by_cases hlb : (b == .lineFeed) = true
    · rw [if_neg hla, if_pos hlb] at h
      exact absurd h (hname ha)
    · rw [if_neg hla, if_neg hlb] at h
      exact Symbol.name_injective h

/-- No name of a rule is read where a quoted one stands. -/
theorem named_ne_quoted {a b : Symbol} (ha : a.isNamed = true) {t t' : List Char} (ht : Stops t)
    (h : a.name.toList ++ t = (Node.quotedKind b).toList ++ t') : False := by
  rw [quotedKind_toList, List.cons_append] at h
  cases hname : a.name.toList with
  | nil =>
    obtain ⟨c, hc, hstop⟩ := ht
    rw [hname, List.nil_append] at h
    rw [h, List.head?_cons, Option.mem_some_iff] at hc
    subst hc
    exact hstop.elim (by decide) (by decide)
  | cons c rest =>
    rw [hname, List.cons_append, List.cons.injEq] at h
    have hmem : c ∈ a.name.toList := by
      rw [hname]
      exact List.mem_cons_self
    exact (name_of_named ha c hmem).2 h.1

/-- The word for a kind is read up to the next stop. -/
theorem word_determines {a b : Heading} {t t' : List Char} (ht : Stops t) (ht' : Stops t')
    (h : a.word.toList ++ t = b.word.toList ++ t') : a.kind = b.kind ∧ t = t' := by
  unfold word at h
  by_cases ha : a.kind.isNamed = true
  · rw [if_pos ha] at h
    by_cases hb : b.kind.isNamed = true
    · rw [if_pos hb] at h
      obtain ⟨hname, hrest⟩ := name_determines ha hb ht ht' h
      exact ⟨Symbol.name_injective hname, hrest⟩
    · rw [if_neg hb] at h
      exact (named_ne_quoted ha ht h).elim
  · rw [if_neg ha] at h
    by_cases hb : b.kind.isNamed = true
    · rw [if_pos hb] at h
      exact (named_ne_quoted hb ht' h.symm).elim
    · rw [if_neg hb, quotedKind_toList, quotedKind_toList] at h
      rw [Bool.not_eq_true] at ha hb
      simp only [List.cons_append, List.cons.injEq, true_and, List.append_assoc, List.nil_append] at h
      -- Between quotation marks only a quotation mark is a stop.
      obtain ⟨hname, hrest⟩ := append_inj_of_stops (· = '"')
        (fun c hc hq => unquoted_no_quote ha (hq ▸ hc)) (fun c hc hq => unquoted_no_quote hb (hq ▸ hc))
        ⟨_, rfl, rfl⟩ ⟨_, rfl, rfl⟩ h
      exact ⟨unquoted_injective ha hb (String.toList_inj.mp hname), (List.cons.inj hrest).2⟩

theorem missing_toList {heading : Heading} (h : heading.isMissing = true) (t : List Char) :
    heading.kindText.toList ++ t = "MISSING".toList ++ ' ' :: (heading.word.toList ++ t) := by
  have hmark : "MISSING ".toList = "MISSING".toList ++ [' '] := by decide
  rw [kindText_missing h, String.toList_append, hmark, List.append_assoc, List.append_assoc]
  rfl

/-- No name of a rule is the mark of a missing token. -/
theorem missing_ne_present {a b : Heading} (ha : a.isMissing = true) (hb : b.isMissing = false)
    {t t' : List Char} (ht' : Stops t')
    (h : a.kindText.toList ++ t = b.kindText.toList ++ t') : False := by
  obtain ⟨hnamed, htext⟩ := kindText_present hb
  rw [missing_toList ha, htext] at h
  have hmark : ∀ c ∈ "MISSING".toList, ¬ isStop c := by
    have hchars : "MISSING".toList = ['M', 'I', 'S', 'S', 'I', 'N', 'G'] := by decide
    rw [hchars]
    simp [isStop]
  have hname := (append_inj_of_stops isStop hmark (fun c hc => (name_of_named hnamed c hc).1)
    ⟨_, rfl, .inl rfl⟩ ht' h).1
  exact (Symbol.named_is_word _ (Symbol.mem_withSkipped _) hnamed).2 (String.toList_inj.mp hname.symm)

theorem kindText_determines {a b : Heading} {t t' : List Char} (ht : Stops t) (ht' : Stops t')
    (h : a.kindText.toList ++ t = b.kindText.toList ++ t') :
    a.kind = b.kind ∧ a.isMissing = b.isMissing ∧ t = t' := by
  cases ha : a.isMissing with
  | true =>
    cases hb : b.isMissing with
    | true =>
      rw [missing_toList ha, missing_toList hb, List.append_cancel_left_eq, List.cons.injEq] at h
      obtain ⟨hkind, hrest⟩ := word_determines ht ht' h.2
      exact ⟨hkind, rfl, hrest⟩
    | false => exact (missing_ne_present ha hb ht' h).elim
  | false =>
    cases hb : b.isMissing with
    | true => exact (missing_ne_present hb ha ht h.symm).elim
    | false =>
      obtain ⟨hna, hta⟩ := kindText_present ha
      obtain ⟨hnb, htb⟩ := kindText_present hb
      rw [hta, htb] at h
      obtain ⟨hname, hrest⟩ := name_determines hna hnb ht ht' h
      exact ⟨Symbol.name_injective hname, rfl, hrest⟩

/-- A heading is read up to the next stop. -/
theorem text_determines {a b : Heading} {t t' : List Char} (ht : Stops t) (ht' : Stops t')
    (h : a.text.toList ++ t = b.text.toList ++ t') : a = b ∧ t = t' := by
  have htext (heading : Heading) (rest : List Char) : heading.text.toList ++ rest =
      (fieldText heading.field).toList ++ '(' :: (heading.kindText.toList ++ rest) := by
    have hopen : "(".toList = ['('] := by decide
    rw [text, String.toList_append, String.toList_append, hopen, List.append_assoc, List.append_assoc]
    rfl
  rw [htext, htext] at h
  obtain ⟨hfield, hrest⟩ := append_inj_of_stops (· = '(')
    (fun c hc hp => fieldText_no_paren _ (hp ▸ hc)) (fun c hc hp => fieldText_no_paren _ (hp ▸ hc))
    ⟨_, rfl, rfl⟩ ⟨_, rfl, rfl⟩ h
  obtain ⟨hkind, hmissing, hafter⟩ := kindText_determines ht ht' (List.cons.inj hrest).2
  have hfield := fieldText_injective (String.toList_inj.mp hfield)
  refine ⟨?_, hafter⟩
  cases a
  cases b
  cases hfield
  cases hkind
  cases hmissing
  rfl

end Heading

namespace Form

theorem textBelow_toList (first : Form) (rest : List Form) (t : List Char) :
    (textBelow (first :: rest)).toList ++ t =
      ' ' :: (first.text.toList ++ ((textBelow rest).toList ++ t)) := by
  have hblank : " ".toList = [' '] := by decide
  rw [textBelow, String.toList_append, String.toList_append, hblank, List.append_assoc,
    List.append_assoc]
  rfl

/-- Below a heading comes a blank before a group, or the end of the group. -/
theorem stops_textBelow (forms : List Form) (t : List Char) :
    Stops ((textBelow forms).toList ++ ')' :: t) := by
  cases forms with
  | nil =>
    rw [textBelow, String.toList_empty]
    exact ⟨_, rfl, .inr rfl⟩
  | cons first rest =>
    rw [textBelow_toList]
    exact ⟨_, rfl, .inl rfl⟩

mutual

/-- A group is read up to its own closing parenthesis. -/
theorem text_determines : ∀ {f g : Form} {t t' : List Char},
    f.text.toList ++ t = g.text.toList ++ t' → f = g ∧ t = t'
  | .form a inner, .form b inner', t, t', h => by
    have hclose : ")".toList = [')'] := by decide
    simp only [text, String.toList_append, hclose, List.append_assoc, List.cons_append,
      List.nil_append] at h
    obtain ⟨rfl, hbelow⟩ :=
      Heading.text_determines (stops_textBelow inner t) (stops_textBelow inner' t') h
    obtain ⟨rfl, hrest⟩ := textBelow_determines hbelow
    exact ⟨rfl, hrest⟩

theorem textBelow_determines : ∀ {forms forms' : List Form} {t t' : List Char},
    (textBelow forms).toList ++ ')' :: t = (textBelow forms').toList ++ ')' :: t' →
      forms = forms' ∧ t = t'
  | [], [], t, t', h => ⟨rfl, (List.cons.inj h).2⟩
  | [], second :: rest', t, t', h => by
    rw [textBelow_toList, textBelow, String.toList_empty, List.nil_append, List.cons.injEq] at h
    exact absurd h.1 (by decide)
  | first :: rest, [], t, t', h => by
    rw [textBelow_toList, textBelow, String.toList_empty, List.nil_append, List.cons.injEq] at h
    exact absurd h.1 (by decide)
  | first :: rest, second :: rest', t, t', h => by
    rw [textBelow_toList, textBelow_toList, List.cons.injEq] at h
    obtain ⟨rfl, hbelow⟩ := text_determines h.2
    obtain ⟨rfl, hrest⟩ := textBelow_determines hbelow
    exact ⟨rfl, hrest⟩

end

/-- Forms are determined by their row. -/
theorem row_injective : Function.Injective row := by
  have hne (first : Form) (rest : List Form) : row (first :: rest) ≠ row [] := by
    rw [row_cons, row, List.map_nil, String.intercalate_nil, Ne, String.append_eq_empty_iff]
    exact fun hboth => text_ne_empty first hboth.1
  intro forms forms' h
  match forms, forms' with
  | [], [] => rfl
  | [], second :: rest' => exact absurd h.symm (hne second rest')
  | first :: rest, [] => exact absurd h (hne first rest)
  | first :: rest, second :: rest' =>
    have hbelow : (textBelow (first :: rest)).toList ++ ')' :: [] =
        (textBelow (second :: rest')).toList ++ ')' :: [] := by
      rw [textBelow_eq_row, h, ← textBelow_eq_row]
    exact (textBelow_determines hbelow).1

end Form

/-- **Nested lists say which tree of written nodes they stand for.**  Writing a tree comes to an end
after at most one turn of the walk for each node.  What is written are the texts of the outermost forms
with a blank in between: nothing if no node is written, and else groups that are balanced, one for each
written node in the order of the walk.  Two trees with the same text have the same forms. -/
theorem Node.toSexp_reads_back (node : Node) :
    (∃ count ≤ node.size, Cursor.Turns (fun out cursor => (openGroup out cursor.node, true)) closeGroup
      count "" (Cursor.ofNode node.unlabelled) node.toSexp) ∧
    node.toSexp = Form.row node.unlabelled.forms ∧
    (node.unlabelled.forms = [] ∧ node.toSexp = "" ∨
      Groups (node.unlabelled.all.filterMap heading?) node.toSexp) ∧
    ∀ other : Node, node.toSexp = other.toSexp → node.unlabelled.forms = other.unlabelled.forms := by
  refine ⟨?_, toSexp_eq_row node, ?_, ?_⟩
  · have hunvisited : (Cursor.ofNode node.unlabelled).unvisited = node.size := by
      rw [Cursor.unvisited_ofNode, size_unlabelled]
    rw [toSexp_eq_walk, ← hunvisited]
    exact Cursor.turns_walk _ _ _ (Nat.le_refl _)
  · rw [toSexp_eq_row, ← headingsOf_forms]
    by_cases h : node.unlabelled.forms = []
    · rw [h, Form.row, List.map_nil, String.intercalate_nil]
      exact .inl ⟨rfl, rfl⟩
    · exact .inr (Form.groups_row _ h)
  · intro other h
    rw [toSexp_eq_row, toSexp_eq_row] at h
    exact Form.row_injective h

end Tree

end Cicode
