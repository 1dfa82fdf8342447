import Cicode.Proofs.Parse.Insertion
import Cicode.Proofs.Program.RoundTrip
import Cicode.Proofs.Program.Twins
import Cicode.Proofs.Tree.Held
import Cicode.Proofs.Tree.SameParts

/-!
# Comments leave no trace

A comment that is put between two tokens of a text without repairs is read as a comment, whatever stands
around it, and the frames of the parser are the same with it and without it.  So both trees portray the same
derivation, and nodes that portray the same part are lowered alike.

Main statement (`comments_leave_no_trace`): with a comment at a free place the text has no repairs either, and
it is read as the same program with the same diagnostics, places aside.
-/

namespace Cicode.Program

open Grammar Text Cicode.Lex Cicode.Tree

/-! ## Trees that portray the same -/

/-- The kinds whose text is read stand for terminals. -/
theorem sources_wordKinds : ∀ kind ∈ wordKinds, ∀ symbol ∈ sources kind, symbol.isTerminal = true := by
  decide

/-- Nodes that portray the same part are twins, wherever they stand. -/
theorem twins_sameParts (source source' : Source) :
    Twins source source' (fun _ => nowhere) (fun _ => nowhere) (SamePart source source') where
  portrayed h := h.portrayed
  kind_eq h := h.kind_eq
  field_eq h := h.field_eq
  span_eq _ := rfl
  text_eq h hk := h.text_eq (sources_wordKinds _ hk)
  code h := h.code
  merge _ _ := rfl
  merge' _ _ := rfl

/-- In a text without repairs only what lowering leaves out is reported. -/
theorem snd_parse {text : String} (h : (Node.parse text.toList).hasError = false) :
    (parse text).2 = (lower (.ofList text.toList) (Node.parse text.toList)).2.filterMap (·.report?) := by
  rw [parse]
  generalize Node.parse text.toList = root at h
  simp only [list_eq_nil h, List.map_nil, List.nil_append]

/-- Both texts are read as the same program with the same diagnostics, places aside. -/
structure ReadAlike (text text' : String) : Prop where
  functions : (parse text).1.map (Function.relocate fun _ => nowhere) =
    (parse text').1.map (Function.relocate fun _ => nowhere)
  reported : (parse text).2.map (Diagnostic.relocate fun _ => nowhere) =
    (parse text').2.map (Diagnostic.relocate fun _ => nowhere)
  validated : (validate (parse text).1).map (Diagnostic.relocate fun _ => nowhere) =
    (validate (parse text').1).map (Diagnostic.relocate fun _ => nowhere)

/-- **Texts whose trees portray the same are read alike.** -/
theorem readAlike_of_samePart {text text' : String}
    (h : SamePart (.ofList text.toList) (.ofList text'.toList) (Node.parse text.toList) (Node.parse text'.toList)) :
    ReadAlike text text' := by
  obtain ⟨hp, hp'⟩ := h.portrayed
  have ht := twins_sameParts (.ofList text.toList) (.ofList text'.toList)
  have hlimits := (limited_lower (wellformed_parse hp.sound)).2
  obtain ⟨hfunctions, hlost⟩ := ht.lower (ht.significant h)
  rw [← fst_parse, ← fst_parse] at hfunctions
  refine ⟨hfunctions, ?_, ?_⟩
  · rw [snd_parse hp.sound, snd_parse hp'.sound]
    exact ht.reports hlost hlimits
  · rw [← validate_relocate, ← validate_relocate, hfunctions]

/-! ## Comments -/

/-- **A comment between two tokens leaves no trace.**  If the text without it has no repairs, and its place is
inside of no token and no documentation and not behind a comment that ends with its line, then the text with
it has no repairs either, and both are read as the same program with the same diagnostics, places aside. -/
theorem comments_leave_no_trace {pre post inside : List Char}
    (hsound : (Node.parse (pre ++ post)).hasError = false)
    (hfree : (Node.parse (pre ++ post)).Free (.ofList (pre ++ post)) (byteLength pre))
    (hnul : '\x00' ∉ inside) (hinside : ¬ ['*', '/'] <:+: inside) :
    (Node.parse (Parse.withComment pre inside post)).hasError = false ∧
      ReadAlike (String.ofList (pre ++ post)) (String.ofList (Parse.withComment pre inside post)) := by
  obtain ⟨before, last, hends⟩ := exists_ends hsound
  obtain ⟨before', last', hends', hbeside⟩ :=
    hends.insert (parted_of_free hends hfree ' ') hnul hinside
  have hsame := samePart_root hends hends' hbeside.frames_eq
  refine ⟨hsame.portrayed.2.sound, readAlike_of_samePart ?_⟩
  rw [String.toList_ofList, String.toList_ofList]
  exact hsame

/-- A function with a parameter, and a comment behind it. -/
def parameterText : List Char × List Char :=
  ("FUNCTION F(INT ".toList, "p)\nG(p);\nEND // done\n".toList)

theorem comments_leave_no_trace_parameterText :
    (Node.parse (parameterText.1 ++ parameterText.2)).hasError = false ∧
    (Node.parse (parameterText.1 ++ parameterText.2)).Free (.ofList (parameterText.1 ++ parameterText.2))
      (byteLength parameterText.1) ∧
    (Node.parse (Parse.withComment parameterText.1 "given // by the ' caller".toList
      parameterText.2)).hasError = false ∧
    ReadAlike (String.ofList (parameterText.1 ++ parameterText.2))
      (String.ofList (Parse.withComment parameterText.1 "given // by the ' caller".toList parameterText.2)) := by
  have hclean : (Node.parse (parameterText.1 ++ parameterText.2)).hasError = false ∧
      (Node.parse (parameterText.1 ++ parameterText.2)).Everywhere fun node =>
        (node.children = [] ∨ node.kind ∈ Parse.docKinds →
          ¬ (node.first < byteLength parameterText.1 ∧ byteLength parameterText.1 < node.last)) ∧
        node.last ≠ byteLength parameterText.1 := by
    decide +kernel
  obtain ⟨hsound, hplace⟩ := hclean
  have hfree : (Node.parse (parameterText.1 ++ parameterText.2)).Free
      (.ofList (parameterText.1 ++ parameterText.2)) (byteLength parameterText.1) :=
    ⟨fun node hin => (hplace node hin).1, fun node hin _ _ => (hplace node hin).2⟩
  exact ⟨hsound, hfree, comments_leave_no_trace hsound hfree (by decide) (by decide)⟩

end Cicode.Program
