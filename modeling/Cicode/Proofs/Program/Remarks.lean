import Cicode.Proofs.Program.Names

/-!
# Diagnostics that are no errors

Validation remarks two things without calling them errors: that a documented parameter is not there, and
that a function with a result never returns one.  They point at a tag of documentation and at the name
of a function.  Both are tokens of the text, so that these spans are never empty (`wide_remark`).
-/

namespace Cicode.Program

open Text Cicode.Lex Cicode.Tree Grammar

variable {P : Span → Prop} {f : Function} {d : Diagnostic}

/-- The diagnostic is the report of a fault, and if it is no error, it points at something with the
property. -/
def Reported (P : Span → Prop) (d : Diagnostic) : Prop :=
  ∃ (fault : Fault) (span : Span), d = fault.reportAt span ∧ (fault.severity = .error ∨ P span)

namespace Reported

theorem phase (h : Reported P d) : d.phase = .validation := by
  obtain ⟨fault, span, rfl, -⟩ := h
  rfl

theorem points (h : Reported P d) (hno : d.isError = false) : P d.span := by
  obtain ⟨fault, span, rfl, herror | hspan⟩ := h
  · have : (fault.reportAt span).isError = true := beq_iff_eq.mpr herror
    rw [this] at hno
    cases hno
  · exact hspan

end Reported

/-- What validation remarks about a function points at something with the property. -/
structure Function.Remarks (P : Span → Prop) (f : Function) : Prop where
  name : P f.nameSpan
  documented : ∀ doc, f.doc = some doc → doc.SpansIn P

namespace Function

theorem reported_checkDeclarations (hd : d ∈ f.checkDeclarations) : Reported P d := by
  obtain ⟨⟨what, name, span⟩, -, rfl⟩ := List.mem_map.mp hd
  exact ⟨_, span, rfl, .inl rfl⟩

theorem reported_checkDefaults {seen : Bool} {parameters : List Parameter}
    (hd : d ∈ checkDefaults seen parameters) : Reported P d := by
  induction parameters generalizing seen with
  | nil => cases hd
  | cons p rest ih =>
    rw [checkDefaults] at hd
    split at hd
    · exact ih hd
    · split at hd
      · rcases List.mem_cons.mp hd with rfl | hd
        · exact ⟨_, p.span, rfl, .inl rfl⟩
        · exact ih hd
      · exact ih hd

theorem reported_checkReturn {statement : Statement} (hd : f.checkReturn statement = some d) :
    Reported P d := by
  rw [checkReturn.eq_def] at hd
  split at hd
  · split at hd <;> cases hd
    all_goals exact ⟨_, _, rfl, .inl rfl⟩
  · cases hd

namespace Remarks

theorem checkDoc (h : f.Remarks P) (hd : d ∈ f.checkDoc) : Reported P d := by
  rw [Function.checkDoc] at hd
  split at hd
  · cases hd
  · rename_i doc hdoc
    obtain ⟨param, hmem, rfl⟩ := List.mem_map.mp hd
    exact ⟨_, param.span, rfl, .inr (h.documented doc hdoc param (List.mem_filter.mp hmem).1)⟩

theorem checkReturns (h : f.Remarks P) (hd : d ∈ f.checkReturns) : Reported P d := by
  have hwrong : d ∈ (Statement.walkAll f.body).filterMap f.checkReturn → Reported P d := by
    intro hmem
    obtain ⟨statement, -, hs⟩ := List.mem_filterMap.mp hmem
    exact reported_checkReturn hs
  rw [Function.checkReturns] at hd
  split at hd
  · exact hwrong hd
  · split at hd
    · exact hwrong hd
    · rcases List.mem_append.mp hd with hd | hd
      · exact hwrong hd
      · obtain rfl := List.mem_singleton.mp hd
        exact ⟨_, f.nameSpan, rfl, .inr h.name⟩

theorem validate (h : f.Remarks P) (hd : d ∈ f.validate) : Reported P d := by
  simp only [Function.validate, List.mem_append] at hd
  rcases hd with ((hd | hd) | hd) | hd
  · exact reported_checkDeclarations hd
  · exact h.checkDoc hd
  · exact reported_checkDefaults hd
  · exact h.checkReturns hd

end Remarks

end Function

/-- Whatever validation finds is a fault, and an error unless it is a remark. -/
theorem reported_validate {functions : List Function} (h : ∀ f ∈ functions, f.Remarks P)
    (hd : d ∈ validate functions) : Reported P d := by
  rcases List.mem_append.mp hd with hd | hd
  · obtain ⟨f, -, rfl⟩ := List.mem_map.mp hd
    exact ⟨_, f.nameSpan, rfl, .inl rfl⟩
  · obtain ⟨f, hf, hd⟩ := List.mem_flatMap.mp hd
    exact (h f hf).validate hd

/-! ## Spans of remarks -/

/-- The span takes up some text. -/
def Wide (span : Span) : Prop := span.start < span.stop

variable {source : Source} {node : Node} {chars : List Char}

theorem wide_name (hn : node.AllNaming chars) {name : String} {span : Span} {part : Part}
    (h : identifier source part (node.child? .name) = .ok (name, span)) : Wide span := by
  obtain ⟨inner, hfound, hmissing, rfl⟩ := identifier_eq_ok h
  have hfield := List.find?_some (p := fun child : Node => child.label.field == some .name) hfound
  have hnaming := (hn.child? hfound).self
  obtain ⟨-, pre, word, post, -, hstart, hstop, hword⟩ :=
    hnaming.leaf (hnaming.field (beq_iff_eq.mp hfield)) hmissing
  show inner.label.start.bytes < inner.label.stop.bytes
  have := byteLength_pos hword.nonempty
  rw [hstart, hstop, Extent.bytes_of, Extent.bytes_of, byteLength_append]
  omega

theorem remarks_function {above : Option Doc} {f : Function} {dropped : List Dropped}
    (h : function source node above = .ok (f, dropped)) (hn : node.AllNaming chars)
    (hdoc : ∀ doc, above = some doc → doc.SpansIn Wide) : f.Remarks Wide := by
  rw [function] at h
  obtain ⟨header, hheader, h⟩ := bind_eq_ok.mp h
  obtain ⟨⟨name, nameSpan⟩, hname, h⟩ := bind_eq_ok.mp h
  obtain ⟨⟨body, lostStatements⟩, -, h⟩ := bind_eq_ok.mp h
  cases h
  exact ⟨wide_name (hn.significant (List.mem_of_find?_eq_some (require_eq_ok.mp hheader))) hname, hdoc⟩

/-- The remarks about the functions of a text point at some text. -/
theorem remarks_parse (text : String) : ∀ f ∈ (parse text).1, f.Remarks Wide := by
  intro f hf
  have hroot := naming_parse text.toList
  rw [fst_parse, lower] at hf
  generalize Node.parse text.toList = root at hroot hf
  have hinner : ∀ node ∈ root.significant, node.AllNaming text.toList := fun _ => hroot.significant
  obtain ⟨node, hnode, above, dropped, hlowered, habove⟩ := mem_functionsFrom (P := Wide)
    (fun node hnode tag htag hkind => ((hinner node hnode).significant htag).self.tag hkind)
    (.empty Wide) hf
  exact remarks_function hlowered (hinner node hnode) habove

/-- A diagnostic of a text comes from parsing or lowering, or is found by validation. -/
theorem mem_check {text : String} {d : Diagnostic} : d ∈ (check text).diagnostics ↔
    d ∈ (parse text).2 ∨ d ∈ validate (parse text).1 := by
  simp only [check, checkInOrder, List.mem_mergeSort, List.mem_append]

/-- What parsing and lowering report are errors. -/
theorem isError_parse {text : String} {d : Diagnostic} (hd : d ∈ (parse text).2) : d.isError = true := by
  rw [parse] at hd
  simp only [List.mem_append, List.mem_map, List.mem_filterMap] at hd
  rcases hd with ⟨problem, -, rfl⟩ | ⟨dropped, -, hd⟩
  · rfl
  · rw [Dropped.report?] at hd
    split at hd <;> cases hd
    rfl

/-- **A diagnostic that is no error points at some text.** -/
theorem wide_remark {text : String} {d : Diagnostic} (hd : d ∈ (check text).diagnostics)
    (hno : d.isError = false) : Wide d.span := by
  rcases mem_check.mp hd with hd | hd
  · rw [isError_parse hd] at hno
    cases hno
  · exact (reported_validate (remarks_parse text) hd).points hno

/-- The diagnostics of parsing are not those of validation. -/
theorem parsing_check {text : String} : (∀ d ∈ (check text).diagnostics, d.phase ≠ .parsing) ↔
    ∀ d ∈ (parse text).2, d.phase ≠ .parsing := by
  refine ⟨fun h d hd => h d (mem_check.mpr (.inl hd)), fun h d hd => ?_⟩
  rcases mem_check.mp hd with hd | hd
  · exact h d hd
  · rw [(reported_validate (remarks_parse text) hd).phase]
    decide

end Cicode.Program
