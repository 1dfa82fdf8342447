import Cicode.Proofs.Lex.Names
import Cicode.Proofs.Parse.Growth

/-!
# Trees in their places

A tree *lies* at a place of the text (`Lies`) if each of its tokens is what some state reads where
the tokens before it end, names being words that are no keywords, and each of its nodes takes up what its
children do.  Wherever a tree
lies, it begins and ends at places of the text (`Lies.start`, `Lies.stop`).
-/

namespace Cicode.Parse

open Grammar Text Cicode.Lex

/-- The extent of trees after each other. -/
def extentOf : List Subtree → Extent
  | [] => 0
  | tree :: rest => tree.totalSize + extentOf rest

@[simp] theorem extentOf_nil : extentOf [] = 0 := rfl

@[simp] theorem extentOf_cons (t : Subtree) (ts : List Subtree) :
    extentOf (t :: ts) = t.totalSize + extentOf ts := rfl

theorem extentOf_append (ts us : List Subtree) : extentOf (ts ++ us) = extentOf ts + extentOf us := by
  induction ts with
  | nil => simp
  | cons t ts ih => rw [List.cons_append, extentOf_cons, ih, extentOf_cons, Extent.add_assoc]

namespace Subtree

theorem addChildren_extent (facts : Facts) (place : Nat) (cs : List Subtree) :
    (addChildren facts place false cs).padding = facts.padding ∧
    (addChildren facts place false cs).size = facts.size + extentOf cs := by
  induction cs generalizing facts place with
  | nil => exact ⟨rfl, (Extent.add_zero _).symm⟩
  | cons c cs ih =>
    obtain ⟨hp, hs⟩ := ih (addChild facts place false c) (if c.isExtra then place else place + 1)
    rw [addChildren, hp, hs, extentOf_cons, ← Extent.add_assoc]
    exact ⟨rfl, rfl⟩

/-- A tree begins where its first child does. -/
theorem padding_ofChildren (s : Symbol) (p : Nat) (c : Subtree) (cs : List Subtree) :
    (ofChildren s p (c :: cs)).facts.padding = c.facts.padding :=
  (addChildren_extent (addChild { symbol := s, production := p, padding := 0, size := 0 } 0 true c)
    (if c.isExtra then 0 else 0 + 1) cs).1

/-- A tree takes up what its children do. -/
theorem totalSize_ofChildren (s : Symbol) (p : Nat) (cs : List Subtree) :
    (ofChildren s p cs).totalSize = extentOf cs := by
  cases cs with
  | nil => exact Extent.add_zero _
  | cons c cs =>
    have hsize := (addChildren_extent
      (addChild { symbol := s, production := p, padding := 0, size := 0 } 0 true c)
      (if c.isExtra then 0 else 0 + 1) cs).2
    rw [totalSize, padding_ofChildren, extentOf_cons, totalSize, Extent.add_assoc]
    exact congrArg (c.facts.padding + ·) hsize

@[simp] theorem totalSize_withExtra (e : Bool) (t : Subtree) :
    (t.withExtra e).totalSize = t.totalSize := by
  cases t; rfl

theorem totalSize_skipped (cs : List Subtree) (extra : Bool) :
    (skipped cs extra).totalSize = extentOf cs := by
  rw [skipped, totalSize_withExtra, totalSize_ofChildren]

end Subtree

/-! ## Tokens where they are read -/

/-- The facts are those of a token that some state reads at a place. -/
structure IsReadAt (chars : List Char) (position : Extent) (facts : Facts) : Prop where
  place : IsPlace chars position
  read : ∃ state, facts.padding = (nextToken (.ofList chars) state position).padding ∧
    facts.size = (nextToken (.ofList chars) state position).size ∧
    facts.symbol = (nextToken (.ofList chars) state position).symbol

namespace IsReadAt

variable {chars : List Char} {position : Extent} {facts : Facts}

theorem start (h : IsReadAt chars position facts) : IsPlace chars (position + facts.padding) := by
  obtain ⟨state, hp, -⟩ := h.read
  rw [hp]
  exact (placed_nextToken state h.place).start

theorem stop (h : IsReadAt chars position facts) :
    IsPlace chars (position + facts.padding + facts.size) := by
  obtain ⟨state, hp, hs, -⟩ := h.read
  rw [hp, hs]
  exact (placed_nextToken state h.place).finish

/-- The end of the text is read at its last place. -/
theorem last (h : IsReadAt chars position facts) (hend : facts.symbol = .endOfInput) :
    position + facts.padding + facts.size = Extent.of chars := by
  obtain ⟨state, hp, hs, hsym⟩ := h.read
  rw [hp, hs]
  exact (placed_nextToken state h.place).last (hsym ▸ hend)

/-- A name is a word that is no keyword. -/
theorem named (h : IsReadAt chars position facts) (hname : facts.symbol = .identifier) :
    NamedAt chars (position + facts.padding) facts.size := by
  obtain ⟨state, hp, hs, hsym⟩ := h.read
  rw [hp, hs]
  exact named_nextToken state h.place (hsym ▸ hname)

end IsReadAt

theorem isReadAt_ofToken {chars : List Char} {position : Extent} (h : IsPlace chars position)
    (state : StateId) :
    IsReadAt chars position (Subtree.ofToken (nextToken (.ofList chars) state position)).facts :=
  ⟨h, state, rfl, rfl, rfl⟩

/-! ## Trees -/

/-- The tree lies at the place where its padding begins. -/
inductive Lies (chars : List Char) : Extent → Subtree → Prop
  /-- A piece of the text, or a tree without text. -/
  | leaf {p : Extent} {facts : Facts} : IsPlace chars p → IsPlace chars (p + facts.padding) →
      IsPlace chars (p + facts.padding + facts.size) →
      (facts.symbol = .identifier → 0 < facts.size.bytes →
        NamedAt chars (p + facts.padding) facts.size) → Lies chars p (.node facts [])
  /-- Children after each other. -/
  | node {p : Extent} {facts : Facts} {c : Subtree} {cs : List Subtree} :
      facts.padding = c.facts.padding → facts.padding + facts.size = extentOf (c :: cs) →
      (∀ pre t post, c :: cs = pre ++ t :: post → Lies chars (p + extentOf pre) t) →
      Lies chars p (.node facts (c :: cs))

theorem IsReadAt.lies {chars : List Char} {p : Extent} {facts : Facts} (h : IsReadAt chars p facts) :
    Lies chars p (.node facts []) :=
  .leaf h.place h.start h.stop fun hname _ => h.named hname

/-- A tree without text lies at every place. -/
theorem lies_empty {chars : List Char} {p : Extent} {facts : Facts} (h : IsPlace chars p)
    (hp : facts.padding = 0) (hs : facts.size = 0) : Lies chars p (.node facts []) := by
  have hstart : p + facts.padding = p := by rw [hp, Extent.add_zero]
  refine .leaf h (hstart.symm ▸ h) ?_ fun _ hwide => ?_
  · rwa [hstart, hs, Extent.add_zero]
  · rw [hs] at hwide
    cases hwide

/-- The trees lie after each other from a place on. -/
def LieAll (chars : List Char) (p : Extent) (trees : List Subtree) : Prop :=
  ∀ pre t post, trees = pre ++ t :: post → Lies chars (p + extentOf pre) t

section

variable {chars : List Char} {p : Extent} {t : Subtree} {ts us : List Subtree}

theorem LieAll.nil : LieAll chars p [] := by
  intro pre t post h
  simp at h

theorem lieAll_append : LieAll chars p (ts ++ us) ↔
    LieAll chars p ts ∧ LieAll chars (p + extentOf ts) us := by
  constructor
  · intro h
    refine ⟨fun pre t post heq => h pre t (post ++ us) (by simp [heq]), fun pre t post heq => ?_⟩
    have hlies := h (ts ++ pre) t post (by simp [heq])
    rwa [extentOf_append, ← Extent.add_assoc] at hlies
  · rintro ⟨h1, h2⟩ pre t post heq
    rcases List.append_eq_append_iff.mp heq with ⟨mid, rfl, rfl⟩ | ⟨mid, rfl, hmid⟩
    · rw [extentOf_append, ← Extent.add_assoc]
      exact h2 mid t post rfl
    · cases mid with
      | nil =>
        simp only [List.append_nil] at h2
        exact h2 [] t post hmid.symm |> (by simpa using ·)
      | cons u mid =>
        obtain ⟨rfl, rfl⟩ := List.cons.inj hmid
        exact h1 pre t mid rfl

theorem lieAll_singleton : LieAll chars p [t] ↔ Lies chars p t := by
  constructor
  · exact fun h => by simpa using h [] t [] rfl
  · rintro h pre u post heq
    cases pre with
    | nil =>
      obtain ⟨rfl, -⟩ := List.cons.inj heq
      simpa using h
    | cons a pre => simp at heq

theorem lieAll_cons : LieAll chars p (t :: ts) ↔
    Lies chars p t ∧ LieAll chars (p + t.totalSize) ts := by
  have h : LieAll chars p ([t] ++ ts) ↔ _ := lieAll_append
  rw [lieAll_singleton] at h
  simpa using h

end

namespace Lies

variable {chars : List Char} {p : Extent} {t : Subtree}

/-- Where a tree lies there is a place, and so there is where it begins. -/
theorem place_start (h : Lies chars p t) : IsPlace chars p ∧ IsPlace chars (p + t.facts.padding) := by
  induction h with
  | leaf hplace hstart => exact ⟨hplace, hstart⟩
  | @node p facts c cs hp _ _ ih =>
    have hfirst := ih [] c cs rfl
    rw [extentOf_nil, Extent.add_zero] at hfirst
    rw [Subtree.facts, hp]
    exact hfirst

theorem place (h : Lies chars p t) : IsPlace chars p := h.place_start.1

theorem start (h : Lies chars p t) : IsPlace chars (p + t.facts.padding) := h.place_start.2

/-- A tree that lies in the text ends at a place. -/
theorem finish (h : Lies chars p t) : IsPlace chars (p + t.totalSize) := by
  induction h with
  | leaf _ _ hstop _ =>
    rw [Subtree.totalSize, ← Extent.add_assoc]
    exact hstop
  | @node p facts c cs _ hsize _ ih =>
    obtain ⟨pre, last, heq⟩ : ∃ pre last, c :: cs = pre ++ [last] :=
      ⟨(c :: cs).dropLast, (c :: cs).getLast (by simp), (List.dropLast_concat_getLast _).symm⟩
    have hlast := ih pre last [] heq
    rw [Subtree.totalSize, Subtree.facts, hsize, heq, extentOf_append, extentOf_cons, extentOf_nil,
      Extent.add_zero, ← Extent.add_assoc]
    exact hlast

theorem stop (h : Lies chars p t) : IsPlace chars (p + t.facts.padding + t.facts.size) := by
  rw [Extent.add_assoc]
  exact h.finish

/-- The children of a tree lie from where it lies on. -/
theorem children (h : Lies chars p t) : LieAll chars p t.children := by
  cases h with
  | leaf => exact .nil
  | node _ _ h => exact h

theorem withExtra (h : Lies chars p t) (extra : Bool) : Lies chars p (t.withExtra extra) := by
  cases h with
  | leaf hplace hstart hstop hname => exact .leaf hplace hstart hstop hname
  | node hp hs h => exact .node hp hs h

end Lies

theorem LieAll.lies_ofChildren {chars : List Char} {p : Extent} {ts : List Subtree}
    (h : LieAll chars p ts) (hp : IsPlace chars p) (s : Symbol) (n : Nat) :
    Lies chars p (.ofChildren s n ts) := by
  cases ts with
  | nil => exact lies_empty hp rfl rfl
  | cons t ts => exact .node (Subtree.padding_ofChildren ..) (Subtree.totalSize_ofChildren ..) h

theorem LieAll.lies_skipped {chars : List Char} {p : Extent} {ts : List Subtree}
    (h : LieAll chars p ts) (hp : IsPlace chars p) (extra : Bool) :
    Lies chars p (.skipped ts extra) :=
  (h.lies_ofChildren hp .error 0).withExtra extra

theorem lies_missingToken {chars : List Char} {p : Extent} (hp : IsPlace chars p) (s : Symbol) :
    Lies chars p (.missingToken s) :=
  lies_empty hp rfl rfl

end Cicode.Parse
