import Cicode.Proofs.Parse.Moved
import Cicode.Proofs.Parse.Straight

/-!
# Floors on other ground

The floors of a text that is read behind another one stand on other ground: on the items of the other one.
What is built on top of the ground is the same in both texts, moved on (`Floor.Over`).

Main statements: a reduction that does not reach the ground is the same on both sides (`Floor.Over.reduce`), and
extras on top stay on top where trees are put together below them (`Floor.takeOff_putAll`,
`Floor.splitTrailingExtras_append`).
-/

namespace Cicode.Parse

open Grammar Text Cicode.Lex Grammar.ShiftReduce

namespace Floor

variable {e : Extent} {base base' upper upper' floors floors' : List Floor} {count production : Nat}
  {symbol : Symbol}

/-! ## Extras on top -/

theorem frames_append (upper below : List Floor) : frames (upper ++ below) = frames upper ++ frames below := by
  simp [frames]

theorem putAll_append (state : StateId) (a b : List Subtree) (floors : List Floor) :
    putAll state (a ++ b) floors = putAll state b (putAll state a floors) :=
  List.foldl_append ..

theorem top_putAll (state : StateId) (trees : List Subtree) (h : top floors = state) :
    top (putAll state trees floors) = state := by
  induction trees generalizing floors with
  | nil => exact h
  | cons t trees ih => exact ih rfl

theorem takeOff_putAll {trees : List Subtree} (h : ∀ t ∈ trees, t.isExtra = true) (state : StateId) (count : Nat)
    (floors : List Floor) : takeOff (count + 1) (putAll state trees floors) =
      (takeOff (count + 1) floors).map fun taken => (taken.1 ++ trees, taken.2) := by
  induction trees generalizing floors with
  | nil =>
    rw [putAll, List.foldl_nil]
    cases takeOff (count + 1) floors with
    | none => rfl
    | some taken => rw [Option.map_some, List.append_nil]
  | cons t trees ih =>
    obtain ⟨hfirst, hrest⟩ := List.forall_mem_cons.mp h
    have hone : takeOff (count + 1) (⟨state, t⟩ :: floors) =
        (takeOff (count + 1) floors).map fun taken => (taken.1 ++ [t], taken.2) := by
      rw [takeOff, if_pos hfirst]
    show takeOff (count + 1) (putAll state trees (⟨state, t⟩ :: floors)) = _
    rw [ih hrest, hone, Option.map_map]
    congr 1
    funext taken
    simp

theorem splitTrailingExtras_append (a : List Subtree) {b : List Subtree} (h : ∀ t ∈ b, t.isExtra = true) :
    Subtree.splitTrailingExtras (a ++ b) =
      ((Subtree.splitTrailingExtras a).1, (Subtree.splitTrailingExtras a).2 ++ b) := by
  have hrev : ∀ t ∈ b.reverse, t.isExtra = true := fun t ht => h t (List.mem_reverse.mp ht)
  rw [Subtree.splitTrailingExtras, Subtree.splitTrailingExtras, List.reverse_append]
  simp only [List.dropWhile_append_of_pos hrev, List.takeWhile_append_of_pos hrev, List.reverse_append,
    List.reverse_reverse]

/-- A tree that is no extra stays where extras are split off behind it. -/
theorem splitTrailingExtras_cons {c : Subtree} (hc : c.isExtra = false) (rest : List Subtree) :
    Subtree.splitTrailingExtras (c :: rest) =
      (c :: (Subtree.splitTrailingExtras rest).1, (Subtree.splitTrailingExtras rest).2) := by
  rw [Subtree.splitTrailingExtras, Subtree.splitTrailingExtras, List.reverse_cons]
  have hdrop : (rest.reverse ++ [c]).dropWhile Subtree.isExtra = rest.reverse.dropWhile Subtree.isExtra ++ [c] := by
    induction rest.reverse with
    | nil => simp [hc]
    | cons d ds ih =>
      rw [List.cons_append, List.dropWhile_cons, List.dropWhile_cons, ih]
      split <;> rfl
  have htake : (rest.reverse ++ [c]).takeWhile Subtree.isExtra = rest.reverse.takeWhile Subtree.isExtra := by
    induction rest.reverse with
    | nil => simp [hc]
    | cons d ds ih =>
      rw [List.cons_append, List.takeWhile_cons, List.takeWhile_cons, ih]
  simp only [hdrop, htake, List.reverse_append, List.reverse_cons, List.reverse_nil, List.nil_append,
    List.singleton_append]

/-! ## The same on other ground -/

/-- What is built on the ground of both texts: the same, but that the lowest tree has moved on. -/
inductive Over (e : Extent) (base base' : List Floor) : List Floor → List Floor → Prop
  | first {x x' : Floor} : x.tree.isExtra = false → x.state ≠ 1 → x.state ≠ 3 → x'.state = x.state →
      Subtree.Moved e (reach base) (reach base') x.tree x'.tree → Over e base base' [x] [x']
  | more {x : Floor} {upper upper' : List Floor} : x.state ≠ 1 → x.state ≠ 3 → Over e base base' upper upper' →
      Over e base base' (x :: upper) (x :: upper')

theorem Over.top_eq (h : Over e base base' upper upper') :
    top (upper' ++ base') = top (upper ++ base) ∧ top (upper ++ base) ≠ 1 ∧ top (upper ++ base) ≠ 3 := by
  cases h with
  | first _ h1 h3 hs _ => exact ⟨hs, h1, h3⟩
  | more h1 h3 _ => exact ⟨rfl, h1, h3⟩

theorem Over.reach_eq (h : Over e base base' upper upper') :
    reach (upper' ++ base') = e + reach (upper ++ base) := by
  induction h with
  | first _ _ _ _ hm => exact hm.stop_eq
  | @more x upper upper' _ _ _ ih =>
    show reach (upper' ++ base') + x.tree.totalSize = e + (reach (upper ++ base) + x.tree.totalSize)
    rw [ih, Extent.add_assoc]

theorem Over.length_eq (h : Over e base base' upper upper') : (frames upper').length = (frames upper).length := by
  induction h with
  | @first x x' hx _ _ _ hm =>
    rw [frames_cons_tree hx, frames_cons_tree (by rw [hm.isExtra_eq, hx])]
    rfl
  | @more x upper upper' _ _ _ ih =>
    by_cases hx : x.tree.isExtra = true
    · rw [frames_cons_extra hx, frames_cons_extra hx, ih]
    · rw [Bool.not_eq_true] at hx
      rw [frames_cons_tree hx, frames_cons_tree hx, List.length_cons, List.length_cons, ih]

/-- What is taken off without reaching the ground is the same on both sides. -/
theorem Over.takeOff (h : Over e base base' upper upper') (hle : count ≤ (frames upper).length) :
    ∃ trees trees' below below', Floor.takeOff count (upper ++ base) = some (trees, below ++ base) ∧
      Floor.takeOff count (upper' ++ base') = some (trees', below' ++ base') ∧
      (Over e base base' below below' ∧ trees' = trees ∨ below = [] ∧ below' = [] ∧ ∃ c c' rest,
        trees = c :: rest ∧ trees' = c' :: rest ∧ c.isExtra = false ∧
          Subtree.Moved e (reach base) (reach base') c c') := by
  induction h generalizing count with
  | @first x x' hx h1 h3 hs hm =>
    have hx' : x'.tree.isExtra = false := by rw [hm.isExtra_eq, hx]
    rw [frames_cons_tree hx] at hle
    cases count with
    | zero => exact ⟨[], [], [x], [x'], rfl, rfl, .inl ⟨.first hx h1 h3 hs hm, rfl⟩⟩
    | succ count =>
      obtain rfl : count = 0 := Nat.le_zero.mp (Nat.le_of_succ_le_succ hle)
      refine ⟨[x.tree], [x'.tree], [], [], ?_, ?_, .inr ⟨rfl, rfl, x.tree, x'.tree, [], rfl, rfl, hx, hm⟩⟩
      · show (Floor.takeOff (if x.tree.isExtra then 1 else 0) base).map _ = _
        rw [hx, if_neg Bool.false_ne_true, takeOff]
        rfl
      · show (Floor.takeOff (if x'.tree.isExtra then 1 else 0) base').map _ = _
        rw [hx', if_neg Bool.false_ne_true, takeOff]
        rfl
  | @more x upper upper' h1 h3 hupper ih =>
    cases count with
    | zero => exact ⟨[], [], x :: upper, x :: upper', rfl, rfl, .inl ⟨.more h1 h3 hupper, rfl⟩⟩
    | succ count =>
      have hle' : (if x.tree.isExtra then count + 1 else count) ≤ (frames upper).length := by
        by_cases hx : x.tree.isExtra = true
        · rwa [if_pos hx, ← frames_cons_extra hx]
        · rw [Bool.not_eq_true] at hx
          rw [frames_cons_tree hx, List.length_cons] at hle
          rw [hx]
          exact Nat.le_of_succ_le_succ hle
      obtain ⟨trees, trees', below, below', ht, ht', hcases⟩ := ih hle'
      refine ⟨trees ++ [x.tree], trees' ++ [x.tree], below, below', ?_, ?_, ?_⟩
      · show (Floor.takeOff (if x.tree.isExtra then count + 1 else count) (upper ++ base)).map _ = _
        rw [ht]
        rfl
      · show (Floor.takeOff (if x.tree.isExtra then count + 1 else count) (upper' ++ base')).map _ = _
        rw [ht']
        rfl
      · rcases hcases with ⟨hbelow, rfl⟩ | ⟨rfl, rfl, c, c', rest, rfl, rfl, hc, hm⟩
        · exact .inl ⟨hbelow, rfl⟩
        · exact .inr ⟨rfl, rfl, c, c', rest ++ [x.tree], rfl, rfl, hc, hm⟩

/-- Extras are put on both sides. -/
theorem Over.putAll (h : Over e base base' upper upper') {state : StateId} (h1 : state ≠ 1) (h3 : state ≠ 3)
    (trees : List Subtree) : ∃ up up', Floor.putAll state trees (upper ++ base) = up ++ base ∧
      Floor.putAll state trees (upper' ++ base') = up' ++ base' ∧ Over e base base' up up' := by
  induction trees generalizing upper upper' with
  | nil => exact ⟨upper, upper', rfl, rfl, h⟩
  | cons tree trees ih => exact ih (.more h1 h3 h)

/-- **A reduction that does not reach the ground** is the same on both sides, if the same state follows. -/
theorem Over.reduce (h : Over e base base' upper upper') (symbol : Symbol) (production : Nat)
    (hle : count ≤ (frames upper).length) :
    ∃ trees below below', Floor.reduce symbol count production (upper ++ base) =
        some (putParent symbol production trees (below ++ base)) ∧
      ((below ≠ [] ∨ nextState (top base') symbol = nextState (top base) symbol) →
        nextState (top (below ++ base)) symbol ≠ 1 → nextState (top (below ++ base)) symbol ≠ 3 →
        ∃ up up', putParent symbol production trees (below ++ base) = up ++ base ∧
          Floor.reduce symbol count production (upper' ++ base') = some (up' ++ base') ∧
          Over e base base' up up') ∧
      (below = [] ∨ Over e base base' below below') := by
  obtain ⟨trees, trees', below, below', ht, ht', hcases⟩ := h.takeOff hle
  refine ⟨trees, below, below', ?_, fun hgoto h1 h3 => ?_, ?_⟩
  · rw [Floor.reduce, ht]
    rfl
  · rw [Floor.reduce, ht', Option.map_some]
    rcases hcases with ⟨hbelow, heq⟩ | ⟨rfl, rfl, c, c', rest, rfl, rfl, hc, hm⟩
    · obtain rfl : trees = trees' := heq.symm
      have hnew : Over e base base'
          (⟨nextState (top (below ++ base)) symbol,
            .ofChildren symbol production (Subtree.splitTrailingExtras trees).1⟩ :: below)
          (⟨nextState (top (below ++ base)) symbol,
            .ofChildren symbol production (Subtree.splitTrailingExtras trees).1⟩ :: below') := .more h1 h3 hbelow
      obtain ⟨up, up', hup, hup', hupper⟩ := hnew.putAll h1 h3 (Subtree.splitTrailingExtras trees).2
      refine ⟨up, up', hup, ?_, hupper⟩
      rw [putParent, hbelow.top_eq.1]
      exact congrArg some hup'
    · have hsame := hgoto.resolve_left fun hne => hne rfl
      have hnew : Over e base base'
          [⟨nextState (top base) symbol, .ofChildren symbol production (c :: (Subtree.splitTrailingExtras rest).1)⟩]
          [⟨nextState (top base) symbol,
            .ofChildren symbol production (c' :: (Subtree.splitTrailingExtras rest).1)⟩] :=
        .first (Subtree.isExtra_ofChildren ..) h1 h3 rfl (.parent hm)
      obtain ⟨up, up', hup, hup', hupper⟩ := hnew.putAll h1 h3 (Subtree.splitTrailingExtras rest).2
      refine ⟨up, up', ?_, ?_, hupper⟩
      · rw [putParent, splitTrailingExtras_cons hc]
        exact hup
      · rw [putParent, splitTrailingExtras_cons (by rw [hm.isExtra_eq, hc])]
        show some (Floor.putAll (nextState (top base') symbol) _ (⟨nextState (top base') symbol, _⟩ :: base')) = _
        rw [hsame]
        exact congrArg some hup'
  · rcases hcases with ⟨hbelow, -⟩ | ⟨rfl, -⟩
    · exact .inr hbelow
    · exact .inl rfl

end Floor

end Cicode.Parse
