import Cicode.Proofs.Parse.Derived

/-!
# Nothing is repaired for nothing

When the parser meets its first error, its stack is still strict (`Stack.Sound`), so that whatever it
does about the error costs something: from then on every version has paid (`Parser.Paid`), and so has
every tree that is found (`Parser.Straight.paid_stuck`).  A run is therefore either straight up to the
end of the text, or its tree has a price (`Parser.Straight.run_ends_or_pays`).

Main statement (`ends_of_free`): a text whose tree costs nothing is read up to its end and accepted,
without a repair, by a single version.
-/

namespace Cicode.Parse

open Grammar Text Cicode.Lex

namespace Parser

variable {chars : List Char} {parser : Parser} {floors : List Floor}

/-! ## The first error -/

/-- What is left of the versions after a round whose only version waits. -/
theorem condense_paused (parser : Parser) {stack : Stack} (h : stack.Single floors) (lookahead : Subtree) :
    ∃ least, ({ parser with stack := stack.pause 0 lookahead } : Parser).condense =
      resumePaused 2 0 1 false least { parser with stack := stack.pause 0 lookahead } := by
  have hcount : (stack.pause 0 lookahead).versionCount = 1 :=
    (Stack.versionCount_modifyHead ..).trans h.versionCount_eq
  have hhead : (stack.pause 0 lookahead).head 0 =
      { stack.head 0 with status := .paused lookahead, countAtError := (stack.top 0).nodeCount } := by
    rw [Stack.pause, Stack.head_modifyHead, if_pos ⟨rfl, by rw [h.versionCount_eq]; exact Nat.zero_lt_one⟩]
  have hhalted : (stack.pause 0 lookahead).isHalted 0 = false := by
    rw [Stack.isHalted, hhead]
    rfl
  have hsettle : (stack.pause 0 lookahead).settle 0 = stack.pause 0 lookahead := by
    rw [Stack.settle, Stack.top, hhead]
    exact if_neg (Nat.lt_irrefl _)
  have htake : (stack.pause 0 lookahead).heads.take maxVersions = (stack.pause 0 lookahead).heads := by
    obtain ⟨head, hheads⟩ := Array.size_eq_one_iff.mp hcount
    rw [hheads]
    rfl
  obtain ⟨least, hsort⟩ := sort_one hcount hhalted hsettle
  refine ⟨least, ?_⟩
  rw [condense, hcount, hsort]
  simp only [htake, hcount]

/-- **Whatever is done about the first error costs something.** -/
theorem Straight.paid_stuck (h : Straight chars parser floors) {stack : Stack} {last : List Floor}
    (hred : Floor.Reductions (Floor.next chars floors).symbol floors last) (hsingle : stack.Single last)
    (hsound : stack.Sound chars True) :
    Runs chars True ({ parser with stack := stack.pause 0 (Floor.next chars floors) } : Parser).condense.1 := by
  have hlinked := h.arrives.linked
  have hone : 0 < stack.versionCount := by
    rw [hsingle.versionCount_eq]
    exact Nat.zero_lt_one
  obtain ⟨least, hcondense⟩ := condense_paused parser hsingle (Floor.next chars floors)
  rw [hcondense]
  -- The version waits where the floors reach.
  have hlookahead := isLookahead_ofToken (wellRead_nextToken (.ofList chars) (Floor.top floors) (Floor.reach floors))
  have hplace : (stack.spot 0).position = Floor.reach floors :=
    hsingle.position_eq.trans (hred.reach_eq hlinked)
  have hread : IsReadAt chars (stack.spot 0).position (Floor.next chars floors).facts :=
    hplace ▸ isReadAt_ofToken h.arrives.isPlace _
  have hpaused : (stack.pause 0 (Floor.next chars floors)).Sound chars True := hsound.pause hlookahead hread
  have hcount : (stack.pause 0 (Floor.next chars floors)).versionCount = stack.versionCount :=
    Stack.versionCount_modifyHead ..
  have hhead : (stack.pause 0 (Floor.next chars floors)).head 0 = { stack.head 0 with
      status := .paused (Floor.next chars floors), countAtError := (stack.top 0).nodeCount } := by
    rw [Stack.pause, Stack.head_modifyHead, if_pos ⟨rfl, hone⟩]
  have hspot : (stack.pause 0 (Floor.next chars floors)).spot 0 = stack.spot 0 := by
    rw [Stack.spot, hhead]
    rfl
  have hwaits : ((stack.pause 0 (Floor.next chars floors)).head 0).status = .paused (Floor.next chars floors) := by
    rw [hhead]
  have hclear : (stack.pause 0 (Floor.next chars floors)).state 0 ≠ 0 := by
    rw [Stack.state_eq, stateAt, ← Stack.spot, hspot, show (stack.spot 0).state = _ from hsingle.state_eq]
    exact (hlinked.reductions hred).top_ne_zero
  generalize stack.pause 0 (Floor.next chars floors) = waiting at hpaused hcount hspot hwaits hclear
  have hsoundAll : ({ parser with stack := waiting } : Parser).Sound chars True :=
    ⟨h.source_eq, hpaused, fun t ht => by cases h.unfinished.symm.trans ht⟩
  have hresume : (waiting.resume 0).versionCount = waiting.versionCount := Stack.versionCount_modifyHead ..
  rw [resumePaused, if_pos Nat.zero_lt_one, hwaits]
  simp only [Bool.not_false, Bool.true_and]
  split
  · have hready : (waiting.resume 0).Ready True (waiting.spot 0).footing 0 := ready_resume (hcount ▸ hone) fun _ => hclear
    have hhandled := (hsoundAll.withStack hpaused.resume).handleError (v := 0)
      (hresume.symm ▸ hcount ▸ hone) hlookahead hready (hspot.symm ▸ hread)
    refine resumePaused_spec _ _ _ _ _ _ ⟨hhandled.sound, fun _ => hhandled.paid ⟨⟨fun w hw hne => ?_, ?_⟩, .inr trivial⟩⟩
    · have hw' : w < 1 := hsingle.versionCount_eq ▸ hcount ▸ hresume ▸ hw
      exact absurd (Nat.lt_one_iff.mp hw') hne
    · exact fun t ht => by cases h.unfinished.symm.trans ht
  · -- Too many trees have been found to go on, so that no version is left.
    refine resumePaused_spec _ _ _ _ _ _ ⟨hsoundAll.relax.withStack hpaused.relax.remove, fun _ => ⟨fun w hw => ?_, ?_⟩⟩
    · have hnone : (waiting.remove 0).versionCount = 0 := by
        rw [Stack.versionCount_remove, if_pos (hcount ▸ hone), hcount, hsingle.versionCount_eq]
      exact absurd (hnone ▸ hw) (Nat.not_lt_zero w)
    · exact fun t ht => by cases h.unfinished.symm.trans ht

/-! ## The whole run -/

/-- A round in which the parser comes to its first error, and those after it. -/
theorem Straight.run_stuck (h : Straight chars parser floors) {stack : Stack} {last : List Floor}
    (hred : Floor.Reductions (Floor.next chars floors).symbol floors last) (hsingle : stack.Single last)
    (hsound : stack.Sound chars True)
    (hadvance : parser.advance 0 = { parser with stack := stack.pause 0 (Floor.next chars floors) })
    (fuel reached : Nat) : ∀ t, (run (fuel + 1) reached parser).finished = some t → 0 < t.errorCost := by
  have hpaid := h.paid_stuck hred hsingle hsound
  rw [← hadvance] at hpaid
  have hcount : (parser.advance 0).stack.versionCount = 1 := by
    rw [hadvance]
    exact (Stack.versionCount_modifyHead ..).trans hsingle.versionCount_eq
  have hinactive : (parser.advance 0).stack.isActive 0 = false := by
    rw [hadvance]
    show ((stack.pause 0 (Floor.next chars floors)).head 0).status.isActive = false
    rw [Stack.pause, Stack.head_modifyHead,
      if_pos ⟨rfl, by rw [hsingle.versionCount_eq]; exact Nat.zero_lt_one⟩]
    rfl
  obtain ⟨hround, -⟩ := advanceAll_single h.single fuel fuel reached hcount (.inl hinactive)
  rw [run]
  generalize advanceAll (fuel + 1) (fuel + 1) 0 reached parser = round at hround
  obtain ⟨reached', p⟩ := round
  simp only at hround ⊢
  subst hround
  split
  · exact (hpaid.paid trivial).finished
  · exact ((run_spec fuel reached' _ hpaid).paid trivial).finished

/-- **A run is straight up to the end of the text, or its tree has a price.** -/
theorem Straight.run_ends_or_pays (h : Straight chars parser floors) (fuel : Nat) :
    (∃ before last, Floor.Ends chars before last) ∨
      ∀ t, (run fuel (Floor.reach floors).bytes parser).finished = some t → 0 < t.errorCost := by
  induction fuel generalizing parser floors with
  | zero => exact .inr fun t ht => by cases h.unfinished.symm.trans ht
  | succ fuel ih =>
    cases h.advanced with
    | read hreads h' =>
      rw [h.run_read hreads h']
      exact ih h'
    | accepted hred _ hc _ => exact .inl ⟨_, _, h.arrives, hred, hc⟩
    | stuck hred hsingle hsound _ hadvance => exact .inr (h.run_stuck hred hsingle hsound hadvance fuel _)

end Parser

/-- **A text whose tree costs nothing is read up to its end and accepted.** -/
theorem ends_of_free {chars : List Char} (h : (parse chars).errorCost = 0) :
    ∃ before last, Floor.Ends chars before last := by
  refine ((Parser.straight_initial chars).run_ends_or_pays (roundBound (.ofList chars))).resolve_right fun hpays => ?_
  rw [parse] at h
  rw [show (Floor.reach []).bytes = 0 from rfl] at hpays
  cases hf : (Parser.run (roundBound (Source.ofList chars)) 0
    { source := Source.ofList chars, stack := .initial }).finished with
  | none =>
    simp only [hf, Option.getD_none, unread] at h
    exact absurd h (Nat.ne_of_gt (Subtree.errorCost_skipped_pos rfl ..))
  | some tree =>
    simp only [hf, Option.getD_some] at h
    exact absurd h (Nat.ne_of_gt (hpays tree hf))

end Cicode.Parse
