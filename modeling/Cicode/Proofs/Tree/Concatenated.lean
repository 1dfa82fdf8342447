import Cicode.Proofs.Tree.Sequel

/-!
# Two sources in a row

A source that is read behind another one, after a line feed, is read as it is alone: the same tokens come
(`Follows.tokens`), and the same is put together, on the items of the source before (`Follows.reads`,
`Follows.completes`).  The source before is read as it is alone, too, since no token of it crosses its end
(`exists_prior`).

Main statement (`exists_concatenated`): where two sources are read up to their ends, both are in a row, and the
nodes of the first one come before those of the second one, which have moved.
-/

namespace Cicode.Tree

open Grammar Text Parse Cicode.Lex Grammar.ShiftReduce

variable {chars chars' : List Char} {e : Extent} {nodes : List Node}
  {floors floors' prior items next last : List Floor} {blank : List Char} {p : Piece}

/-! ## States that are never seen -/

/-- Nothing comes behind a source file. -/
theorem top_ne_two (h : Floor.Arrives chars floors) : Floor.top floors ≠ 2 := by
  induction h with
  | start => decide
  | @read floors next ha hr ih =>
    obtain ⟨mid, hred, hs⟩ := hr
    cases hs with
    | tree hc =>
      intro htwo
      have hsource := ((target_of_arrow (arrow_of_chosen hc)).2 htwo).2
      have hterm := isTerminal_of_chosen hc
      rw [hsource] at hterm
      cases hterm
    | extra hc =>
      have hcomment := comment_of_shiftExtra (mem_of_chosen hc)
      cases hred with
      | done => exact ih
      | step hstep =>
        rw [hcomment] at hstep
        cases action_of_comment hstep

/-! ## The same tokens -/

theorem pieceAt_congr {state state' : StateId} (hstart : lexStartAt state' = lexStartAt state)
    (hdoc : docBodyAt state' = docBodyAt state) (text : List Char) : pieceAt state' text = pieceAt state text := by
  rw [pieceAt, pieceAt, hstart, hdoc]

theorem lexed_alike : lexStartAt 1 = 109 ∧ docBodyAt 1 = none ∧ lexStartAt 3 = 109 ∧ docBodyAt 3 = none ∧
    skips lexStates 109 '\n' = true := by
  decide +kernel

/-- The floors before hold all of the first source but the blanks at its end. -/
structure Seam (chars chars' : List Char) (e : Extent) (blank : List Char) (prior : List Floor) : Prop where
  reach_eq : Floor.reach prior + Extent.of blank = e
  rest_eq : Floor.restOf chars' prior = blank ++ chars
  skipped : ∀ c ∈ blank, skips lexStates 109 c = true
  lexed : lexStartAt (Floor.top prior) = 109 ∧ docBodyAt (Floor.top prior) = none
  whole : ∃ read, chars' = read ++ chars ∧ Extent.of read = e

/-- The floors of the second source, alone and behind the first one. -/
def Follows (e : Extent) (nodes : List Node) (prior floors floors' : List Floor) : Prop :=
  Begun e prior floors floors' ∨ floors ≠ [] ∧ Joined e nodes floors floors'

/-- At the very beginning nothing of the second source has been read. -/
theorem Begun.eq_prior (h : Begun e prior [] floors') : floors' = prior := by
  generalize hfloors : ([] : List Floor) = floors at h
  obtain ⟨-, -, hm⟩ := h
  rcases hm with ⟨rfl, rfl⟩ | ⟨c, c', rest, rfl, rfl, -⟩
  · rfl
  · have htrees := congrArg Floor.trees hfloors
    rw [Floor.trees_putAll] at htrees
    exact absurd htrees (by simp [Floor.trees])

theorem begun_start (e : Extent) (prior : List Floor) : Begun e prior [] prior :=
  show Begun e prior (Floor.putAll 1 [] []) (Floor.putAll (Floor.top prior) [] prior) from
    .mk (by simp) (by simp) (.inl ⟨rfl, rfl⟩)

namespace Follows

theorem reach_eq (h : Follows e nodes prior floors floors') (hne : floors ≠ []) :
    Floor.reach floors' = e + Floor.reach floors := by
  rcases h with h | ⟨-, h⟩
  · exact h.reach_eq hne
  · exact h.reach_eq hne

/-- The next word is read in the same way on both sides. -/
theorem lexed (h : Follows e nodes prior floors floors') (hs : Seam chars chars' e blank prior) (text : List Char) :
    pieceAt (Floor.top floors') text = pieceAt (Floor.top floors) text := by
  obtain ⟨h1, h1', h3, h3', -⟩ := lexed_alike
  rcases h with h | ⟨-, h⟩
  · obtain ⟨htop, htop'⟩ := h.top_eq
    rw [htop, htop']
    exact pieceAt_congr (hs.lexed.1.trans h1.symm) (hs.lexed.2.trans h1'.symm) text
  · rcases h.tops with htop | ⟨htop, htop'⟩
    · rw [htop]
    · rw [htop, htop']
      exact pieceAt_congr (h3.trans h1.symm) (h3'.trans h1'.symm) text

/-- Where something of the second source has been read, the same is left. -/
theorem rest_eq (h : Follows e nodes prior floors floors') (hs : Seam chars chars' e blank prior)
    (ha : Floor.Arrives chars floors) (hne : floors ≠ []) :
    Floor.restOf chars' floors' = Floor.restOf chars floors := by
  obtain ⟨read, hchars, hreach⟩ := ha.exists_before
  obtain ⟨before, hchars', hbefore⟩ := hs.whole
  have hsplit : chars' = (before ++ read) ++ Floor.restOf chars floors := by
    rw [List.append_assoc, ← hchars, hchars']
  have hfar : Floor.reach floors' = Extent.of (before ++ read) := by
    rw [h.reach_eq hne, hreach, Extent.of_append, hbefore]
  calc Floor.restOf chars' floors' = Floor.restOf ((before ++ read) ++ Floor.restOf chars floors) floors' := by
        rw [← hsplit]
    _ = Floor.restOf chars floors := Floor.restOf_append hfar

/-- Tokens that come next: on both sides the same, but for what stands before the first one. -/
structure Tokens (e : Extent) (floors floors' : List Floor) (token token' : Subtree) : Prop where
  symbol_eq : token'.symbol = token.symbol
  beyond : ∀ extra, Beyond e floors floors' (token.withExtra extra) (token'.withExtra extra)

/-- A token stands further on behind more blanks. -/
theorem moved_after {p' : Extent} (h : p' + Extent.of blank = e) (extra : Bool) : Subtree.Moved e 0 p'
    ((Subtree.ofToken p.token).withExtra extra) ((Subtree.ofToken (p.after blank).token).withExtra extra) := by
  have hleaf : ∀ (facts : Facts) (padding : Extent), p' + padding = e + (0 + facts.padding) →
      Subtree.Moved e 0 p' (.node facts []) (.node { facts with padding } []) := fun _ _ => .leaf
  refine hleaf ((Subtree.ofToken p.token).withExtra extra).facts (Extent.of (blank ++ p.blank)) ?_
  show p' + Extent.of (blank ++ p.blank) = e + (0 + Extent.of p.blank)
  rw [Extent.of_append, ← Extent.add_assoc, h, Extent.zero_add]

/-- **The same token comes next.** -/
theorem tokens (h : Follows e nodes prior floors floors') (hs : Seam chars chars' e blank prior)
    (ha : Floor.Arrives chars floors) (hp : pieceAt (Floor.top floors) (Floor.restOf chars floors) = some p) :
    Tokens e floors floors' (Floor.next chars floors) (Floor.next chars' floors') := by
  rw [Floor.next_piece hp]
  by_cases hne : floors = []
  · subst hne
    obtain rfl : floors' = prior := by
      rcases h with h | ⟨hne, -⟩
      · exact h.eq_prior
      · exact absurd rfl hne
    have hrest : Floor.restOf ([] ++ chars) [] = chars := Floor.restOf_append rfl
    rw [List.nil_append] at hrest
    have hp' : pieceAt (Floor.top floors') (Floor.restOf chars' floors') = some (p.after blank) := by
      rw [hs.rest_eq, pieceAt_after hs.lexed.2 (hs.lexed.1.symm ▸ hs.skipped), h.lexed hs, ← hrest, hp]
      rfl
    rw [Floor.next_piece hp']
    exact ⟨rfl, fun extra => .inr ⟨rfl, moved_after hs.reach_eq extra⟩⟩
  · have hp' : pieceAt (Floor.top floors') (Floor.restOf chars' floors') = some p := by
      rw [h.lexed hs, h.rest_eq hs ha hne, hp]
    rw [Floor.next_piece hp']
    exact ⟨rfl, fun _ => .inl ⟨hne, rfl⟩⟩

/-- **The same is put together on both sides**, until the source file is. -/
theorem reductions (h : Follows e nodes prior floors floors') (hp : Prior nodes prior items) {terminal : Symbol}
    (hl : Floor.Linked floors) (hl' : Floor.Linked floors') (hcomment : terminal ≠ .comment)
    (hr : Floor.Reductions terminal floors last) (htop : Floor.top last ≠ 2)
    (halive : chosen (actionsAt (Floor.top last) terminal) ≠ none) :
    ∃ last', Floor.Reductions terminal floors' last' ∧ Joined e nodes last last' := by
  rcases h with h | ⟨-, h⟩
  · have hfirst := Floor.exists_chosen_of_reductions hr halive
    rw [h.top_eq.1] at hfirst
    obtain ⟨joined, hred, hjoined⟩ := h.join hp hcomment hfirst
    obtain ⟨last', hred', hlast⟩ := hjoined.reductions hl (hl'.reductions hred) hcomment hr htop halive
    exact ⟨last', hred.trans hred', hlast⟩
  · exact h.reductions hl hl' hcomment hr htop halive

/-- Comments are extras on the second side, too. -/
theorem chosen_comment (h : Follows e nodes prior floors floors') (hp : Prior nodes prior items)
    (hc : chosen (actionsAt (Floor.top floors) .comment) ≠ none) :
    chosen (actionsAt (Floor.top floors') .comment) = some .shiftExtra := by
  have hrow : ∃ row, rowAt (Floor.top floors') = some row := by
    rcases h with h | ⟨-, h⟩
    · obtain ⟨symbol, count, production, hends⟩ := hp.ends
      rw [h.top_eq.2]
      exact exists_row_of_chosen (by rw [hends]; exact Option.some_ne_none _)
    · rcases h.tops with htop | ⟨-, h3⟩
      · rw [htop]
        exact exists_row_of_chosen hc
      · rw [h3]
        exact exists_row_of_chosen (by rw [ends_source.2]; exact Option.some_ne_none _)
  obtain ⟨row, hrow⟩ := hrow
  exact Parse.chosen_comment hrow

end Follows

theorem putAll_cons_ne_nil (state : StateId) (ts : List Subtree) (x : Floor) (floors : List Floor) :
    Floor.putAll state ts (x :: floors) ≠ [] := by
  intro hnil
  have htrees := congrArg Floor.trees hnil
  rw [Floor.trees_putAll, Floor.trees_cons] at htrees
  simp [Floor.trees] at htrees

/-- Nothing is put together of nothing, but for a source file. -/
theorem nil_of_reductions {terminal : Symbol} (h : Floor.Reductions terminal floors last) (hl : Floor.Linked floors)
    (htop : Floor.top last ≠ 2) : last = [] ↔ floors = [] := by
  induction h with
  | done => exact Iff.rfl
  | @step floors next last symbol count production hc hr hrest ih =>
    have hreduces : Reduces (Floor.top floors) symbol count production := .of_mem (mem_of_chosen hc)
    obtain ⟨hle, hrhs, -⟩ := hl.frames_linked.reduction (hl.stateOf_frames.symm ▸ hreduces)
    have hreduced := hl.reduced hc hr
    rw [ih hreduced.linked htop]
    constructor
    · rintro rfl
      obtain ⟨taken, -, hnil⟩ := Option.map_eq_some_iff.mp hr
      exact absurd hnil (putAll_cons_ne_nil _ _ _ _)
    · rintro rfl
      have hnil : [] ∈ rightSides symbol := by simpa [Floor.frames] using hrhs
      exact absurd ((rightSides_items symbol).1 hnil) (hreduced.ne_source hrest htop)

theorem Beyond.reductions {terminal : Symbol} {t t' : Subtree} {last' : List Floor}
    (hb : Beyond e floors floors' t t') (hl : Floor.Linked floors) (hl' : Floor.Linked floors')
    (hr : Floor.Reductions terminal floors last) (hr' : Floor.Reductions terminal floors' last')
    (htop : Floor.top last ≠ 2) : Beyond e last last' t t' := by
  have hnil := nil_of_reductions hr hl htop
  rw [Beyond, hnil, hr'.reach_eq hl']
  rcases hb with ⟨hne, rfl⟩ | hfirst
  · exact .inl ⟨fun h => hne (hnil.mp h), rfl⟩
  · exact .inr hfirst

/-! ## Reading the second source -/

namespace Follows

/-- **What is read of the second source alone is read of it behind the first one**, too. -/
theorem reads (h : Follows e nodes prior floors floors') (hs : Seam chars chars' e blank prior)
    (hp : Prior nodes prior items) (ha : Floor.Arrives chars floors) (ha' : Floor.Arrives chars' floors')
    (hr : Floor.Reads chars floors next) (hc : Floor.Completes chars last next) :
    ∃ next', Floor.Reads chars' floors' next' ∧ Follows e nodes prior next next' := by
  have hwhole : Floor.Completes chars last floors := .read hr hc
  obtain ⟨p, hpiece, -⟩ := hwhole.exists_piece
  obtain ⟨hsymbol, hbeyond⟩ := h.tokens hs ha hpiece
  have halive := hwhole.alive
  obtain ⟨mid, hred, hshift⟩ := hr
  have hspec := hshift.symbol_spec
  show ∃ next', (∃ mid', Floor.Reductions (Floor.next chars' floors').symbol floors' mid' ∧
    Floor.Shifts (Floor.next chars' floors') mid' next') ∧ _
  generalize Floor.next chars floors = token at hsymbol hbeyond halive hred hshift hspec
  generalize Floor.next chars' floors' = token' at hsymbol hbeyond
  cases hshift with
  | extra hextra =>
    have hcomment := comment_of_shiftExtra (mem_of_chosen hextra)
    -- Nothing is put together before a comment.
    obtain rfl : mid = floors := by
      cases hred with
      | done => rfl
      | step hstep =>
        rw [hcomment] at hstep
        cases action_of_comment hstep
    have hextra' : chosen (actionsAt (Floor.top floors') token'.symbol) = some .shiftExtra := by
      rw [hsymbol, hcomment]
      exact h.chosen_comment hp (hcomment ▸ halive)
    refine ⟨_, ⟨floors', .done, .extra hextra'⟩, ?_⟩
    rcases h with h | ⟨hne, h⟩
    · exact .inl (h.extra (hbeyond true) (by simp) (by simp))
    · rcases hbeyond true with ⟨-, heq⟩ | ⟨hnil, -⟩
      · rw [heq]
        exact .inr ⟨List.cons_ne_nil _ _, h.extra hne (by simp)⟩
      · exact absurd hnil hne
  | @tree target hshift =>
    have htop : Floor.top mid ≠ 2 := by
      intro htwo
      rcases chosen_source (htwo ▸ hshift) with haccept | hextra
      · cases haccept
      · cases hextra
    have hcomment : token.symbol ≠ .comment := by
      intro hcomment
      rw [hcomment] at hshift
      cases action_of_comment hshift
    obtain ⟨mid', hred', hmid⟩ := h.reductions hp ha.linked ha'.linked hcomment hred htop
      (by rw [hshift]; exact Option.some_ne_none _)
    have harrow := arrow_of_chosen hshift
    have h3 : target ≠ 3 := by
      rintro rfl
      have hitems := (items_of_arrow harrow).1 rfl
      rw [hitems] at hspec
      cases hspec.1
    have hshift' : chosen (actionsAt (Floor.top mid') token'.symbol) = some (.shift target) := by
      rw [hsymbol, hmid.chosen_eq hspec.2]
      exact hshift
    refine ⟨_, ⟨mid', hsymbol.symm ▸ hred', .tree hshift'⟩, .inr ⟨List.cons_ne_nil _ _, ?_⟩⟩
    exact hmid.tree ((hbeyond false).reductions ha.linked ha'.linked hred hred' htop) (by simp)
      (Nat.ne_of_gt (target_of_arrow harrow).1) h3

/-- **A source that is read up to its end is read up to its end behind another one.** -/
theorem completes (h : Follows e nodes prior floors floors') (hs : Seam chars chars' e blank prior)
    (hp : Prior nodes prior items) (ha : Floor.Arrives chars floors) (ha' : Floor.Arrives chars' floors')
    (hc : Floor.Completes chars last floors) : ∃ mid mid' last', Wraps mid last ∧ Wraps mid' last' ∧
      Joined e nodes mid mid' ∧ Floor.Completes chars' last' floors' := by
  induction hc generalizing floors' with
  | @done floors hr haccept =>
    have hwhole : Floor.Completes chars last floors := .done hr haccept
    obtain ⟨p, hpiece, -⟩ := hwhole.exists_piece
    have hsymbol := (h.tokens hs ha hpiece).symbol_eq
    obtain ⟨htwo, hend⟩ := accept_of_chosen haccept
    rw [hend] at hr hsymbol
    obtain ⟨mid, hmid, hne, hwraps⟩ := exists_wraps ha.linked hr (top_ne_two ha) htwo
    have halive : chosen (actionsAt (Floor.top mid) .endOfInput) ≠ none := by
      obtain ⟨count, production, hchosen, -⟩ := hwraps.reduced
      rw [hchosen]
      exact Option.some_ne_none _
    obtain ⟨mid', hmid', hjoined⟩ := h.reductions hp ha.linked ha'.linked (by decide) hmid hne halive
    obtain ⟨last', hwraps', htwo'⟩ := hjoined.wraps hwraps
    obtain ⟨count, production, hchosen, hreduce, -⟩ := hwraps'.reduced
    refine ⟨mid, mid', last', hwraps, hwraps', hjoined, .done ?_ ?_⟩
    · rw [hsymbol]
      exact hmid'.trans (.step hchosen hreduce .done)
    · rw [hsymbol, htwo']
      exact accepts_sourceFile
  | @read floors next hr hc ih =>
    obtain ⟨next', hr', hnext⟩ := h.reads hs hp ha ha' hr hc
    obtain ⟨mid, mid', last', hwraps, hwraps', hjoined, hcompletes⟩ := ih hnext (ha.read hr) (ha'.read hr')
    exact ⟨mid, mid', last', hwraps, hwraps', hjoined, .read hr' hcompletes⟩

end Follows

/-! ## Reading the first source -/

/-- No token crosses the end of the text. -/
theorem parted_at_end {a : List Char} : Floor.Parted a last (byteLength a) '\n' := by
  have hle : ∀ {floors floors' : List Floor} {p : Piece}, Floor.Step a last floors floors' p →
      (Floor.reach floors').bytes ≤ byteLength a := by
    intro floors floors' p h
    obtain ⟨read, hread, hreach⟩ := h.arrives_next.exists_before
    rw [hreach, Extent.bytes_of, hread, byteLength_append]
    exact Nat.le_add_right ..
  exact ⟨fun h => .inl (hle h), fun h _ => .inl (hle h), fun hc => absurd hc (by decide)⟩

/-- **The first source is read behind its own end as it is alone**, but for the blanks at its end. -/
theorem exists_prior {a : List Char} {before : List Floor} (h : Floor.Ends a before last) (b : List Char) :
    ∃ prior items blank, Prior (Node.parse a).children prior items ∧
      Seam b (a ++ '\n' :: b) (Extent.of (a ++ ['\n'])) blank prior ∧ Floor.Arrives (a ++ '\n' :: b) prior := by
  have hnil : a ++ [] = a := List.append_nil a
  have hwhole : Floor.Completes (a ++ []) last [] := hnil.symm ▸ h.completes
  obtain ⟨prior, hc, ha, ha', -, -, hbehind⟩ := hwhole.until_cut (Z := b) (c := '\n') .start .start
    (Floor.beside_start _ _) (hnil.symm ▸ parted_at_end) (by decide) (Nat.zero_le _)
  rw [hnil] at hc ha hbehind
  obtain ⟨p, hp, hnext⟩ := hc.exists_piece
  obtain ⟨read, hread, hreach⟩ := ha.exists_before
  have hbytes := hbehind p hp
  rw [hreach, Extent.bytes_of] at hbytes
  cases hc with
  | @read _ next hr hc =>
    -- A word would stand behind the end of the text.
    have hlength := congrArg byteLength hread
    have hword := byteLength_pos (hr.word_ne_nil hp)
    rw [hr.restOf_piece ha hp, Piece.text, byteLength_append, byteLength_append, byteLength_append] at hlength
    omega
  | done hr haccept =>
    obtain ⟨htwo, hend⟩ := accept_of_chosen haccept
    have hsymbol : p.token.symbol = .endOfInput := by
      rw [hnext] at hend
      exact hend
    obtain ⟨hword, hlength⟩ := ha.end_of_piece hp hsymbol
    have hrest : Floor.restOf a prior = p.blank := by
      obtain ⟨post, hpost⟩ := exists_post_of_pieceAt hp
      rw [hword, List.nil_append] at hpost
      have hwhole := congrArg byteLength hread
      rw [hpost, byteLength_append, byteLength_append, ← hlength, hreach, Extent.bytes_of] at hwhole
      have hnone : post = [] := by
        by_contra hne
        have hpos := byteLength_pos hne
        omega
      rw [hpost, hnone, List.append_nil]
    rw [hrest] at hread
    have hends : Floor.Ends a prior last := ⟨ha, hr, haccept⟩
    rw [hend] at hr
    obtain ⟨items, hitems, -, hwraps⟩ := exists_wraps ha.linked hr (top_ne_two ha) htwo
    have hchosen : ∃ symbol count production,
        chosen (actionsAt (Floor.top prior) .endOfInput) = some (.reduce symbol count production) := by
      cases hitems with
      | done =>
        obtain ⟨count, production, hchosen, -⟩ := hwraps.reduced
        exact ⟨_, count, production, hchosen⟩
      | step hchosen => exact ⟨_, _, _, hchosen⟩
    obtain ⟨symbol, count, production, hreduce⟩ := hchosen
    obtain ⟨hstart, hdoc⟩ := lexStart_of_end hreduce
    refine ⟨prior, items, p.blank ++ ['\n'], ?_, ?_, ha'⟩
    · exact ⟨ha.linked, hitems, hwraps.ground, (children_parse hends hwraps).symm, symbol, count, production, hreduce⟩
    · have hsplit : a ++ '\n' :: b = read ++ (p.blank ++ ['\n'] ++ b) := by
        rw [List.append_assoc, ← List.append_assoc, ← hread, List.singleton_append]
      refine ⟨?_, ?_, fun c hmem => ?_, ⟨hstart, hdoc⟩, a ++ ['\n'], by simp, rfl⟩
      · rw [hreach, ← Extent.of_append, ← List.append_assoc, ← hread]
      · rw [hsplit]
        exact Floor.restOf_append hreach
      · rcases List.mem_append.mp hmem with hmem | hmem
        · rw [← hstart]
          exact skips_of_pieceAt hdoc hp c hmem
        · rw [List.mem_singleton.mp hmem]
          exact lexed_alike.2.2.2.2

/-- **Two sources in a row**: if both are read up to their ends, the second one is behind the first one, too, and
its nodes come behind those of the first one. -/
theorem exists_concatenated {a b : List Char} {beforeA beforeB lastA lastB : List Floor}
    (ha : Floor.Ends a beforeA lastA) (hb : Floor.Ends b beforeB lastB) :
    (∃ before last, Floor.Ends (a ++ '\n' :: b) before last) ∧ (Node.parse (a ++ '\n' :: b)).children =
      (Node.parse a).children ++ Node.movedAll (Extent.of (a ++ ['\n'])) (Node.parse b).children := by
  obtain ⟨prior, items, blank, hprior, hseam, harrives⟩ := exists_prior ha b
  have hstart : Follows (Extent.of (a ++ ['\n'])) (Node.parse a).children prior [] prior := .inl (begun_start _ _)
  obtain ⟨mid, mid', last', hwraps, hwraps', hjoined, hcompletes⟩ :=
    hstart.completes hseam hprior .start harrives hb.completes
  obtain ⟨before, hends⟩ := hcompletes.exists_ends harrives
  refine ⟨⟨before, last', hends⟩, ?_⟩
  rw [children_parse hends hwraps', children_parse hb hwraps, hjoined.shown]

end Cicode.Tree
