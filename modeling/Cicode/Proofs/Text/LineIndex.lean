import Cicode.Proofs.Text.Extent

/-!
# Looking up lines and columns

A place of a text is given by what comes before it: some whole lines and the beginning of its own line
(`LineAt`).  The halving finds the number of the line starts up to the place (`partitionPoint_eq`), which
is the number of whole lines, so that the line found begins behind them (`lineStarts_behind`) and what is
cut out is the beginning of the line.  Hence both conversions are known at every place
(`findLineCol_behind`, `findOffset_behind`), and they never fail.

Main statement (`LineIndex.conversions`): every offset has a line and column, from which the greatest
boundary up to the offset is found again; every column of every line leads back to itself unless the line
is shorter; there are no other lines; and the order of places is that of lines and columns.
-/

namespace Cicode.Text

/-! ## Cutting a text -/

theorem splitAtByte?_behind (pre post : List Char) :
    splitAtByte? (pre ++ post) (byteLength pre) = some (pre, post) := by
  induction pre with
  | nil =>
    rw [List.nil_append, byteLength_nil]
    cases post <;> rfl
  | cons c pre ih =>
    have hpos := Char.utf8Size_pos c
    rw [List.cons_append, byteLength_cons]
    obtain ⟨n, hn⟩ := Nat.exists_eq_succ_of_ne_zero (show c.utf8Size + byteLength pre ≠ 0 by omega)
    rw [hn, splitAtByte?, if_pos (by omega), show n + 1 - c.utf8Size = byteLength pre by omega, ih]
    rfl

theorem eq_append_of_splitAtByte? {chars pre post : List Char} {offset : Nat}
    (h : splitAtByte? chars offset = some (pre, post)) :
    chars = pre ++ post ∧ byteLength pre = offset := by
  induction chars generalizing pre offset with
  | nil =>
    cases offset with
    | zero => cases h; exact ⟨rfl, rfl⟩
    | succ n => cases h
  | cons c rest ih =>
    cases offset with
    | zero => cases h; exact ⟨rfl, rfl⟩
    | succ n =>
      rw [splitAtByte?] at h
      by_cases hc : c.utf8Size ≤ n + 1
      · rw [if_pos hc, Option.map_eq_some_iff] at h
        obtain ⟨⟨before, after⟩, hsplit, heq⟩ := h
        cases heq
        obtain ⟨rfl, hbytes⟩ := ih hsplit
        refine ⟨rfl, ?_⟩
        rw [byteLength_cons]
        omega
      · rw [if_neg hc] at h
        cases h

theorem isSome_splitAtByte?_iff (chars : List Char) (offset : Nat) :
    (splitAtByte? chars offset).isSome ↔ IsBoundary chars offset := by
  constructor
  · intro h
    obtain ⟨⟨pre, post⟩, hsplit⟩ := Option.isSome_iff_exists.mp h
    exact ⟨pre, post, eq_append_of_splitAtByte? hsplit⟩
  · rintro ⟨pre, post, rfl, rfl⟩
    rw [splitAtByte?_behind]
    rfl

/-- Stepping back from an offset finds the greatest boundary up to it. -/
theorem isGreatest_boundaryBelow (chars : List Char) (offset : Nat) :
    IsGreatest {b | IsBoundary chars b ∧ b ≤ offset} (boundaryBelow chars offset) := by
  induction offset with
  | zero => exact ⟨⟨.zero chars, Nat.le_refl 0⟩, fun b hb => hb.2⟩
  | succ n ih =>
    rw [boundaryBelow]
    by_cases h : (splitAtByte? chars (n + 1)).isSome = true
    · rw [if_pos h]
      exact ⟨⟨(isSome_splitAtByte?_iff _ _).mp h, Nat.le_refl _⟩, fun b hb => hb.2⟩
    · rw [if_neg h]
      refine ⟨⟨ih.1.1, Nat.le_succ_of_le ih.1.2⟩, ?_⟩
      rintro b ⟨hb, hle⟩
      have hne : b ≠ n + 1 := fun heq => h ((isSome_splitAtByte?_iff _ _).mpr (heq ▸ hb))
      exact ih.2 ⟨hb, by omega⟩

/-- At a boundary there is nothing to step back. -/
theorem boundaryBelow_behind (pre post : List Char) :
    boundaryBelow (pre ++ post) (min (byteLength pre) (byteLength (pre ++ post))) = byteLength pre := by
  have hmin : min (byteLength pre) (byteLength (pre ++ post)) = byteLength pre := by
    rw [byteLength_append]
    omega
  rw [hmin]
  refine (isGreatest_boundaryBelow _ _).unique ⟨⟨⟨pre, post, rfl, rfl⟩, Nat.le_refl _⟩, ?_⟩
  exact fun b hb => hb.2

theorem cut_between (a b c : List Char) :
    cut (a ++ b ++ c) (byteLength a) (byteLength (a ++ b)) = .ok b := by
  rw [cut, splitAtByte?_behind]
  dsimp only
  rw [splitAtByte?_behind]

/-! ## The halving -/

/-- The halving finds the place up to which the numbers are at most the bound. -/
theorem partitionPoint_eq {numbers : Array Nat} {bound point : Nat}
    (hlow : ∀ (i : Nat) (hi : i < numbers.size), i < point → numbers[i] ≤ bound)
    (hhigh : ∀ (i : Nat) (hi : i < numbers.size), point ≤ i → bound < numbers[i])
    (low high : Nat) (h : high ≤ numbers.size) (hpoint : low ≤ point ∧ point ≤ high) :
    partitionPoint numbers bound low high h = point := by
  induction low, high, h using partitionPoint.induct numbers bound with
  | case1 low high h hlt hmiddle hle ih =>
    rw [partitionPoint, dif_pos hlt]
    dsimp only
    rw [if_pos hle]
    refine ih ⟨?_, hpoint.2⟩
    -- The middle is not yet beyond the point.
    by_contra hnot
    have := hhigh ((low + high) / 2) (by omega) (by omega)
    omega
  | case2 low high h hlt hmiddle hgt ih =>
    rw [partitionPoint, dif_pos hlt]
    dsimp only
    rw [if_neg hgt]
    refine ih ⟨hpoint.1, ?_⟩
    by_contra hnot
    exact hgt (hlow ((low + high) / 2) (by omega) (by omega))
  | case3 low high h hge =>
    rw [partitionPoint, dif_neg hge]
    omega

namespace LineIndex

/-! ## The beginnings of lines -/

theorem startsFrom_append (start : Nat) (pre post : List Char) : startsFrom start (pre ++ post) =
    startsFrom start pre ++ startsFrom (start + byteLength pre) post := by
  induction pre generalizing start with
  | nil => rfl
  | cons c pre ih =>
    rw [List.cons_append, startsFrom, startsFrom, byteLength_cons]
    by_cases hc : c = '\n'
    · have hsize : c.utf8Size = 1 := by
        rw [hc]
        rfl
      rw [if_pos hc, if_pos hc, ih, List.cons_append, hsize, Nat.add_assoc]
    · rw [if_neg hc, if_neg hc, ih, Nat.add_assoc]

theorem length_startsFrom (start : Nat) (chars : List Char) :
    (startsFrom start chars).length = chars.count '\n' := by
  induction chars generalizing start with
  | nil => rfl
  | cons c rest ih =>
    rw [startsFrom]
    by_cases hc : c = '\n'
    · rw [if_pos hc, List.length_cons, ih, hc, List.count_cons_self]
    · rw [if_neg hc, ih, List.count_cons_of_ne hc]

/-- Lines begin behind the offset where the text begins, and not behind its end. -/
theorem mem_startsFrom {start b : Nat} {chars : List Char} (h : b ∈ startsFrom start chars) :
    start < b ∧ b ≤ start + byteLength chars := by
  induction chars generalizing start with
  | nil => cases h
  | cons c rest ih =>
    have hpos := Char.utf8Size_pos c
    rw [startsFrom] at h
    rw [byteLength_cons]
    by_cases hc : c = '\n'
    · have hsize : c.utf8Size = 1 := by
        rw [hc]
        rfl
      rw [if_pos hc] at h
      rcases List.mem_cons.mp h with rfl | h
      · omega
      · have := ih h
        omega
    · rw [if_neg hc] at h
      have := ih h
      omega

@[simp] theorem lineStarts_ofText (chars : List Char) :
    (ofText chars).lineStarts = (0 :: startsFrom 0 chars).toArray := rfl

@[simp] theorem source_ofText (chars : List Char) : (ofText chars).source = chars := rfl

theorem lineCount_ofText (chars : List Char) : (ofText chars).lineCount = chars.count '\n' + 1 := by
  rw [lineCount, lineStarts_ofText, List.size_toArray, List.length_cons, length_startsFrom]

/-- The line starts up to a place are those of the line feeds before it, and the first. -/
theorem partitionPoint_behind (pre post : List Char) :
    partitionPoint (ofText (pre ++ post)).lineStarts (byteLength pre) 0
      (ofText (pre ++ post)).lineStarts.size (Nat.le_refl _) = pre.count '\n' + 1 := by
  have hstarts : 0 :: startsFrom 0 (pre ++ post) =
      (0 :: startsFrom 0 pre) ++ startsFrom (byteLength pre) post := by
    rw [startsFrom_append, Nat.zero_add, List.cons_append]
  have hlength : (0 :: startsFrom 0 pre).length = pre.count '\n' + 1 := by
    rw [List.length_cons, length_startsFrom]
  refine partitionPoint_eq ?_ ?_ _ _ _ ⟨Nat.zero_le _, ?_⟩
  · intro i hi hlt
    simp only [lineStarts_ofText, hstarts, List.getElem_toArray]
    rw [List.getElem_append_left (by omega)]
    have hin : i < (0 :: startsFrom 0 pre).length := by omega
    rcases List.mem_cons.mp (List.getElem_mem hin) with hzero | hmem
    · omega
    · have := mem_startsFrom hmem
      omega
  · intro i hi hge
    simp only [lineStarts_ofText, hstarts, List.getElem_toArray]
    rw [List.getElem_append_right (by omega)]
    exact (mem_startsFrom (List.getElem_mem _)).1
  · have hcount := lineCount_ofText (pre ++ post)
    rw [lineCount, List.count_append] at hcount
    omega

/-- Behind whole lines a line begins. -/
theorem lineStarts_behind (whole rest : List Char)
    (h : whole = [] ∨ whole.getLast? = some '\n') :
    (ofText (whole ++ rest)).lineStarts[whole.count '\n']? = some (byteLength whole) := by
  rw [lineStarts_ofText, List.getElem?_toArray]
  rcases h with rfl | h
  · rfl
  · obtain ⟨before, rfl⟩ := List.getLast?_eq_some_iff.mp h
    have hstarts : startsFrom 0 (before ++ ['\n'] ++ rest) =
        startsFrom 0 before ++ (byteLength before + 1) ::
          startsFrom (byteLength (before ++ ['\n'])) rest := by
      rw [startsFrom_append, startsFrom_append, List.append_assoc, Nat.zero_add, Nat.zero_add]
      rfl
    rw [hstarts, List.count_append, List.count_singleton_self, List.getElem?_cons_succ,
      List.getElem?_append_right (by rw [length_startsFrom]), length_startsFrom, Nat.sub_self,
      List.getElem?_cons_zero, byteLength_append]
    rfl

/-! ## Both conversions at a place -/

/-- The line and column of the place behind whole lines and the beginning of a line. -/
theorem findLineCol_behind {whole line : List Char} (post : List Char)
    (hwhole : whole = [] ∨ whole.getLast? = some '\n') (hline : '\n' ∉ line) :
    (ofText (whole ++ line ++ post)).findLineCol (byteLength (whole ++ line)) =
      .ok (whole.count '\n', line.length) := by
  have hpoint : partitionPoint (ofText (whole ++ line ++ post)).lineStarts (byteLength (whole ++ line)) 0
      (ofText (whole ++ line ++ post)).lineStarts.size (Nat.le_refl _) - 1 = whole.count '\n' := by
    rw [partitionPoint_behind, Nat.add_sub_cancel, List.count_append,
      List.count_eq_zero_of_not_mem hline, Nat.add_zero]
  have hstart := lineStarts_behind whole (line ++ post) hwhole
  rw [← List.append_assoc] at hstart
  rw [findLineCol, source_ofText, boundaryBelow_behind]
  simp only [hpoint, hstart, cut_between]
  rfl

end LineIndex

/-- A line of a text: whole lines come before it, and a line feed or nothing comes after it. -/
structure LineAt (chars whole line post : List Char) : Prop where
  parts : chars = whole ++ line ++ post
  whole : whole = [] ∨ whole.getLast? = some '\n'
  line : '\n' ∉ line
  post : post = [] ∨ post.head? = some '\n'

theorem nthOffset?_getD (chars : List Char) (n : Nat) :
    (nthOffset? chars n).getD (byteLength chars) = byteLength (chars.take n) := by
  induction chars generalizing n with
  | nil => rw [nthOffset?, List.take_nil, Option.getD_none]
  | cons c rest ih =>
    cases n with
    | zero => rfl
    | succ n =>
      rw [nthOffset?, List.take_succ_cons, byteLength_cons, byteLength_cons, ← ih]
      cases nthOffset? rest n <;> rfl

theorem trimLineFeeds_append {line : List Char} (h : '\n' ∉ line) (post : List Char)
    (hpost : ∀ c ∈ post, c = '\n') : trimLineFeeds (line ++ post) = line := by
  have hdrop : post.reverse.dropWhile (· == '\n') = [] := by
    rw [List.dropWhile_eq_nil_iff]
    intro c hc
    rw [hpost c (List.mem_reverse.mp hc), beq_self_eq_true]
  have hkeep : line.reverse.dropWhile (· == '\n') = line.reverse := by
    rw [List.dropWhile_eq_self_iff]
    intro hne heq
    have hmem := List.mem_reverse.mp (List.getElem_mem hne)
    exact h (eq_of_beq heq ▸ hmem)
  rw [trimLineFeeds, List.reverse_append, List.dropWhile_append, hdrop, List.isEmpty_nil, if_pos rfl,
    hkeep, List.reverse_reverse]

namespace LineIndex

/-- The text of a line that begins behind whole lines. -/
theorem lineText_behind {chars whole line post : List Char} (h : LineAt chars whole line post) :
    (ofText chars).lineText (whole.count '\n') (byteLength whole) = .ok line := by
  obtain ⟨rfl, hwhole, hline, hpost⟩ := h
  rw [lineText, source_ofText]
  rcases hpost with rfl | hpost
  · -- The last line goes up to the end of the text.
    have hnone : (ofText (whole ++ line ++ [])).lineStarts[whole.count '\n' + 1]? = none := by
      rw [Array.getElem?_eq_none_iff, ← lineCount, lineCount_ofText, List.append_nil, List.count_append,
        List.count_eq_zero_of_not_mem hline]
    have hcut := cut_between whole line []
    rw [List.append_nil] at hcut hnone ⊢
    simp only [hnone, Option.getD_none, hcut]
    have htrim := trimLineFeeds_append hline [] (by simp)
    rw [List.append_nil] at htrim
    exact congrArg Except.ok htrim
  · -- The next line begins behind the line feed.
    obtain ⟨rest, rfl⟩ : ∃ rest, post = '\n' :: rest := by
      cases post with
      | nil => cases hpost
      | cons c rest =>
        rw [List.head?_cons, Option.some_inj] at hpost
        exact ⟨rest, by rw [hpost]⟩
    have hparts : whole ++ line ++ '\n' :: rest = whole ++ (line ++ ['\n']) ++ rest := by simp
    have hnext := lineStarts_behind (whole ++ (line ++ ['\n'])) rest (.inr (by simp))
    rw [List.count_append, List.count_append, List.count_eq_zero_of_not_mem hline,
      List.count_singleton_self, Nat.zero_add] at hnext
    rw [hparts]
    simp only [hnext, Option.getD_some, cut_between]
    exact congrArg Except.ok (trimLineFeeds_append hline ['\n'] (by simp))

/-- The offset of a column in a line. -/
theorem findOffset_behind {chars whole line post : List Char} (h : LineAt chars whole line post)
    (column : Nat) : (ofText chars).findOffset (whole.count '\n') column =
      .ok (some (byteLength (whole ++ line.take column))) := by
  have hstart : (ofText chars).lineStarts[whole.count '\n']? = some (byteLength whole) := by
    rw [h.parts, List.append_assoc]
    exact lineStarts_behind _ _ h.whole
  unfold findOffset
  simp only [hstart, lineText_behind h]
  rw [byteLength_append, ← nthOffset?_getD]
  rfl

end LineIndex

/-! ## The lines of a text -/

/-- A text ends with the beginning of a line. -/
theorem exists_line (chars : List Char) : ∃ whole line, chars = whole ++ line ∧
    (whole = [] ∨ whole.getLast? = some '\n') ∧ '\n' ∉ line := by
  induction chars using List.reverseRecOn with
  | nil => exact ⟨[], [], rfl, .inl rfl, List.not_mem_nil⟩
  | append_singleton chars c ih =>
    by_cases hc : c = '\n'
    · exact ⟨chars ++ [c], [], by simp, .inr (by simp [hc]), List.not_mem_nil⟩
    · obtain ⟨whole, line, rfl, hwhole, hline⟩ := ih
      refine ⟨whole, line ++ [c], by simp, hwhole, ?_⟩
      rw [List.mem_append, List.mem_singleton, not_or]
      exact ⟨hline, Ne.symm hc⟩

/-- Every place of a text is in a line. -/
theorem exists_lineAt {pre whole before : List Char} (post : List Char) (hpre : pre = whole ++ before)
    (hwhole : whole = [] ∨ whole.getLast? = some '\n') (hbefore : '\n' ∉ before) :
    ∃ behind rest, LineAt (pre ++ post) whole (before ++ behind) rest := by
  refine ⟨post.takeWhile (· != '\n'), post.dropWhile (· != '\n'), ?_, hwhole, ?_, ?_⟩
  · rw [hpre, List.append_assoc, List.append_assoc, List.append_assoc, List.takeWhile_append_dropWhile]
  · rw [List.mem_append, not_or]
    refine ⟨hbefore, fun hmem => ?_⟩
    have hne := List.mem_takeWhile_imp hmem
    rw [bne_self_eq_false] at hne
    cases hne
  · by_cases hnil : post.dropWhile (· != '\n') = []
    · exact .inl hnil
    · refine .inr ?_
      have hhead := @List.head_dropWhile_not _ (· != '\n') post hnil
      rw [List.head?_eq_some_head hnil, Option.some_inj]
      simpa using hhead

/-- Every number below the number of lines is that of a line. -/
theorem exists_nth_line (chars : List Char) (n : Nat) (h : n ≤ chars.count '\n') :
    ∃ whole line post, LineAt chars whole line post ∧ whole.count '\n' = n ∧
      (splitLines chars)[n]? = some line := by
  induction chars generalizing n with
  | nil =>
    obtain rfl : n = 0 := Nat.le_zero.mp h
    exact ⟨[], [], [], ⟨rfl, .inl rfl, List.not_mem_nil, .inl rfl⟩, rfl, rfl⟩
  | cons c rest ih =>
    rw [splitLines]
    by_cases hc : c = '\n'
    · rw [if_pos hc]
      subst hc
      cases n with
      | zero =>
        exact ⟨[], [], '\n' :: rest, ⟨rfl, .inl rfl, List.not_mem_nil, .inr rfl⟩, rfl, rfl⟩
      | succ n =>
        rw [List.count_cons_self] at h
        obtain ⟨whole, line, post, hat, hcount, hline⟩ := ih n (by omega)
        refine ⟨'\n' :: whole, line, post, ⟨?_, .inr ?_, hat.line, hat.post⟩, ?_, hline⟩
        · rw [hat.parts, List.cons_append, List.cons_append]
        · rcases hat.whole with rfl | hlast
          · rfl
          · rw [List.getLast?_cons, hlast, Option.getD_some]
        · rw [List.count_cons_self, hcount]
    · rw [if_neg hc]
      rw [List.count_cons_of_ne hc] at h
      obtain ⟨whole, line, post, hat, hcount, hline⟩ := ih n h
      rcases hat.whole with rfl | hlast
      · -- The character belongs to the first line.
        refine ⟨[], c :: line, post, ⟨?_, .inl rfl, ?_, hat.post⟩, hcount, ?_⟩
        · rw [hat.parts, List.nil_append, List.nil_append, List.cons_append]
        · rw [List.mem_cons, not_or]
          exact ⟨Ne.symm hc, hat.line⟩
        · obtain rfl : 0 = n := hcount
          cases hsplit : splitLines rest with
          | nil =>
            rw [hsplit] at hline
            cases hline
          | cons first lines =>
            rw [hsplit, List.getElem?_cons_zero, Option.some_inj] at hline
            rw [consHead, hline]
            rfl
      · refine ⟨c :: whole, line, post, ⟨?_, .inr ?_, hat.line, hat.post⟩, ?_, ?_⟩
        · rw [hat.parts, List.cons_append, List.cons_append]
        · rw [List.getLast?_cons, hlast, Option.getD_some]
        · rw [List.count_cons_of_ne hc, hcount]
        · obtain ⟨m, rfl⟩ : ∃ m, n = m + 1 := by
            obtain ⟨before, rfl⟩ := List.getLast?_eq_some_iff.mp hlast
            rw [List.count_append, List.count_singleton_self] at hcount
            exact ⟨_, hcount.symm⟩
          cases hsplit : splitLines rest with
          | nil =>
            rw [hsplit] at hline
            cases hline
          | cons first lines =>
            rw [hsplit, List.getElem?_cons_succ] at hline
            rw [consHead, List.getElem?_cons_succ, hline]

/-- The whole lines before a place are determined by the place. -/
theorem eq_of_whole {a b x y : List Char} (ha : a = [] ∨ a.getLast? = some '\n')
    (hb : b = [] ∨ b.getLast? = some '\n') (hx : '\n' ∉ x) (hy : '\n' ∉ y) (h : a ++ x = b ++ y) :
    a = b ∧ x = y := by
  -- What one of them has more would end with a line feed of the other's line.
  have hmore {a b c y : List Char} (ha : a = [] ∨ a.getLast? = some '\n') (hy : '\n' ∉ y)
      (heq : a = b ++ c) (hsuffix : ∀ d ∈ c, d ∈ y) : c = [] := by
    by_contra hne
    rw [heq] at ha
    rcases ha with hnil | hlast
    · exact hne (List.append_eq_nil_iff.mp hnil).2
    · rw [List.getLast?_append_of_ne_nil _ hne] at hlast
      exact hy (hsuffix _ (List.mem_of_getLast? hlast))
  rcases List.append_eq_append_iff.mp h with ⟨c, hc, hxc⟩ | ⟨c, hc, hyc⟩
  · have hnil := hmore hb hx hc (fun d hd => hxc ▸ List.mem_append_left _ hd)
    rw [hnil, List.append_nil] at hc
    rw [hnil, List.nil_append] at hxc
    exact ⟨hc.symm, hxc⟩
  · have hnil := hmore ha hy hc (fun d hd => hyc ▸ List.mem_append_left _ hd)
    rw [hnil, List.append_nil] at hc
    rw [hnil, List.nil_append] at hyc
    exact ⟨hc, hyc.symm⟩

namespace LineIndex

/-! ## All offsets -/

/-- An offset has the line and column of the greatest boundary up to it. -/
theorem findLineCol_eq (chars : List Char) (offset : Nat) :
    ∃ whole before post, chars = whole ++ before ++ post ∧ (whole = [] ∨ whole.getLast? = some '\n') ∧
      '\n' ∉ before ∧
      (ofText chars).findLineCol offset = .ok (whole.count '\n', before.length) ∧
      IsGreatest {b | IsBoundary chars b ∧ b ≤ min offset (byteLength chars)}
        (byteLength (whole ++ before)) := by
  have hgreatest := isGreatest_boundaryBelow chars (min offset (byteLength chars))
  obtain ⟨pre, post, rfl, hbytes⟩ := hgreatest.1.1
  obtain ⟨whole, before, rfl, hwhole, hbefore⟩ := exists_line pre
  refine ⟨whole, before, post, rfl, hwhole, hbefore, ?_, hbytes ▸ hgreatest⟩
  rw [← findLineCol_behind post hwhole hbefore]
  unfold findLineCol
  rw [source_ofText, ← hbytes, boundaryBelow_behind]

/-- A place further on has a greater line, or the same line and a greater column. -/
theorem toLex_lt_of_append {whole before whole' before' more : List Char}
    (hwhole : whole = [] ∨ whole.getLast? = some '\n') (hbefore : '\n' ∉ before)
    (hwhole' : whole' = [] ∨ whole'.getLast? = some '\n') (hbefore' : '\n' ∉ before')
    (h : whole' ++ before' = whole ++ before ++ more) (hmore : more ≠ []) :
    toLex (whole.count '\n', before.length) < toLex (whole'.count '\n', before'.length) := by
  have hcount := congrArg (List.count '\n') h
  simp only [List.count_append, List.count_eq_zero_of_not_mem hbefore,
    List.count_eq_zero_of_not_mem hbefore', Nat.add_zero] at hcount
  have hpos : 0 < more.length := List.length_pos_iff.mpr hmore
  rw [Prod.Lex.toLex_lt_toLex]
  by_cases hfeed : '\n' ∈ more
  · left
    have := List.count_pos_iff.mpr hfeed
    dsimp only
    omega
  · right
    -- Both places are behind the same whole lines.
    rw [List.append_assoc] at h
    obtain ⟨rfl, rfl⟩ := eq_of_whole hwhole' hwhole hbefore'
      (by rw [List.mem_append, not_or]; exact ⟨hbefore, hfeed⟩) h
    refine ⟨rfl, ?_⟩
    rw [List.length_append]
    omega

theorem findLineCol_eq_lineCol (chars : List Char) (offset : Nat) :
    (ofText chars).findLineCol offset = .ok ((ofText chars).lineCol offset) := by
  obtain ⟨whole, before, post, -, -, -, hfind, -⟩ := findLineCol_eq chars offset
  rw [lineCol, hfind]

theorem lineCol_of_find {chars : List Char} {offset : Nat} {place : Nat × Nat}
    (h : (ofText chars).findLineCol offset = .ok place) : (ofText chars).lineCol offset = place := by
  rw [lineCol, h]

/-- From the line and column of an offset the greatest boundary up to it is found again. -/
theorem findOffset_lineCol (chars : List Char) (offset : Nat) :
    ∃ b, (ofText chars).findOffset ((ofText chars).lineCol offset).1 ((ofText chars).lineCol offset).2 =
        .ok (some b) ∧
      IsGreatest {b | IsBoundary chars b ∧ b ≤ min offset (byteLength chars)} b := by
  obtain ⟨whole, before, post, rfl, hwhole, hbefore, hfind, hgreatest⟩ := findLineCol_eq chars offset
  obtain ⟨behind, rest, hat⟩ := exists_lineAt post rfl hwhole hbefore
  refine ⟨_, ?_, hgreatest⟩
  rw [lineCol_of_find hfind]
  show (ofText _).findOffset (whole.count '\n') before.length = _
  rw [findOffset_behind hat, List.take_left]

/-- The column of a line leads back to itself, but not beyond the end of the line. -/
theorem lineCol_findOffset (chars : List Char) {line : Nat} (h : line < (ofText chars).lineCount)
    (column : Nat) : ∃ text offset, (splitLines chars)[line]? = some text ∧
      (ofText chars).findOffset line column = .ok (some offset) ∧
      (ofText chars).lineCol offset = (line, min column text.length) := by
  rw [lineCount_ofText] at h
  obtain ⟨whole, text, post, hat, rfl, htext⟩ := exists_nth_line chars line (by omega)
  refine ⟨text, _, htext, findOffset_behind hat column, lineCol_of_find ?_⟩
  have hparts : chars = whole ++ text.take column ++ (text.drop column ++ post) := by
    rw [hat.parts, List.append_assoc, List.append_assoc, ← List.append_assoc (text.take column),
      List.take_append_drop]
  have hline : '\n' ∉ text.take column := fun hmem => hat.line (List.mem_of_mem_take hmem)
  rw [hparts, findLineCol_behind _ hat.whole hline, List.length_take]

theorem findOffset_beyond (chars : List Char) {line : Nat} (h : (ofText chars).lineCount ≤ line)
    (column : Nat) : (ofText chars).findOffset line column = .ok none := by
  have hnone : (ofText chars).lineStarts[line]? = none := Array.getElem?_eq_none_iff.mpr h
  unfold findOffset
  rw [hnone]

/-- Of two boundaries the further one has the greater line and column. -/
theorem lineCol_lt_of_boundaries {chars : List Char} {a b : Nat} (ha : IsBoundary chars a)
    (hb : IsBoundary chars b) (h : a < b) :
    toLex ((ofText chars).lineCol a) < toLex ((ofText chars).lineCol b) := by
  obtain ⟨pre, post, rfl, rfl⟩ := ha
  obtain ⟨pre', post', hparts, rfl⟩ := hb
  obtain ⟨more, rfl⟩ := prefix_of_byteLength_le hparts (Nat.le_of_lt h)
  obtain ⟨whole, before, rfl, hwhole, hbefore⟩ := exists_line pre
  obtain ⟨whole', before', hpre', hwhole', hbefore'⟩ := exists_line (whole ++ before ++ more)
  have hmore : more ≠ [] := by
    rintro rfl
    rw [List.append_nil] at h
    exact Nat.lt_irrefl _ h
  have hfind' := findLineCol_behind post' hwhole' hbefore'
  rw [← hpre', ← hparts] at hfind'
  rw [lineCol_of_find (findLineCol_behind post hwhole hbefore), lineCol_of_find hfind']
  exact toLex_lt_of_append hwhole hbefore hwhole' hbefore' hpre'.symm hmore

/-- A further offset does not have a smaller line and column. -/
theorem lineCol_le (chars : List Char) {a b : Nat} (h : a ≤ b) :
    toLex ((ofText chars).lineCol a) ≤ toLex ((ofText chars).lineCol b) := by
  have hfloor (offset : Nat) : ∃ c, (ofText chars).lineCol offset = (ofText chars).lineCol c ∧
      IsGreatest {b | IsBoundary chars b ∧ b ≤ min offset (byteLength chars)} c := by
    obtain ⟨whole, before, post, rfl, hwhole, hbefore, hfind, hgreatest⟩ := findLineCol_eq chars offset
    refine ⟨_, ?_, hgreatest⟩
    rw [lineCol_of_find hfind, lineCol_of_find (findLineCol_behind post hwhole hbefore)]
  obtain ⟨c, hc, hcgreatest⟩ := hfloor a
  obtain ⟨d, hd, hdgreatest⟩ := hfloor b
  have hle : c ≤ d := by
    refine hdgreatest.2 ⟨hcgreatest.1.1, ?_⟩
    have := hcgreatest.1.2
    omega
  rw [hc, hd]
  rcases Nat.lt_or_eq_of_le hle with hlt | rfl
  · exact Std.le_of_lt (lineCol_lt_of_boundaries hcgreatest.1.1 hdgreatest.1.1 hlt)
  · exact le_refl _

/-- **Offsets and places in lines correspond.**  The conversions never fail.  Every offset has a line and
column, and from these the greatest boundary up to the offset, or up to the end of the text, is found
again.  Every column of a line leads to an offset that has this line and column, or the end of the line if
the line is shorter, and there are no other lines.  The line and column grow with the offset, and of two
boundaries the further one has a greater line and column. -/
theorem conversions (chars : List Char) :
    (∀ offset, (ofText chars).findLineCol offset = .ok ((ofText chars).lineCol offset) ∧
      ∃ b, (ofText chars).findOffset ((ofText chars).lineCol offset).1
          ((ofText chars).lineCol offset).2 = .ok (some b) ∧
        IsGreatest {b | IsBoundary chars b ∧ b ≤ min offset (byteLength chars)} b) ∧
    (∀ line column, line < (ofText chars).lineCount →
      ∃ text offset, (splitLines chars)[line]? = some text ∧
        (ofText chars).findOffset line column = .ok (some offset) ∧
        (ofText chars).lineCol offset = (line, min column text.length)) ∧
    (∀ line column, (ofText chars).lineCount ≤ line →
      (ofText chars).findOffset line column = .ok none) ∧
    (∀ a b, a ≤ b → toLex ((ofText chars).lineCol a) ≤ toLex ((ofText chars).lineCol b)) ∧
    (∀ a b, IsBoundary chars a → IsBoundary chars b → a < b →
      toLex ((ofText chars).lineCol a) < toLex ((ofText chars).lineCol b)) :=
  ⟨fun offset => ⟨findLineCol_eq_lineCol chars offset, findOffset_lineCol chars offset⟩,
    fun _ column hline => lineCol_findOffset chars hline column,
    fun _ column hline => findOffset_beyond chars hline column,
    fun _ _ hle => lineCol_le chars hle,
    fun _ _ ha hb hlt => lineCol_lt_of_boundaries ha hb hlt⟩

end LineIndex

end Cicode.Text
