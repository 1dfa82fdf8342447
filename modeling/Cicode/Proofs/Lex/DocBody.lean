import Cicode.Lex.DocBody
import Cicode.Proofs.Text.Extent

/-!
# Where the body of a documentation tag ends

The body is read in attempts.  An attempt begins at a `<` and goes on as long as the characters
spell the closing tag; the character that differs is passed over with the rest, even where it is a
`<` itself.  So the body ends at the first closing tag that no attempt has run into
(`scanDocBody_eq_some_iff`), and this is the first one in the text unless an attempt that fails at
its `<` hides it (`scanDocBody_iff_not_hidden`).
-/

namespace Cicode.Lex

open Grammar Text

/-- The closing tag of a documentation tag. -/
def wholeTag (tag : DocTag) : List Char := '<' :: '/' :: closingTag tag

/-- Text that is passed over, with no attempt under way at its end. -/
inductive PassedOver (close : List Char) : List Char → Prop
  | nil : PassedOver close []
  /-- A character that opens no tag. -/
  | other {c : Char} {rest : List Char} : c ≠ '<' → PassedOver close rest → PassedOver close (c :: rest)
  /-- An attempt, and the character at which it fails. -/
  | attempt {begun rest : List Char} {c : Char} : '<' :: begun <+: close → '<' :: begun ≠ close →
      ¬ '<' :: (begun ++ [c]) <+: close → PassedOver close rest →
      PassedOver close ('<' :: (begun ++ c :: rest))

/-- The text before the first occurrence of a pattern. -/
def before? (pattern : List Char) : List Char → Option (List Char)
  | [] => if pattern.isEmpty then some [] else none
  | c :: rest =>
    if pattern.isPrefixOf (c :: rest) then some [] else (before? pattern rest).map (c :: ·)

/-- The text ends in an attempt, so that a closing tag right after it is not noticed. -/
def Hides (close body : List Char) : Prop :=
  ∃ passed begun, body = passed ++ '<' :: begun ∧ PassedOver close passed ∧
    '<' :: begun <+: close ∧ '<' :: begun ≠ close

/-! ## Attempts -/

theorem exists_mismatch {s t : List Char} (h : ¬s <+: t) (h' : ¬t <+: s) :
    ∃ common a s' b t', s = common ++ a :: s' ∧ t = common ++ b :: t' ∧ a ≠ b := by
  induction s generalizing t with
  | nil => exact absurd List.nil_prefix h
  | cons a s ih =>
    cases t with
    | nil => exact absurd List.nil_prefix h'
    | cons b t =>
      by_cases hab : a = b
      · subst hab
        rw [List.cons_prefix_cons] at h h'
        obtain ⟨common, x, s', y, t', rfl, rfl, hne⟩ :=
          ih (fun hp => h ⟨rfl, hp⟩) fun hp => h' ⟨rfl, hp⟩
        exact ⟨a :: common, x, s', y, t', rfl, rfl, hne⟩
      · exact ⟨[], a, s, b, t, rfl, rfl, hab⟩

/-- **Every text is passed over** up to a closing tag, or up to an attempt that the end of the text
cuts short. -/
theorem exists_passedOver (close : List Char) (hclose : close.head? = some '<') (s : List Char) :
    ∃ body rest, s = body ++ rest ∧ PassedOver close body ∧
      (close <+: rest ∨ rest <+: close ∧ rest ≠ close) := by
  induction hn : s.length using Nat.strongRecOn generalizing s with
  | ind n ih =>
    by_cases h : close <+: s
    · exact ⟨[], s, rfl, .nil, .inl h⟩
    by_cases h' : s <+: close
    · exact ⟨[], s, rfl, .nil, .inr ⟨h', fun heq => h (heq ▸ List.prefix_refl _)⟩⟩
    obtain ⟨common, a, s', b, t', rfl, hb, hab⟩ := exists_mismatch h' h
    obtain ⟨body, rest, rfl, hbody, hrest⟩ := ih s'.length (by simp at hn; omega) s' rfl
    cases common with
    | nil =>
      -- The first character opens no tag.
      rw [List.nil_append] at hb
      rw [hb, List.head?_cons] at hclose
      refine ⟨a :: body, rest, rfl, .other ?_ hbody, hrest⟩
      rintro rfl
      exact hab (Option.some.inj hclose).symm
    | cons d begun =>
      rw [hb, List.cons_append, List.head?_cons] at hclose
      obtain rfl := Option.some.inj hclose
      refine ⟨'<' :: (begun ++ a :: body), rest, by simp, .attempt ?_ ?_ ?_ hbody, hrest⟩
      · exact ⟨b :: t', by rw [hb]⟩
      · intro heq
        have hlen := congrArg List.length heq
        rw [hb] at hlen
        simp at hlen
      · rw [hb, List.cons_append, List.cons_prefix_cons, List.prefix_append_right_inj,
          List.cons_prefix_cons]
        exact fun hp => hab hp.2.1

variable {tag : DocTag} {read : Bool} {position : Extent} {body rest : List Char}

/-- The characters of the closing tag are read one after the other. -/
theorem bodyEnd_spelled (name : List Char) (mark : Extent) (read : Bool) (position : Extent)
    (spelled missing rest : List Char) :
    bodyEnd name (.closing mark (spelled ++ missing)) read position (spelled ++ rest) =
      bodyEnd name (.closing mark missing) read (position + Extent.of spelled) rest := by
  induction spelled generalizing position with
  | nil => simp
  | cons c spelled ih =>
    rw [List.cons_append, List.cons_append, bodyEnd, if_pos rfl, ih, Extent.of_cons,
      Extent.add_assoc]

/-- A closing tag ends the body, unless the body is empty. -/
theorem bodyEnd_whole : bodyEnd (closingTag tag) .none read position (wholeTag tag ++ rest) =
    if read then some position else none := by
  have h := bodyEnd_spelled (closingTag tag) position read
    (position + Extent.ofChar '<' + Extent.ofChar '/') (closingTag tag) [] rest
  rw [List.append_nil] at h
  rw [wholeTag, List.cons_append, List.cons_append, bodyEnd, if_pos rfl, bodyEnd, if_pos rfl, h]
  cases rest <;> rfl

/-- **What is passed over belongs to the body.** -/
theorem bodyEnd_passedOver (h : PassedOver (wholeTag tag) body) :
    bodyEnd (closingTag tag) .none read position (body ++ rest) =
      bodyEnd (closingTag tag) .none (read || !body.isEmpty) (position + Extent.of body) rest := by
  induction h generalizing read position with
  | nil => simp
  | @other c body hc _ ih =>
    rw [List.cons_append, bodyEnd, if_neg hc, ih, Extent.of_cons, Extent.add_assoc]
    simp
  | @attempt begun body c hbegun hwhole hfail _ ih =>
    have hattempt : bodyEnd (closingTag tag) .none read position
        ('<' :: (begun ++ c :: body) ++ rest) = bodyEnd (closingTag tag) .none true
          (position + Extent.of ('<' :: (begun ++ [c]))) (body ++ rest) := by
      rw [wholeTag, List.cons_prefix_cons] at hbegun hfail
      rw [List.cons_append, bodyEnd, if_pos rfl]
      cases begun with
      | nil =>
        have hc : c ≠ '/' := by
          rintro rfl
          exact hfail ⟨rfl, by simp⟩
        simp only [List.nil_append, List.cons_append]
        rw [bodyEnd, if_neg hc, Extent.of_cons, Extent.of_cons, Extent.of_nil, Extent.add_zero,
          Extent.add_assoc]
      | cons d spelled =>
        obtain ⟨-, hd⟩ := hbegun
        rw [List.cons_prefix_cons] at hd
        obtain ⟨rfl, missing, hmissing⟩ := hd
        simp only [List.append_assoc, List.cons_append]
        rw [bodyEnd, if_pos rfl, ← hmissing, bodyEnd_spelled]
        cases missing with
        | nil =>
          rw [List.append_nil] at hmissing
          rw [wholeTag, hmissing] at hwhole
          exact absurd rfl hwhole
        | cons e missing =>
          have hc : c ≠ e := by
            rintro rfl
            refine hfail ⟨rfl, ?_⟩
            rw [← hmissing]
            simp
          rw [bodyEnd, if_neg hc]
          simp only [Extent.of_cons, Extent.of_append, Extent.of_nil, Extent.add_zero,
            Extent.add_assoc]
    rw [hattempt, ih]
    have hsplit : '<' :: (begun ++ c :: body) = '<' :: (begun ++ [c]) ++ body := by simp
    rw [hsplit, Extent.of_append, Extent.add_assoc]
    simp

/-- An attempt that the end of the text cuts short ends no body. -/
theorem bodyEnd_unfinished (h : rest <+: wholeTag tag) (hne : rest ≠ wholeTag tag) :
    bodyEnd (closingTag tag) .none read position rest = none := by
  cases rest with
  | nil => rfl
  | cons c rest =>
    rw [wholeTag, List.cons_prefix_cons] at h
    obtain ⟨rfl, h⟩ := h
    rw [bodyEnd, if_pos rfl]
    cases rest with
    | nil => rfl
    | cons c spelled =>
      rw [List.cons_prefix_cons] at h
      obtain ⟨rfl, missing, hmissing⟩ := h
      have hspelled := bodyEnd_spelled (closingTag tag) position read
        (position + Extent.ofChar '<' + Extent.ofChar '/') spelled missing []
      rw [List.append_nil] at hspelled
      rw [bodyEnd, if_pos rfl]
      rw [hmissing] at hspelled
      rw [hspelled]
      cases missing with
      | nil =>
        rw [List.append_nil] at hmissing
        rw [wholeTag, hmissing] at hne
        exact absurd rfl hne
      | cons => rfl

/-! ## The end of the body -/

theorem bodyEnd_eq_some_iff {finish : Extent} {s : List Char} :
    bodyEnd (closingTag tag) .none read position s = some finish ↔ ∃ body rest,
      s = body ++ wholeTag tag ++ rest ∧ PassedOver (wholeTag tag) body ∧
        (read || !body.isEmpty) = true ∧ finish = position + Extent.of body := by
  constructor
  · intro h
    obtain ⟨body, rest, rfl, hbody, hrest⟩ := exists_passedOver (wholeTag tag) rfl s
    rw [bodyEnd_passedOver hbody] at h
    rcases hrest with ⟨rest, rfl⟩ | ⟨hpre, hne⟩
    · rw [bodyEnd_whole] at h
      split at h
      · exact ⟨body, rest, by simp, hbody, ‹_›, (Option.some.inj h).symm⟩
      · cases h
    · rw [bodyEnd_unfinished hpre hne] at h
      cases h
  · rintro ⟨body, rest, rfl, hbody, hread, rfl⟩
    rw [List.append_assoc, bodyEnd_passedOver hbody, bodyEnd_whole, if_pos hread]

/-- **The body of a tag is what is passed over before a closing tag**, if it has any character. -/
theorem scanDocBody_eq_some_iff {cursor : Cursor} {symbol : Symbol} {finish : Extent} :
    scanDocBody tag cursor = some (symbol, finish) ↔ symbol = bodySymbol tag ∧ ∃ body rest,
      cursor.rest = body ++ wholeTag tag ++ rest ∧ PassedOver (wholeTag tag) body ∧ body ≠ [] ∧
        finish = cursor.position + Extent.of body := by
  rw [scanDocBody, Option.map_eq_some_iff]
  simp only [Prod.mk.injEq, bodyEnd_eq_some_iff, Bool.false_or, Bool.not_eq_true',
    List.isEmpty_eq_false_iff]
  constructor
  · rintro ⟨finish', h, rfl, rfl⟩
    exact ⟨rfl, h⟩
  · rintro ⟨rfl, h⟩
    exact ⟨finish, h, rfl, rfl⟩

/-! ## The first closing tag -/

/-- The text before the first occurrence: there is one after it, and none before. -/
theorem before?_eq_some {pattern s : List Char} (h : before? pattern s = some body) :
    (∃ rest, s = body ++ pattern ++ rest) ∧
      ∀ body' rest', s = body' ++ pattern ++ rest' → body.length ≤ body'.length := by
  induction s generalizing body with
  | nil =>
    rw [before?] at h
    split at h
    · rename_i hempty
      cases h
      rw [List.isEmpty_iff] at hempty
      exact ⟨⟨[], by simp [hempty]⟩, fun _ _ _ => Nat.zero_le _⟩
    · cases h
  | cons c s ih =>
    rw [before?] at h
    split at h
    · rename_i hpre
      cases h
      obtain ⟨rest, hrest⟩ := List.isPrefixOf_iff_prefix.mp hpre
      exact ⟨⟨rest, by simpa using hrest.symm⟩, fun _ _ _ => Nat.zero_le _⟩
    · rename_i hpre
      obtain ⟨tail, htail, rfl⟩ := Option.map_eq_some_iff.mp h
      obtain ⟨⟨rest, hrest⟩, hfirst⟩ := ih htail
      refine ⟨⟨rest, by rw [hrest]; rfl⟩, fun body' rest' heq => ?_⟩
      cases body' with
      | nil =>
        refine absurd (List.isPrefixOf_iff_prefix.mpr ⟨rest', ?_⟩) hpre
        simpa using heq.symm
      | cons d body' => exact Nat.succ_le_succ (hfirst body' rest' (List.cons.inj heq).2)

theorem before?_ne_none {pattern : List Char} (body rest : List Char) :
    before? pattern (body ++ pattern ++ rest) ≠ none := by
  induction body with
  | nil =>
    have hpre : pattern.isPrefixOf (pattern ++ rest) = true :=
      List.isPrefixOf_iff_prefix.mpr (List.prefix_append ..)
    rw [List.nil_append]
    generalize pattern ++ rest = s at hpre
    cases s with
    | nil =>
      rw [List.isPrefixOf_iff_prefix, List.prefix_nil] at hpre
      simp [before?, hpre]
    | cons c s => simp [before?, hpre]
  | cons c body ih =>
    rw [List.cons_append, List.cons_append, before?]
    split
    · simp
    · simpa using ih

theorem first_passedOver_or_hides {s : List Char} (h : before? (wholeTag tag) s = some body) :
    PassedOver (wholeTag tag) body ∨ Hides (wholeTag tag) body := by
  obtain ⟨⟨post, rfl⟩, hfirst⟩ := before?_eq_some h
  obtain ⟨passed, rest, rfl, hpassed, hrest⟩ := exists_passedOver (wholeTag tag) rfl body
  rcases hrest with ⟨more, rfl⟩ | ⟨hpre, hne⟩
  · have hle := hfirst passed (more ++ wholeTag tag ++ post) (by simp)
    have hpos : 0 < (wholeTag tag).length := Nat.succ_pos _
    simp only [List.length_append] at hle
    omega
  · cases rest with
    | nil => exact .inl (by simpa using hpassed)
    | cons c begun =>
      obtain rfl : c = '<' := (List.cons_prefix_cons.mp hpre).1
      exact .inr ⟨passed, begun, rfl, hpassed, hpre, hne⟩

theorem closingTag_no_open (tag : DocTag) : '<' ∉ closingTag tag := by
  cases tag <;> decide

theorem PassedOver.append {close a b : List Char} (ha : PassedOver close a) (hb : PassedOver close b) :
    PassedOver close (a ++ b) := by
  induction ha with
  | nil => exact hb
  | other hc _ ih => exact .other hc ih
  | attempt h1 h2 h3 _ ih =>
    rw [List.cons_append, List.append_assoc, List.cons_append]
    exact .attempt h1 h2 h3 ih

/-- A hidden closing tag is passed over with the attempt that fails at it. -/
theorem Hides.passedOver (h : Hides (wholeTag tag) body) : PassedOver (wholeTag tag) (body ++ ['<']) := by
  obtain ⟨passed, begun, rfl, hpassed, hpre, hne⟩ := h
  have hlast : PassedOver (wholeTag tag) ('<' :: (begun ++ '<' :: [])) := by
    refine .attempt hpre hne (fun hp => ?_) .nil
    rw [wholeTag, List.cons_prefix_cons] at hp
    have hmem : '<' ∈ '/' :: closingTag tag := hp.2.subset (by simp)
    rcases List.mem_cons.mp hmem with hc | hc
    · cases hc
    · exact closingTag_no_open tag hc
  have h := hpassed.append hlast
  simpa using h

/-- The token that a body would be if it ended at the first closing tag. -/
def firstBody (tag : DocTag) (cursor : Cursor) : Option (Symbol × Extent) :=
  match before? (wholeTag tag) cursor.rest with
  | some [] | none => none
  | some body => some (bodySymbol tag, cursor.position + Extent.of body)

/-- **The body ends at the first closing tag exactly if no attempt hides it.**  Whatever the text,
what is read ends right before a closing tag and has a character at least. -/
theorem scanDocBody_iff_not_hidden (tag : DocTag) (cursor : Cursor) :
    (scanDocBody tag cursor = firstBody tag cursor ↔
      ¬∃ body, before? (wholeTag tag) cursor.rest = some body ∧ Hides (wholeTag tag) body) ∧
    ∀ symbol finish, scanDocBody tag cursor = some (symbol, finish) ↔
      symbol = bodySymbol tag ∧ ∃ body rest, cursor.rest = body ++ wholeTag tag ++ rest ∧
        PassedOver (wholeTag tag) body ∧ body ≠ [] ∧ finish = cursor.position + Extent.of body := by
  refine ⟨?_, fun _ _ => scanDocBody_eq_some_iff⟩
  cases hbefore : before? (wholeTag tag) cursor.rest with
  | none =>
    -- There is no closing tag at all.
    refine iff_of_true ?_ (by simp)
    rw [firstBody, hbefore]
    cases hscan : scanDocBody tag cursor with
    | none => rfl
    | some token =>
      obtain ⟨-, body, rest, hrest, -⟩ := scanDocBody_eq_some_iff.mp hscan
      rw [hrest] at hbefore
      exact absurd hbefore (before?_ne_none body rest)
  | some body =>
    obtain ⟨⟨rest, hrest⟩, -⟩ := before?_eq_some hbefore
    have hhides : Hides (wholeTag tag) body → scanDocBody tag cursor ≠ firstBody tag cursor := by
      intro hh heq
      have hne : body ≠ [] := by
        obtain ⟨passed, begun, rfl, -⟩ := hh
        simp
      have hfirst : firstBody tag cursor =
          some (bodySymbol tag, cursor.position + Extent.of body) := by
        rw [firstBody, hbefore]
        cases body with
        | nil => exact absurd rfl hne
        | cons => rfl
      rw [hfirst, scanDocBody, Option.map_eq_some_iff] at heq
      obtain ⟨finish, hend, hpair⟩ := heq
      have hsplit : cursor.rest = body ++ ['<'] ++ ('/' :: closingTag tag ++ rest) := by
        rw [hrest]
        simp [wholeTag]
      rw [hsplit, bodyEnd_passedOver hh.passedOver] at hend
      obtain ⟨more, _, -, -, -, hfinish⟩ := bodyEnd_eq_some_iff.mp hend
      have hbytes := congrArg Extent.bytes (hfinish.symm.trans (Prod.mk.inj hpair).2)
      simp only [Extent.of_append, Extent.bytes_add] at hbytes
      have hopen : (Extent.of ['<']).bytes = 1 := rfl
      omega
    simp only [Option.some.injEq, exists_eq_left']
    refine ⟨fun heq hh => hhides hh heq, fun hh => ?_⟩
    have hpassed := (first_passedOver_or_hides hbefore).resolve_right hh
    rw [scanDocBody, hrest, List.append_assoc, bodyEnd_passedOver hpassed, bodyEnd_whole, firstBody,
      hbefore]
    cases body <;> rfl

/-- The body `<` of a summary hides the closing tag after it. -/
theorem open_hides_summary : scanDocBody .summary ⟨"<</summary>".toList, 0⟩ = none ∧
    firstBody .summary ⟨"<</summary>".toList, 0⟩ = some (.summaryContent, ⟨1, 0, 1⟩) := by
  decide

end Cicode.Lex
