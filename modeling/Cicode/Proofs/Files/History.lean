import Mathlib
import Cicode.Files.Workspace

/-!
# The history of a workspace

A `World` is a workspace beside a disk, and a history is a row of acts: the files change in any way, so
that the disk gives other answers, or a file is loaded, or an input is made or gets another text.  It
starts with an empty workspace.

`load_cases` says what a load can do.  From it follows what one act keeps (`Workspace.Within`): an input
that was loaded stays under its path, and one that was made some other way is never taken for a loaded
one.  Main statement (`history_consistent`): over a whole history, the loads that give the same input are
those of paths with the same shared spelling, a load that fails changes nothing, a file that can be read
is loaded, and the text of a loaded input is that of the file when it was first loaded, or the one that
it was last given.
-/

namespace Cicode.Files

namespace Workspace

/-! ## Loading -/

/-- The workspace with a file that has been read. -/
def file (workspace : Workspace) (path text : String) : Workspace where
  inputs := workspace.inputs ++ [⟨path, text⟩]
  loaded := (path, workspace.inputs.length) :: workspace.loaded

theorem loaded?_file (workspace : Workspace) (path text other : String) :
    (workspace.file path text).loaded? other =
      if other = path then some workspace.inputs.length else workspace.loaded? other := by
  rw [loaded?, file, List.lookup_cons, loaded?]
  by_cases h : other = path
  · rw [if_pos h, beq_iff_eq.mpr h]
  · rw [if_neg h, beq_eq_false_iff_ne.mpr h]

/-- **What a load can do**: fail and change nothing, find the file loaded, or read it. -/
theorem load_cases (workspace : Workspace) (disk : Disk) (path : String) :
    (∃ error, workspace.load disk path = (workspace, .error error) ∧
      (disk path = .error error ∨ ∃ found, disk path = .ok found ∧ found.text = .error error)) ∨
    (∃ found id, disk path = .ok found ∧ workspace.loaded? found.path = some id ∧
      workspace.load disk path = (workspace, .ok id)) ∨
    (∃ found text, disk path = .ok found ∧ workspace.loaded? found.path = none ∧ found.text = .ok text ∧
      workspace.load disk path = (workspace.file found.path text, .ok workspace.inputs.length)) := by
  cases hdisk : disk path with
  | error error => exact .inl ⟨error, by simp only [load, hdisk], .inl rfl⟩
  | ok found =>
    cases hloaded : workspace.loaded? found.path with
    | some id => exact .inr (.inl ⟨found, id, rfl, hloaded, by simp only [load, hdisk, hloaded]⟩)
    | none =>
      cases htext : found.text with
      | error error =>
        exact .inl ⟨error, by simp only [load, hdisk, hloaded, htext], .inr ⟨found, rfl, htext⟩⟩
      | ok text =>
        refine .inr (.inr ⟨found, text, rfl, hloaded, htext, ?_⟩)
        simp only [load, hdisk, hloaded, htext, create, file]

/-! ## What becomes of a workspace -/

/-- The loaded inputs of a workspace are among its inputs, one for each path. -/
structure Kept (workspace : Workspace) : Prop where
  bounded : ∀ {path id}, workspace.loaded? path = some id → id < workspace.inputs.length
  injective : ∀ {path other id}, workspace.loaded? path = some id → workspace.loaded? other = some id →
    path = other

/-- A workspace may become another: what was loaded stays under its path, and none of the other inputs is
taken for a loaded one. -/
structure Within (workspace later : Workspace) : Prop where
  length_le : workspace.inputs.length ≤ later.inputs.length
  loaded : ∀ {path id}, workspace.loaded? path = some id → later.loaded? path = some id
  unloaded : ∀ {path id}, later.loaded? path = some id → id < workspace.inputs.length →
    workspace.loaded? path = some id

theorem Within.refl (workspace : Workspace) : workspace.Within workspace := ⟨Nat.le_refl _, id, fun h _ => h⟩

theorem Within.trans {first second third : Workspace} (h : first.Within second)
    (h' : second.Within third) : first.Within third where
  length_le := Nat.le_trans h.length_le h'.length_le
  loaded hloaded := h'.loaded (h.loaded hloaded)
  unloaded hloaded hlt := h.unloaded (h'.unloaded hloaded (Nat.lt_of_lt_of_le hlt h.length_le)) hlt

section

variable {workspace later : Workspace}

/-- Where the same files are loaded, only their inputs count. -/
theorem within_of_loaded_eq (hloaded : later.loaded = workspace.loaded)
    (hlength : workspace.inputs.length ≤ later.inputs.length) : workspace.Within later where
  length_le := hlength
  loaded h := by rwa [loaded?, hloaded]
  unloaded h _ := by rwa [loaded?, hloaded] at h

theorem within_file {path text : String} (h : workspace.loaded? path = none) :
    workspace.Within (workspace.file path text) where
  length_le := by simp [file]
  loaded := by
    intro other id hother
    rw [loaded?_file, if_neg, hother]
    rintro rfl
    rw [h] at hother
    cases hother
  unloaded := by
    intro other id hother hlt
    rw [loaded?_file] at hother
    split at hother
    · cases hother
      exact absurd hlt (Nat.lt_irrefl _)
    · exact hother

theorem Kept.of_loaded_eq (h : workspace.Kept) (hloaded : later.loaded = workspace.loaded)
    (hlength : workspace.inputs.length ≤ later.inputs.length) : later.Kept where
  bounded hid := Nat.lt_of_lt_of_le (h.bounded (by rwa [loaded?, hloaded] at hid)) hlength
  injective hid hid' :=
    h.injective (by rwa [loaded?, hloaded] at hid) (by rwa [loaded?, hloaded] at hid')

/-- The input of a file that is read is a new one. -/
theorem Kept.file (h : workspace.Kept) (path text : String) : (workspace.file path text).Kept := by
  have hold : ∀ {other id}, (workspace.file path text).loaded? other = some id →
      (other = path ∧ id = workspace.inputs.length) ∨ workspace.loaded? other = some id := by
    intro other id hid
    rw [loaded?_file] at hid
    split at hid
    · rename_i hother
      exact .inl ⟨hother, (Option.some.inj hid).symm⟩
    · exact .inr hid
  have hlength : (workspace.file path text).inputs.length = workspace.inputs.length + 1 := by
    simp [Workspace.file]
  constructor
  · intro other id hid
    rw [hlength]
    rcases hold hid with ⟨-, rfl⟩ | hid
    · exact Nat.lt_succ_self _
    · exact Nat.lt_succ_of_lt (h.bounded hid)
  · intro other other' id hid hid'
    rcases hold hid with ⟨hother, hnew⟩ | hid <;> rcases hold hid' with ⟨hother', hnew'⟩ | hid'
    · rw [hother, hother']
    · exact absurd (h.bounded hid') (hnew ▸ Nat.lt_irrefl _)
    · exact absurd (h.bounded hid) (hnew' ▸ Nat.lt_irrefl _)
    · exact h.injective hid hid'

end

end Workspace

/-! ## Histories -/

/-- What happens to a workspace, or to the files beside it. -/
inductive Act where
  /-- Files are written or removed, and the disk gives other answers. -/
  | change (disk : Disk)
  | load (path : String)
  | create (path text : String)
  | setText (id : InputId) (text : String)

/-- A workspace and the disk it loads from. -/
structure World where
  disk : Disk
  workspace : Workspace := {}

namespace World

/-- What an act makes of a world. -/
def act (world : World) : Act → World
  | .change disk => { world with disk }
  | .load path => { world with workspace := (world.workspace.load world.disk path).1 }
  | .create path text => { world with workspace := (world.workspace.create path text).1 }
  | .setText id text => { world with workspace := world.workspace.setText id text }

/-- What some acts make of a world, one after the other. -/
def run (world : World) (acts : List Act) : World := acts.foldl act world

theorem run_append (world : World) (acts more : List Act) :
    world.run (acts ++ more) = (world.run acts).run more := List.foldl_append ..

theorem run_cons (world : World) (a : Act) (acts : List Act) :
    world.run (a :: acts) = (world.act a).run acts := rfl

/-- **What was loaded stays what it is**, and nothing else becomes it. -/
theorem within_act (world : World) (a : Act) : world.workspace.Within (world.act a).workspace := by
  cases a with
  | change disk => exact .refl _
  | load path =>
    rw [act]
    rcases world.workspace.load_cases world.disk path with
      ⟨_, hload, -⟩ | ⟨_, _, -, -, hload⟩ | ⟨found, text, -, hnone, -, hload⟩ <;> rw [hload]
    · exact .refl _
    · exact .refl _
    · exact Workspace.within_file hnone
  | create path text => exact Workspace.within_of_loaded_eq rfl (by simp [act, Workspace.create])
  | setText id text => exact Workspace.within_of_loaded_eq rfl (by simp [act, Workspace.setText])

theorem within_run (world : World) (acts : List Act) : world.workspace.Within (world.run acts).workspace := by
  induction acts generalizing world with
  | nil => exact .refl _
  | cons a acts ih => exact (world.within_act a).trans (ih (world.act a))

theorem kept_act {world : World} (h : world.workspace.Kept) (a : Act) : (world.act a).workspace.Kept := by
  cases a with
  | change disk => exact h
  | load path =>
    rw [act]
    rcases world.workspace.load_cases world.disk path with
      ⟨_, hload, -⟩ | ⟨_, _, -, -, hload⟩ | ⟨found, text, -, -, -, hload⟩ <;> rw [hload]
    · exact h
    · exact h
    · exact h.file ..
  | create path text => exact h.of_loaded_eq rfl (by simp [act, Workspace.create])
  | setText id text => exact h.of_loaded_eq rfl (by simp [act, Workspace.setText])

theorem kept_run {world : World} (h : world.workspace.Kept) (acts : List Act) :
    (world.run acts).workspace.Kept := by
  induction acts generalizing world with
  | nil => exact h
  | cons a acts ih => exact ih (kept_act h a)

end World

/-! ## Texts -/

/-- The text that some acts last give an input. -/
def lastText (id : InputId) : List Act → Option String
  | [] => none
  | .setText other text :: acts => (lastText id acts).or (if other = id then some text else none)
  | _ :: acts => lastText id acts

namespace World

/-- An act does not touch an input unless it sets its text. -/
theorem input?_act {world : World} {id : InputId} {input : Input}
    (h : world.workspace.input? id = some input) (a : Act) : (world.act a).workspace.input? id =
      some { input with text := (lastText id [a]).getD input.text } := by
  rw [Workspace.input?] at h
  have hlt := (List.getElem?_eq_some_iff.mp h).1
  cases a with
  | change disk => exact h
  | load path =>
    rw [act]
    rcases world.workspace.load_cases world.disk path with
      ⟨_, hload, -⟩ | ⟨_, _, -, -, hload⟩ | ⟨found, text, -, -, -, hload⟩ <;> rw [hload]
    · exact h
    · exact h
    · exact (List.getElem?_append_left hlt).trans h
  | create path text => exact (List.getElem?_append_left hlt).trans h
  | setText other text =>
    rw [act, Workspace.input?, Workspace.setText, List.getElem?_modify, h]
    by_cases hother : other = id <;> simp [lastText, hother]

theorem input?_run {world : World} {id : InputId} {input : Input}
    (h : world.workspace.input? id = some input) (acts : List Act) :
    (world.run acts).workspace.input? id =
      some { input with text := (lastText id acts).getD input.text } := by
  induction acts generalizing world input with
  | nil => exact h
  | cons a acts ih =>
    rw [run_cons, ih (input?_act h a)]
    cases a with
    | setText other text =>
      cases hlater : lastText id acts <;> simp [lastText, hlater]
    | _ => rfl

end World

/-! ## Loads -/

/-- The world after some acts, of which the first finds an empty workspace. -/
def World.after (start : Disk) (acts : List Act) : World := run { disk := start } acts

theorem World.after_append (start : Disk) (acts more : List Act) :
    after start (acts ++ more) = (after start acts).run more := run_append ..

/-- A load in a history that gives an input. -/
structure Load (start : Disk) (acts : List Act) where
  past : List Act
  path : String
  future : List Act
  acts_eq : acts = past ++ .load path :: future
  /-- What the path leads to at that time. -/
  found : Found
  located : (World.after start past).disk path = .ok found
  id : InputId
  result : ((World.after start past).workspace.load (World.after start past).disk path).2 = .ok id

/-- An input that is made in a history other than by a load. -/
structure Creation (start : Disk) (acts : List Act) where
  past : List Act
  path : String
  text : String
  future : List Act
  acts_eq : acts = past ++ .create path text :: future
  id : InputId
  result : ((World.after start past).workspace.create path text).2 = id

section

variable {start : Disk} {acts : List Act}

theorem kept_after (start : Disk) (acts : List Act) : (World.after start acts).workspace.Kept := by
  refine World.kept_run ⟨?_, ?_⟩ acts <;>
    · intros
      contradiction

theorem Load.after_eq (l : Load start acts) :
    World.after start acts = ((World.after start l.past).act (.load l.path)).run l.future :=
  (congrArg (World.after start) l.acts_eq).trans (World.after_append ..)

/-- A load finds its file loaded, or reads it. -/
theorem Load.cases (l : Load start acts) :
    ((World.after start l.past).workspace.loaded? l.found.path = some l.id ∧
      (World.after start l.past).act (.load l.path) = World.after start l.past) ∨
    ∃ text, l.found.text = .ok text ∧ l.id = (World.after start l.past).workspace.inputs.length ∧
      ((World.after start l.past).act (.load l.path)).workspace =
        (World.after start l.past).workspace.file l.found.path text := by
  have hlocated := l.located
  have hresult := l.result
  rw [World.act]
  rcases (World.after start l.past).workspace.load_cases (World.after start l.past).disk l.path with
    ⟨error, hload, -⟩ | ⟨found, id, hfound, hloaded, hload⟩ | ⟨found, text, hfound, -, htext, hload⟩ <;>
    rw [hload] at hresult ⊢
  · cases hresult
  · obtain rfl := Except.ok.inj (hlocated.symm.trans hfound)
    obtain rfl := Except.ok.inj hresult
    exact .inl ⟨hloaded, rfl⟩
  · obtain rfl := Except.ok.inj (hlocated.symm.trans hfound)
    exact .inr ⟨text, htext, (Except.ok.inj hresult).symm, rfl⟩

/-- What a load gives is loaded under the shared spelling of its path from then on. -/
theorem Load.loaded (l : Load start acts) :
    (World.after start acts).workspace.loaded? l.found.path = some l.id := by
  rw [l.after_eq]
  apply (World.within_run _ l.future).loaded
  rcases l.cases with ⟨hloaded, hsame⟩ | ⟨text, -, hid, hfile⟩
  · rw [hsame, hloaded]
  · rw [hfile, Workspace.loaded?_file, if_pos rfl, hid]

/-- What was made otherwise is never loaded. -/
theorem Creation.unloaded (c : Creation start acts) (path : String) :
    (World.after start acts).workspace.loaded? path ≠ some c.id := by
  obtain ⟨past, other, text, future, rfl, id, rfl⟩ := c
  intro hloaded
  rw [World.after_append, World.run_cons] at hloaded
  have hnow := (World.within_run _ future).unloaded hloaded (by simp [World.act, Workspace.create])
  exact Nat.lt_irrefl _ ((kept_after start past).bounded hnow)

/-- A load stays one when more happens. -/
def Load.extend (l : Load start acts) {all more : List Act} (h : all = acts ++ more) : Load start all where
  past := l.past
  path := l.path
  future := l.future ++ more
  acts_eq := by rw [h, congrArg (· ++ more) l.acts_eq, List.append_assoc, List.cons_append]
  found := l.found
  located := l.located
  id := l.id
  result := l.result

/-- What is loaded at the end of a history was given by a load. -/
theorem exists_load {path : String} {id : InputId}
    (h : (World.after start acts).workspace.loaded? path = some id) :
    ∃ l : Load start acts, l.found.path = path ∧ l.id = id := by
  induction acts using List.reverseRecOn with
  | nil => cases h
  | append_singleton acts a ih =>
    have hearlier : (World.after start acts).workspace.loaded? path = some id →
        ∃ l : Load start (acts ++ [a]), l.found.path = path ∧ l.id = id := by
      intro hloaded
      obtain ⟨l, hl⟩ := ih hloaded
      exact ⟨l.extend rfl, hl⟩
    rw [World.after_append, World.run_cons] at h
    cases a with
    | load other =>
      rw [World.act] at h
      rcases hcases : (World.after start acts).workspace.load_cases
          (World.after start acts).disk other with
        ⟨_, hload, -⟩ | ⟨_, _, -, -, hload⟩ | ⟨found, text, hlocated, -, -, hload⟩
      · rw [hload] at h
        exact hearlier h
      · rw [hload] at h
        exact hearlier h
      · rw [hload] at h
        change ((Workspace.file _ _ _).loaded? path = some id) at h
        rw [Workspace.loaded?_file] at h
        split at h
        · rename_i hpath
          refine ⟨⟨acts, other, [], rfl, found, hlocated, id, ?_⟩, hpath.symm, rfl⟩
          rw [hload, Option.some.inj h]
        · exact hearlier h
    | _ => exact hearlier h

/-- The first load that gives an input reads it. -/
theorem Load.read (l : Load start acts)
    (hfirst : ∀ other : Load start acts, other.past.length < l.past.length → other.id ≠ l.id) :
    ∃ text, l.found.text = .ok text ∧
      ((World.after start l.past).act (.load l.path)).workspace.input? l.id =
        some ⟨l.found.path, text⟩ := by
  rcases l.cases with ⟨hloaded, -⟩ | ⟨text, htext, hid, hfile⟩
  · -- Another load gave the input before, so that this one was not the first.
    obtain ⟨earlier, -, hid⟩ := exists_load hloaded
    have hlt : earlier.past.length < l.past.length := by
      rw [congrArg List.length earlier.acts_eq, List.length_append, List.length_cons]
      omega
    exact absurd hid (hfirst (earlier.extend l.acts_eq) hlt)
  · refine ⟨text, htext, ?_⟩
    rw [hfile, hid, Workspace.input?, Workspace.file, List.getElem?_concat_length]

end

/-- What holds of the loads of a history. -/
structure Consistent (start : Disk) (acts : List Act) : Prop where
  /-- Two loads give the same input exactly if their paths share their spelling. -/
  same : ∀ a b : Load start acts, a.id = b.id ↔ a.found.path = b.found.path
  /-- No load gives an input that was made otherwise. -/
  apart : ∀ (a : Load start acts) (b : Creation start acts), a.id ≠ b.id
  /-- A load that fails changes nothing. -/
  failed : ∀ past path future error, acts = past ++ .load path :: future →
    let world := World.after start past
    (world.workspace.load world.disk path).2 = .error error → world.act (.load path) = world
  /-- A file that can be read is loaded, whatever happened before. -/
  readable : ∀ past path future found text, acts = past ++ .load path :: future →
    (World.after start past).disk path = .ok found → found.text = .ok text →
      ∃ l : Load start acts, l.past = past ∧ l.found = found
  /-- The text of a loaded input is that of the file when it was first loaded, or the one that it was given
  last since. -/
  text : ∀ l : Load start acts,
    (∀ other : Load start acts, other.past.length < l.past.length → other.id ≠ l.id) →
    ∃ text, l.found.text = .ok text ∧ (World.after start acts).workspace.input? l.id =
      some ⟨l.found.path, (lastText l.id l.future).getD text⟩

theorem consistent (start : Disk) (acts : List Act) : Consistent start acts where
  same := by
    intro a b
    constructor
    · intro hid
      exact (kept_after start acts).injective a.loaded (hid ▸ b.loaded)
    · intro hpath
      exact Option.some.inj (a.loaded.symm.trans (hpath ▸ b.loaded))
  apart := by
    intro a b hid
    exact b.unloaded _ (hid ▸ a.loaded)
  failed := by
    rintro past path future error - world hfailed
    rw [World.act]
    rcases world.workspace.load_cases world.disk path with
      ⟨_, hload, -⟩ | ⟨_, _, -, -, hload⟩ | ⟨_, _, -, -, -, hload⟩ <;> rw [hload] at hfailed ⊢
    cases hfailed
  readable := by
    rintro past path future found text hacts hlocated htext
    have hok : ∃ id,
        ((World.after start past).workspace.load (World.after start past).disk path).2 = .ok id := by
      rcases (World.after start past).workspace.load_cases (World.after start past).disk path with
        ⟨error, -, hno | ⟨found', hfound, hno⟩⟩ | ⟨_, id, -, -, hload⟩ | ⟨_, _, -, -, -, hload⟩
      · rw [hlocated] at hno
        cases hno
      · obtain rfl := Except.ok.inj (hlocated.symm.trans hfound)
        rw [htext] at hno
        cases hno
      · exact ⟨id, by rw [hload]⟩
      · exact ⟨_, by rw [hload]⟩
    obtain ⟨id, hid⟩ := hok
    exact ⟨⟨past, path, future, hacts, found, hlocated, id, hid⟩, rfl, rfl⟩
  text := by
    intro l hfirst
    obtain ⟨text, htext, hinput⟩ := l.read hfirst
    refine ⟨text, htext, ?_⟩
    rw [l.after_eq, World.input?_run hinput]

/-! ## Sessions -/

namespace Session

/-- The world of a session. -/
def world (session : Session) : World := ⟨session.files.locate, session.workspace⟩

/-- What a step does to the world of a session. -/
def actOf (session : Session) : Step → Act
  | .load path => .load path
  | .create path text => .create path text
  | .setText id text => .setText id text
  | step => .change (session.step step).1.files.locate

/-- What some steps do to the world of a session. -/
def acts (session : Session) : List Step → List Act
  | [] => []
  | step :: rest => session.actOf step :: acts (session.step step).1 rest

theorem world_step (session : Session) (step : Step) :
    (session.step step).1.world = session.world.act (session.actOf step) := by
  have hfiles : ∀ changed, (session.withFiles changed).1.workspace = session.workspace := by
    intro changed
    cases changed <;> rfl
  cases step with
  | write path content => exact congrArg (World.mk _) (hfiles _)
  | remove path => exact congrArg (World.mk _) (hfiles _)
  | _ => rfl

theorem world_run (session : Session) (steps : List Step) :
    (session.run steps).1.world = session.world.run (session.acts steps) := by
  induction steps generalizing session with
  | nil => rfl
  | cons step rest ih =>
    rw [acts, World.run_cons, ← world_step]
    exact ih (session.step step).1

end Session

/-- **The history of a workspace is consistent**, whatever the disk does meanwhile; and what happens in a
session, where files are written and removed, is such a history. -/
theorem history_consistent :
    (∀ start acts, Consistent start acts) ∧
    ∀ (files : FileStore) (steps : List Step), (({ files } : Session).run steps).1.world =
      World.after files.locate (({ files } : Session).acts steps) :=
  ⟨consistent, fun files steps => Session.world_run { files } steps⟩

end Cicode.Files
