/-
A workspace as the place where a command runs. Making directories keeps all files
(`keepsFiles_makeDirectories`), and writing one leaves all others and the directories as they were: the
path leads to the file that was written (`writeFile_eq_ok`).
-/
import SchemaInference.Command.Workspace

namespace SchemaInference.Command.Workspace

variable {w w' : Workspace}

/-! ## Computations -/

section Computations

variable {α β : Type}

theorem bind_of_eq {x : StateM Workspace α} {k : α → StateM Workspace β} {a : α}
    (h : x w = (a, w')) : (x >>= k) w = k a w' := by
  show k (x w).1 (x w).2 = k a w'
  rw [h]

variable {given : Expansion}

theorem bind_readFile (path : String) (k : Content → StateM Workspace β) (w : Workspace) :
    ((host given).readFile path >>= k) w = k (w.readFile path) w := rfl

theorem bind_expand? (text : String) (k : Option Entries → StateM Workspace β) (w : Workspace) :
    ((host given).expand? text >>= k) w = k (given text) w := rfl

/-- A change that succeeds is made. -/
theorem apply_of_ok {change : Workspace → Except FileFault Workspace} (h : change w = .ok w') :
    apply change w = (.ok (), w') := by
  rw [apply, h]

theorem apply_of_error {change : Workspace → Except FileFault Workspace} {f : FileFault}
    (h : change w = .error f) : apply change w = (.error f, w) := by
  rw [apply, h]

end Computations

variable {p q : Place} {path text : String}

/-! ## Paths -/

/-- Where a path leads does not hang on what is left of the standard input. -/
theorem follow_withInput (w : Workspace) (input : Content) (q : Place) (parts : List String) :
    { w with input }.follow q parts = w.follow q parts := by
  induction parts generalizing q with
  | nil => rfl
  | cons part parts ih =>
    unfold follow
    simp only [ih]
    rfl

theorem readFile_withInput (w : Workspace) (input : Content) (path : String) :
    { w with input }.readFile path = w.readFile path := by
  unfold readFile spot
  simp only [follow_withInput]

/-! ## Files -/

theorem fileAt?_putFile_self (w : Workspace) (p : Place) (text : String) :
    (w.putFile p text).fileAt? p = some (.ok text) := by
  have hnone : (w.files.filter (·.1 ≠ p)).find? (·.1 = p) = none := by
    rw [List.find?_eq_none]
    intro f hf
    simpa using (List.mem_filter.1 hf).2
  simp only [fileAt?, putFile, List.find?_append, hnone, Option.none_or, List.find?_cons,
    decide_true, Option.map_some]

/-- All other files stay as they are. -/
theorem fileAt?_putFile_of_ne (text : String) (h : q ≠ p) :
    (w.putFile p text).fileAt? q = w.fileAt? q := by
  have hfind : (w.files.filter (·.1 ≠ p)).find? (·.1 = q) = w.files.find? (·.1 = q) := by
    rw [List.find?_filter]
    congr 1
    funext f
    by_cases hf : f.1 = q
    · simp [hf, h]
    · simp [hf]
  simp only [fileAt?, putFile, List.find?_append, hfind, List.find?_cons, List.find?_nil,
    h.symm, decide_false, Option.or_none]

/-- Where a path leads to a file, or to where there is nothing yet, it leads to the file that is put
there. -/
theorem follow_putFile {parts : List String} {s : Spot} (h : w.follow q parts = .ok s)
    (hs : s = .vacant p ∨ ∃ old, s = .file p old) (text : String) :
    (w.putFile p text).follow q parts = .ok (.file p (.ok text)) := by
  induction parts generalizing q with
  | nil =>
    cases h
    rcases hs with hs | ⟨_, hs⟩ <;> cases hs
  | cons part parts ih =>
    unfold follow at h ⊢
    dsimp only at h ⊢
    -- the same parts are passed, since the directories are the same
    show (if isIdle part = true then _ else if part = ".." then _ else
      if maxNameSize < part.utf8ByteSize then _ else
        if w.isDirectoryAt (q ++ [part]) = true then _ else _) = _
    split at h
    · rw [if_pos ‹_›]
      exact ih h
    rw [if_neg ‹_›]
    split at h
    · rw [if_pos ‹_›]
      exact ih h
    rw [if_neg ‹_›]
    split at h
    · cases h
    rw [if_neg ‹_›]
    split at h
    · rw [if_pos ‹_›]
      exact ih h
    rw [if_neg ‹_›]
    -- the last part is the name of the file
    obtain ⟨rfl, rfl⟩ : q ++ [part] = p ∧ parts = [] := by
      split at h <;> split at h <;> cases h
      · rcases hs with hs | ⟨_, hs⟩ <;> cases hs
        exact ⟨rfl, ‹_›⟩
      · rcases hs with hs | ⟨_, hs⟩ <;> cases hs
        exact ⟨rfl, ‹_›⟩
    rw [fileAt?_putFile_self]
    rfl

theorem exists_of_bind_eq_ok {ε α β : Type} {x : Except ε α} {f : α → Except ε β} {b : β}
    (h : x >>= f = .ok b) : ∃ a, x = .ok a ∧ f a = .ok b := by
  cases x with
  | error e => cases h
  | ok a => exact ⟨a, rfl, h⟩

/-- A file that was written is where its path leads. -/
theorem writeFile_eq_ok (h : w.writeFile path text = .ok w') :
    ∃ p, w' = w.putFile p text ∧ w'.spot path = .ok (.file p (.ok text)) := by
  unfold writeFile at h
  obtain ⟨ps, hparts, h⟩ := exists_of_bind_eq_ok h
  generalize lastPart ps = l at h
  obtain ⟨last, before⟩ := l
  obtain ⟨-, -, h⟩ := exists_of_bind_eq_ok h
  dsimp only at h
  split at h
  · cases h
  obtain ⟨s, hspot, h⟩ := exists_of_bind_eq_ok h
  have hfollow : ∀ p, s = .vacant p ∨ (∃ old, s = .file p old) →
      (w.putFile p text).spot path = .ok (.file p (.ok text)) := fun p hs => by
    unfold spot at hspot ⊢
    rw [hparts] at hspot ⊢
    exact follow_putFile hspot hs text
  cases s with
  | directory => cases h
  | file p old =>
    cases h
    exact ⟨p, rfl, hfollow p (.inr ⟨old, rfl⟩)⟩
  | vacant p =>
    cases h
    exact ⟨p, rfl, hfollow p (.inl rfl)⟩

/-! ## Directories -/

/-- The computation changes no file, and takes nothing from the input. -/
def KeepsFiles {α : Type} (x : StateM Workspace α) : Prop :=
  ∀ w, (x w).2.files = w.files ∧ (x w).2.input = w.input

namespace KeepsFiles

variable {α β : Type} {x : StateM Workspace α} {k : α → StateM Workspace β}

theorem pure (a : α) : KeepsFiles (Pure.pure a) := fun _ => ⟨rfl, rfl⟩

theorem bind (hx : KeepsFiles x) (hk : ∀ a, KeepsFiles (k a)) : KeepsFiles (x >>= k) := fun w => by
  obtain ⟨hfiles, hinput⟩ := hx w
  obtain ⟨hfiles', hinput'⟩ := hk (x w).1 (x w).2
  exact ⟨hfiles'.trans hfiles, hinput'.trans hinput⟩

end KeepsFiles

/-- A directory that is made is all that is new. -/
theorem makeDirectory_eq_ok (h : w.makeDirectory path = .ok w') : ∃ p, w' = w.addDirectory p := by
  unfold makeDirectory at h
  obtain ⟨ps, -, h⟩ := exists_of_bind_eq_ok h
  obtain ⟨s, -, h⟩ := exists_of_bind_eq_ok h
  cases s with
  | vacant p =>
    cases h
    exact ⟨p, rfl⟩
  | _ => cases h

theorem keepsFiles_ensureDirectory (path : String) : KeepsFiles (apply (·.ensureDirectory path)) := by
  intro w
  have hadded : ∀ p, (w.addDirectory p).files = w.files ∧ (w.addDirectory p).input = w.input := by
    intro p
    unfold addDirectory
    split <;> exact ⟨rfl, rfl⟩
  rcases h : w.ensureDirectory path with f | w'
  · rw [apply_of_error h]
    exact ⟨rfl, rfl⟩
  rw [apply_of_ok h]
  unfold ensureDirectory at h
  split at h
  · split at h <;> cases h
    exact ⟨rfl, rfl⟩
  · obtain ⟨p, rfl⟩ := makeDirectory_eq_ok h
    exact hadded p

theorem keepsFiles_ensureDirectories (paths : List String) : KeepsFiles (ensureDirectories paths) := by
  induction paths with
  | nil => exact .pure _
  | cons path paths ih =>
    refine (keepsFiles_ensureDirectory path).bind fun o => ?_
    split
    · refine ih.bind fun o => ?_
      cases o with
      | error f => exact .pure _
      | ok => exact keepsFiles_ensureDirectory path
    · exact .pure _

/-- Making directories changes no file, whether it succeeds or not. -/
theorem keepsFiles_makeDirectories (path : String) : KeepsFiles (makeDirectories path) :=
  keepsFiles_ensureDirectories _

end SchemaInference.Command.Workspace
