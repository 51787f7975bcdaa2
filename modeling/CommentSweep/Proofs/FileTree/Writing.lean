import CommentSweep.Proofs.FileTree.Change

/-!
# Writing files from outside a job

A file that is written changes the tree at one location, and the folders made on the way let its
path be opened.
-/

namespace CommentSweep

namespace FileTree

section Folders

theorem changesWithin_addFolder (tree : FileTree) (location : Location) :
    ChangesWithin (fun _ => False) tree (tree.addFolder location) := by
  unfold addFolder
  split
  · exact .refl _ tree
  · refine ⟨rfl, fun other hf => ?_, fun _ hs => hs, fun _ _ => rfl⟩
    simp only [isFolder, List.any_cons, Bool.or_eq_true] at hf ⊢
    tauto

theorem isFolder_addFolder (tree : FileTree) (location : Location) :
    (tree.addFolder location).isFolder location = true := by
  unfold addFolder
  split
  · next h => simp only [isFolder, h, Bool.or_true, Bool.true_or]
  · simp [isFolder]

/-- Marking folders changes no file and makes every one of them a folder. -/
theorem foldr_addFolder (tree : FileTree) (locations : List Location) :
    let made := locations.foldr (fun location made => made.addFolder location) tree
    ChangesWithin (fun _ => False) tree made ∧
      ∀ location ∈ locations, made.isFolder location = true := by
  induction locations with
  | nil => exact ⟨.refl _ tree, nofun⟩
  | cons location rest ih =>
    obtain ⟨hrest, hfolders⟩ := ih
    have hadd := changesWithin_addFolder
      (rest.foldr (fun location made => made.addFolder location) tree) location
    refine ⟨(hrest.trans hadd).mono fun _ h => h.elim id id, ?_⟩
    rw [List.forall_mem_cons]
    exact ⟨isFolder_addFolder _ location, fun other ho => hadd.folder other (hfolders other ho)⟩

end Folders

section Writing

/-- What a path needs to be opened as soon as there is something. -/
structure Openable (path : Text) : Prop where
  nul_notMem : '\x00' ∉ path
  ne_nil : path ≠ []
  path_short : (encode path).length < pathLimit
  names_short : ∀ name ∈ pathNames path, (encode name).length ≤ nameLimit

/-- Writing a file changes the tree where the path writes. -/
theorem changesWithin_write (tree : FileTree) (path : Text) (bytes : Bytes) (mode : Option Nat) :
    ChangesWithin (· = tree.locate path) tree (tree.write path bytes mode) := by
  have hfolders := (tree.foldr_addFolder (trail (tree.start path) (pathNames path).dropLast)).1
  exact (hfolders.trans (changesWithin_put _ _ _)).mono fun _ h => h.resolve_left id

/-- Names lead to a file if the way to it goes through folders. -/
theorem foldlM_enter_eq_ok {tree : FileTree} {names : List Text}
    (hl : ∀ name ∈ names, (encode name).length ≤ nameLimit) {start : Location}
    (hf : ∀ location ∈ trail start names.dropLast, tree.isFolder location = true)
    (hs : (tree.file? (names.foldl follow start)).isSome = true) :
    names.foldlM tree.enter start = .ok (names.foldl follow start) := by
  induction names generalizing start with
  | nil => rfl
  | cons name rest ih =>
    obtain ⟨hname, hrest⟩ := List.forall_mem_cons.mp hl
    cases rest with
    | nil =>
      have hstart := hf start List.mem_cons_self
      exact foldlM_enter_cons_eq_ok_iff.mpr ⟨follow start name,
        enter_eq_ok_iff.mpr ⟨hstart, hname, Or.inr hs, rfl⟩, rfl⟩
    | cons second rest =>
      rw [List.dropLast_cons_cons, trail, List.forall_mem_cons] at hf
      have hnext : tree.isFolder (follow start name) = true := by
        refine hf.2 _ ?_
        cases (second :: rest).dropLast <;> exact List.mem_cons_self
      exact foldlM_enter_cons_eq_ok_iff.mpr ⟨follow start name,
        enter_eq_ok_iff.mpr ⟨hf.1, hname, Or.inl hnext, rfl⟩, ih hrest hf.2 hs⟩

theorem exists_file?_write (tree : FileTree) (path : Text) (bytes : Bytes) (mode : Option Nat) :
    ∃ bits, (tree.write path bytes mode).file? (tree.locate path) = some ⟨bytes, bits⟩ := by
  simp only [write, file?_put, ite_true, Option.some.injEq, File.mk.injEq, true_and, exists_eq']

/-- A path leads to where it was written, because the folders on the way were made. -/
theorem resolve_write (tree : FileTree) {path : Text} (h : Openable path) (bytes : Bytes)
    (mode : Option Nat) :
    (tree.write path bytes mode).resolve path = .ok (tree.locate path) := by
  have hchange := tree.changesWithin_write path bytes mode
  obtain ⟨bits, hfile⟩ := tree.exists_file?_write path bytes mode
  refine resolve_eq_ok_iff.mpr ⟨⟨h.nul_notMem, h.ne_nil, h.path_short⟩, ?_⟩
  rw [start, hchange.working]
  refine foldlM_enter_eq_ok h.names_short (fun location hl => ?_) ?_
  · have hmade := (tree.foldr_addFolder _).2 location hl
    exact (changesWithin_put _ _ _).folder location hmade
  · change ((tree.write path bytes mode).file? (tree.locate path)).isSome = true
    rw [hfile]
    rfl

/-- What was written can be read. -/
theorem openPath_write (tree : FileTree) {path : Text} (h : Openable path) (bytes : Bytes)
    (mode : Option Nat) :
    (tree.write path bytes mode).openPath path = .ok (.file bytes) := by
  obtain ⟨bits, hfile⟩ := tree.exists_file?_write path bytes mode
  exact openPath_eq_file (tree.resolve_write h bytes mode) hfile

end Writing

end FileTree

end CommentSweep
