import CommentSweep.Proofs.Job.Applying
import CommentSweep.Proofs.Sweep.Shrinking

/-!
# Sweeping a file in its place

A sweep touches nothing but the bytes of the file that the path leads to, and a sweep that fails
touches nothing.
-/

namespace CommentSweep

section Frame

/-- What a sweep of the file at a path leaves as it is, and what becomes of the file. -/
structure SweptInPlace (tree : FileTree) (path : Text) (entries : List Text) (dryRun : Bool)
    (swept : Completion (Except Failure FileSweep)) : Prop where
  /-- The job fails exactly if the path leads to no file that holds a text. -/
  failure_iff : (∃ failure, swept.value = .error failure) ↔
    ¬ ∃ location file content, tree.resolve path = .ok location ∧
      tree.file? location = some file ∧ decode? file.bytes = some content
  tree_eq_of_failure : (∃ failure, swept.value = .error failure) → swept.tree = tree
  /-- No file comes or goes, a staged one included. -/
  locations : swept.tree.files.map Prod.fst = tree.files.map Prod.fst
  folders : swept.tree.folders = tree.folders
  working : swept.tree.working = tree.working
  modes : ∀ location : Location,
    (swept.tree.file? location).map File.mode = (tree.file? location).map File.mode
  /-- Files that the path does not lead to keep their bytes. -/
  elsewhere : ∀ location : Location, tree.resolve path ≠ .ok location →
    swept.tree.file? location = tree.file? location
  /-- The file that the path leads to holds the swept text, or on a dry run its old bytes. -/
  named : ∀ (location : Location) (file : File) (content : Text),
    tree.resolve path = .ok location → tree.file? location = some file →
      decode? file.bytes = some content → swept.tree.file? location =
        some { file with
          bytes := if dryRun then file.bytes else encode (sweepText content entries).content }
  /-- What is reported, or the failure, is that of the job with any other choice of a dry run. -/
  value_eq : ∀ other : Bool, ((sweepFile path entries other).run tree).value = swept.value

variable (tree : FileTree) (path : Text) (entries : List Text) (dryRun : Bool)

/-- What comes of a file does not depend on whether it is written. -/
theorem value_sweepFile : ((sweepFile path entries dryRun).run tree).value =
    (RemovalList.outcome ⟨path, entries⟩ (tree.readText path)).result := by
  obtain ⟨notices, hrun⟩ := exists_run_sweepFile dryRun ⟨path, entries⟩ tree
  rw [hrun]

theorem tree_sweepFile : ((sweepFile path entries dryRun).run tree).tree =
    tree.edit path fun text => if dryRun then text else (sweepText text entries).content := by
  obtain ⟨notices, hrun⟩ := exists_run_sweepFile dryRun ⟨path, entries⟩ tree
  rw [hrun]
  cases dryRun with
  | true => exact (FileTree.edit_eq_self fun _ _ => rfl).symm
  | false => rfl

/-- Sweeping a file fails exactly if no text can be read through the path. -/
theorem exists_failure_sweepFile_iff :
    (∃ failure, ((sweepFile path entries dryRun).run tree).value = .error failure) ↔
      ¬ ∃ content, tree.readText path = .ok content := by
  rw [value_sweepFile]
  cases tree.readText path with
  | error fault => simp [RemovalList.outcome]
  | ok content => simp [RemovalList.outcome]

/-- A sweep changes nothing but the bytes of the file that the path leads to. -/
theorem sweptInPlace_sweepFile :
    SweptInPlace tree path entries dryRun ((sweepFile path entries dryRun).run tree) := by
  have hfail := exists_failure_sweepFile_iff tree path entries dryRun
  have htext : (∃ content, tree.readText path = .ok content) ↔
      ∃ location file content, tree.resolve path = .ok location ∧
        tree.file? location = some file ∧ decode? file.bytes = some content := by
    simp only [FileTree.readText_eq_ok_iff, decode?_eq_some_iff]
    tauto
  have htree := tree_sweepFile tree path entries dryRun
  constructor
  case failure_iff => rw [hfail, htext]
  case tree_eq_of_failure =>
    intro h
    rw [htree]
    exact FileTree.edit_eq_self fun text ht => absurd ⟨text, ht⟩ (hfail.mp h)
  case locations =>
    rw [htree]
    exact (tree.locations_edit path _).1
  case folders =>
    rw [htree]
    exact (tree.locations_edit path _).2
  case working =>
    rw [htree]
    exact (tree.sameShape_edit path _).working
  case modes =>
    intro location
    rw [htree, FileTree.file?_edit]
    split
    · rw [Option.map_map]
      exact congrArg (Option.map · _) (funext fun file => file.mode_edit _)
    · rfl
  case elsewhere =>
    intro location hne
    rw [htree, FileTree.file?_edit, if_neg hne]
  case named =>
    intro location file content hr hf hd
    rw [htree, FileTree.file?_edit, if_pos hr, hf, Option.map_some, file.edit_eq hd]
    cases dryRun with
    | true => simp [encode_of_decode? hd]
    | false => rfl
  case value_eq =>
    intro other
    rw [value_sweepFile, value_sweepFile]

/-- A file in a folder, reached by a way around, and a file of the same name above it. -/
theorem sweptInPlace_sweepFile_around :
    let tree : FileTree :=
      ⟨[(["src".toList, "a.c".toList], ⟨encode "x; // é\ny;\n".toList, 0o640⟩),
        (["a.c".toList], ⟨encode "// é\n".toList, 0o755⟩)], [], []⟩
    let path : Text := "./src/../src//a.c".toList
    let entries : List Text := ["x; // é".toList]
    ((sweepFile path entries false).run tree).tree.file? ["src".toList, "a.c".toList] =
        some ⟨encode "x;\ny;\n".toList, 0o640⟩ ∧
      ((sweepFile path entries false).run tree).tree.file? ["a.c".toList] =
        some ⟨encode "// é\n".toList, 0o755⟩ ∧
      ((sweepFile path entries true).run tree).tree.file? ["src".toList, "a.c".toList] =
        some ⟨encode "x; // é\ny;\n".toList, 0o640⟩ := by
  intro tree path entries
  have hresolve : tree.resolve path = .ok ["src".toList, "a.c".toList] := by decide +kernel
  have hdecode : decode? (encode "x; // é\ny;\n".toList) = some "x; // é\ny;\n".toList :=
    decode?_encode _
  have hswept := sweptInPlace_sweepFile tree path entries false
  have htried := sweptInPlace_sweepFile tree path entries true
  refine ⟨?_, ?_, ?_⟩
  · rw [hswept.named _ _ _ hresolve rfl hdecode]
    decide +kernel
  · rw [hswept.elsewhere _ (by rw [hresolve]; decide +kernel)]
    rfl
  · exact htried.named _ _ _ hresolve rfl hdecode

end Frame

section Changes

end Changes

end CommentSweep
