import CommentSweep.Capture
import CommentSweep.Rehearsal
import CommentSweep.Sweep.Files
import CommentSweep.Proofs.ControlDocument.Decoding
import CommentSweep.Proofs.FileTree.Staging

/-!
# What jobs come to

Each part of the capture and of the sweep has its value, the tree it leaves and its notices.
-/

namespace CommentSweep

namespace Job

section Requests

variable (around : Surroundings) (tree : FileTree)

@[simp] theorem runIn_readText (path : Text) :
    (readText path).runIn around tree = ⟨around.readText tree path, tree, []⟩ := rfl

@[simp] theorem runIn_tell (notice : Notice) :
    (tell notice).runIn around tree = ⟨(), tree, [notice]⟩ := rfl

@[simp] theorem runIn_replaceText (path text : Text) :
    (replaceText path text).runIn around tree =
      ⟨(around.replace tree path (encode text)).1, (around.replace tree path (encode text)).2, []⟩ :=
  rfl

@[simp] theorem runIn_tellAll (notices : List Notice) :
    (tellAll notices).runIn around tree = ⟨(), tree, notices⟩ := by
  induction notices with
  | nil => rfl
  | cons notice rest ih =>
    change (Job.notify notice (tellAll rest)).runIn around tree = _
    rw [runIn, ih]

@[simp] theorem run_access (path : Text) :
    (access path).run tree = ⟨tree.openPath path, tree, []⟩ := rfl

@[simp] theorem run_readText (path : Text) :
    (readText path).run tree = ⟨tree.readText path, tree, []⟩ := rfl

@[simp] theorem run_tell (notice : Notice) : (tell notice).run tree = ⟨(), tree, [notice]⟩ := rfl

@[simp] theorem run_tellAll (notices : List Notice) :
    (tellAll notices).run tree = ⟨(), tree, notices⟩ := runIn_tellAll .undisturbed tree notices

end Requests

end Job

section Capturing

variable {tree : FileTree}

/-- A file that can be read is captured. -/
theorem run_captureFile {path content : Text} (h : tree.readText path = .ok content) :
    (captureFile path).run tree = ⟨.ok ⟨path, capturedLines content⟩, tree,
      [.captured path (capturedLines content).length]⟩ := by
  simp [captureFile, Job.run_bind, h]

/-- Files that can be read are captured in order. -/
theorem run_captureFiles {files : List NamedText}
    (h : ∀ file ∈ files, tree.readText file.path = .ok file.content) :
    (captureFiles (files.map NamedText.path)).run tree =
      ⟨.ok (files.map NamedText.capture), tree,
        files.map fun file => .captured file.path (capturedLines file.content).length⟩ := by
  induction files with
  | nil => rfl
  | cons file rest ih =>
    obtain ⟨hfile, hrest⟩ := List.forall_mem_cons.mp h
    simp [captureFiles, Job.run_bind, run_captureFile hfile, ih hrest, NamedText.capture,
      Except.map]

/-- The captures of files that can be read are written as one document. -/
theorem run_captureDocument {files : List NamedText}
    (h : ∀ file ∈ files, tree.readText file.path = .ok file.content) :
    (captureDocument (files.map NamedText.path)).run tree =
      ⟨.ok (writeDocument (files.map NamedText.capture)), tree,
        files.map fun file => .captured file.path (capturedLines file.content).length⟩ := by
  simp [captureDocument, Job.run_bind, run_captureFiles h, Except.map]

end Capturing

section Sweeping

variable {tree after : FileTree} {path content : Text} {entries : List Text}

/-- A file that cannot be read is reported with the fault. -/
theorem runIn_sweepFile_of_error {around : Surroundings} {fault : Fault}
    (h : around.readText tree path = .error fault) (dryRun : Bool) :
    (sweepFile path entries dryRun).runIn around tree =
      ⟨.error ⟨[.readingFile path], fault⟩, tree, []⟩ := by
  simp [sweepFile, Job.runIn_bind, h]

/-- On a dry run, and if its text stays the same, a file is not written. -/
theorem runIn_sweepFile_of_kept {around : Surroundings} {dryRun : Bool}
    (h : around.readText tree path = .ok content)
    (hk : (sweepText content entries).content = content ∨ dryRun = true) :
    (sweepFile path entries dryRun).runIn around tree =
      ⟨.ok (.of path content entries.length (sweepText content entries)), tree,
        [.compared path (sweepText content entries).matched entries.length]⟩ := by
  rcases hk with hk | rfl
  · simp [sweepFile, Job.runIn_bind, h, FileSweep.of, hk]
  · simp [sweepFile, Job.runIn_bind, h]

/-- A file whose text changes is replaced by the swept text. -/
theorem runIn_sweepFile_of_ne {around : Surroundings}
    (h : around.readText tree path = .ok content)
    (hn : (sweepText content entries).content ≠ content)
    (hr : around.replace tree path (encode (sweepText content entries).content) = (.ok (), after)) :
    (sweepFile path entries false).runIn around tree =
      ⟨.ok (.of path content entries.length (sweepText content entries)), after,
        [.compared path (sweepText content entries).matched entries.length, .rewritten path]⟩ := by
  simp [sweepFile, Job.runIn_bind, h, FileSweep.of, hn, hr]

/-- A file that cannot be replaced is reported with the failure. -/
theorem runIn_sweepFile_of_refused {around : Surroundings} {failure : Failure}
    (h : around.readText tree path = .ok content)
    (hn : (sweepText content entries).content ≠ content)
    (hr : around.replace tree path (encode (sweepText content entries).content) =
      (.error failure, after)) :
    (sweepFile path entries false).runIn around tree = ⟨.error failure, after,
      [.compared path (sweepText content entries).matched entries.length]⟩ := by
  simp [sweepFile, Job.runIn_bind, h, FileSweep.of, hn, hr]

/-- A control document that can be opened is read like the text that its bytes encode. -/
theorem run_loadDocument {document : Text}
    (h : tree.openPath path = .ok (.file (encode document))) :
    (loadDocument path).run tree = ⟨.ok (parseDocument document), tree,
      (documentEvents document).map BlockEvent.notice⟩ := by
  simp [loadDocument, Job.run_bind, h, Opened.read, parseDocumentBytes_encode, Except.mapError]

/-- Whether there is a list at all shows in the notices only. -/
theorem runIn_sweepAll (around : Surroundings) (lists : List RemovalList) (dryRun : Bool)
    (tree : FileTree) :
    ((sweepAll lists dryRun).runIn around tree).value =
        .of dryRun ((sweepEach dryRun lists).runIn around tree).value ∧
      ((sweepAll lists dryRun).runIn around tree).tree =
        ((sweepEach dryRun lists).runIn around tree).tree := by
  cases lists <;> simp [sweepAll, Job.runIn_bind]

theorem run_sweepAll (lists : List RemovalList) (dryRun : Bool) (tree : FileTree) :
    ((sweepAll lists dryRun).run tree).value =
        .of dryRun ((sweepEach dryRun lists).run tree).value ∧
      ((sweepAll lists dryRun).run tree).tree = ((sweepEach dryRun lists).run tree).tree :=
  runIn_sweepAll .undisturbed lists dryRun tree

/-- Sweeping by a control document that can be opened is applying its lists. -/
theorem run_sweepByDocument {document : Text} (dryRun : Bool)
    (h : tree.openPath path = .ok (.file (encode document))) :
    let swept := (sweepByDocument path dryRun).run tree
    let applied := (sweepEach dryRun (parseDocument document)).run tree
    swept.value = .ok (.of dryRun applied.value) ∧ swept.tree = applied.tree := by
  obtain ⟨hvalue, htree⟩ := run_sweepAll (parseDocument document) dryRun tree
  simp [sweepByDocument, Job.run_bind, run_loadDocument h, hvalue, htree]

end Sweeping

end CommentSweep
