import CommentSweep.CommandLine.Sweep
import CommentSweep.Proofs.Job.Applying
import CommentSweep.Proofs.Sweep.Selection

/-!
# Accounts of sweeps and exit codes

A list that fails is accounted for and otherwise as good as not there. A sweep fails as a whole only
if its control document cannot be read.
-/

namespace CommentSweep

/-- How the account of lists that were applied to a tree is drawn, and what becomes of the tree. -/
structure BatchAccounted (tree : FileTree) (lists : List RemovalList) (dryRun : Bool)
    (swept : Completion Account) : Prop where
  processed : swept.value.processed = lists.length
  /-- The lists that fail, in order, are those with a path that cannot be read as a text. -/
  failed : swept.value.failed = lists.filterMap tree.failed?
  /-- No list makes a later one fail or keeps it from failing. -/
  failed_atTurn : ∀ (place : Nat) (list : RemovalList),
    (tree.atTurn lists dryRun place).failed? list = tree.failed? list
  leftovers : swept.value.leftovers =
    (List.finRange lists.length).filterMap fun place : Fin lists.length =>
      (tree.atTurn lists dryRun place).leftovers? (lists.get place)
  /-- A list has leftovers if it can be read and entries were not found in the text at its turn. -/
  isSome_leftovers?_iff : ∀ place : Fin lists.length,
    ((tree.atTurn lists dryRun place).leftovers? (lists.get place)).isSome = true ↔
      ∃ content, (tree.atTurn lists dryRun place).readText (lists.get place).path = .ok content ∧
        (sweepText content (lists.get place).entries).unmatched ≠ []
  /-- The counts in the leftovers of a list are those of its entries. -/
  counts : ∀ (place : Fin lists.length) (content : Text) (left : Leftovers),
    (tree.atTurn lists dryRun place).readText (lists.get place).path = .ok content →
      (tree.atTurn lists dryRun place).leftovers? (lists.get place) = some left →
        left.path = (lists.get place).path ∧ left.total = (lists.get place).entries.length ∧
          left.items = (sweepText content (lists.get place).entries).unmatched ∧
          left.count + (sweepText content (lists.get place).entries).matched = left.total
  /-- Without the lists that fail the rest comes to the same. -/
  isolated : let kept := lists.filter fun list => (tree.failed? list).isNone
    ((sweepAll kept dryRun).run tree).tree = swept.tree ∧
      ((sweepAll kept dryRun).run tree).value.rewritten = swept.value.rewritten ∧
      ((sweepAll kept dryRun).run tree).value.leftovers = swept.value.leftovers

/-- A sweep by a control document ends with an account or as a failure that changes nothing. -/
structure SweepAccounted (tree : FileTree) (control : Text) (dryRun : Bool)
    (swept : Completion (Except Failure Account)) : Prop where
  of_readText : ∀ document, tree.readText control = .ok document →
    swept.value = .ok ((sweepAll (parseDocument document) dryRun).run tree).value ∧
      swept.tree = ((sweepAll (parseDocument document) dryRun).run tree).tree
  failure_iff : (∃ failure, swept.value = .error failure) ↔
    ¬ ∃ document, tree.readText control = .ok document
  tree_eq_of_failure : (∃ failure, swept.value = .error failure) → swept.tree = tree

/-- The exit code tells whether the control document could be read and no file failed. -/
structure ExitAccounted (tree : FileTree) (control : Text) (dryRun : Bool)
    (ended : Exit × FileTree) : Prop where
  tree_eq : ended.2 = ((sweepByDocument control dryRun).run tree).tree
  code_eq_zero_iff : ended.1.code = 0 ↔ ∃ document, tree.readText control = .ok document ∧
    ((sweepAll (parseDocument document) dryRun).run tree).value.failed = []
  code_eq_one_iff : ended.1.code = 1 ↔ ¬ ended.1.code = 0

section Batches

theorem length_unmatched_add_matched (content : Text) (entries : List Text) :
    (sweepText content entries).unmatched.length + (sweepText content entries).matched =
      entries.length := by
  have hle := matched_sweepText_le content entries
  change (leftoversFrom (sweepText content entries).matched entries).length + _ = _
  rw [leftoversFrom, List.length_map, List.length_drop, List.length_zipIdx]
  omega

/-- Without the lists that fail the rest comes to the same. -/
theorem sweepEach_filter_failed (lists : List RemovalList) (tree : FileTree) (dryRun : Bool) :
    let kept := lists.filter fun list => (tree.failed? list).isNone
    tree.swept dryRun kept = tree.swept dryRun lists ∧
      ((sweepEach dryRun kept).run tree).value =
        ((sweepEach dryRun lists).run tree).value.filter (·.failure?.isNone) := by
  induction lists generalizing tree with
  | nil => exact ⟨rfl, rfl⟩
  | cons list rest ih =>
    obtain ⟨htree, hvalue⟩ := ih (tree.swept dryRun [list])
    simp only [FileTree.failed?_swept] at htree hvalue
    rw [List.filter_cons, value_sweepEach_cons, List.filter_cons, ← hvalue]
    cases hread : tree.readText list.path with
    | ok content =>
      have hkeep : tree.failed? list = none := by simp only [FileTree.failed?, hread]
      simp only [hkeep, Option.isNone_none, ite_true]
      rw [FileTree.swept_cons, htree, ← FileTree.swept_cons, value_sweepEach_cons, hread]
      exact ⟨rfl, rfl⟩
    | error fault =>
      have hdrop : (tree.failed? list).isNone = false := by simp only [FileTree.failed?, hread]; rfl
      have hsame : tree.swept dryRun [list] = tree := FileTree.swept_singleton_of_error hread
      rw [hsame] at htree ⊢
      rw [FileTree.swept_cons, hsame]
      simp only [hdrop]
      exact ⟨htree, rfl⟩

/-- Lists that are applied are accounted for one by one. -/
theorem batchAccounted_sweepAll (tree : FileTree) (lists : List RemovalList) (dryRun : Bool) :
    BatchAccounted tree lists dryRun ((sweepAll lists dryRun).run tree) := by
  constructor
  case processed => exact processed_sweepAll tree dryRun lists
  case failed => exact failed_sweepAll tree dryRun lists
  case failed_atTurn =>
    intro place list
    rw [FileTree.atTurn_eq_swept, FileTree.failed?_swept]
  case leftovers => exact leftovers_sweepAll tree dryRun lists
  case isSome_leftovers?_iff =>
    intro place
    rw [FileTree.leftovers?]
    cases (tree.atTurn lists dryRun place).readText (lists.get place).path with
    | error fault => simp
    | ok content => simp [Swept.leftovers?]
  case counts =>
    intro place content left hread hleft
    simp only [FileTree.leftovers?, hread, Swept.leftovers?] at hleft
    split at hleft
    · cases hleft
    · obtain rfl := Option.some.inj hleft
      exact ⟨rfl, rfl, rfl, length_unmatched_add_matched content (lists.get place).entries⟩
  case isolated =>
    intro kept
    obtain ⟨hkept, hvalues⟩ := sweepEach_filter_failed lists tree dryRun
    rw [tree_sweepAll, tree_sweepAll, value_sweepAll, value_sweepAll, hvalues]
    exact ⟨hkept, Account.of_filter_failed dryRun _⟩

end Batches

section Documents

variable {tree : FileTree} {control : Text}

theorem FileTree.openPath_of_readText {document : Text} (h : tree.readText control = .ok document) :
    tree.openPath control = .ok (.file (encode document)) := by
  obtain ⟨location, file, hr, hf, hb⟩ := readText_eq_ok_iff.mp h
  rw [openPath_eq_file hr hf, hb]

theorem exists_parseDocumentBytes_error {bytes : Bytes} (h : decode? bytes = none) :
    ∃ failure, (parseDocumentBytes bytes).result = .error failure := by
  rcases decodeLines_cases (byteLines bytes) with ⟨texts, ht, -⟩ | ⟨texts, line, rest, -, -, hr⟩
  · obtain ⟨text, rfl⟩ := exists_encode_of_pieces (decode?_ne_none_of_map_cutEnding ht)
    rw [decode?_encode] at h
    cases h
  · exact ⟨⟨[.readingControlLine (texts.length + 1)], .notUtf8⟩, by
      simp only [parseDocumentBytes, hr]⟩

/-- A control document that cannot be read as a text fails to load, and nothing has changed. -/
theorem exists_run_loadDocument_error {fault : Fault} (h : tree.readText control = .error fault) :
    ∃ failure notices, (loadDocument control).run tree = ⟨.error failure, tree, notices⟩ := by
  cases ho : tree.openPath control with
  | error cause =>
    refine ⟨⟨[.openingControlDocument control], cause⟩, [], ?_⟩
    simp [loadDocument, Job.run_bind, ho]
  | ok opened =>
    rw [FileTree.readText, ho] at h
    cases opened with
    | folder =>
      refine ⟨⟨[.readingControlDocument control, .readingControlLine 1], .isADirectory⟩, [], ?_⟩
      simp [loadDocument, Job.run_bind, ho, Opened.read]
    | file bytes =>
      have hbytes : decode? bytes = none := by
        refine Option.eq_none_iff_forall_ne_some.mpr fun text hd => ?_
        have hread := FileTree.readText_file_eq_ok_iff.mpr (encode_of_decode? hd)
        cases hread.symm.trans h
      obtain ⟨failure, hfailure⟩ := exists_parseDocumentBytes_error hbytes
      refine ⟨failure.within (.readingControlDocument control),
        (parseDocumentBytes bytes).events.map BlockEvent.notice, ?_⟩
      simp [loadDocument, Job.run_bind, ho, Opened.read, hfailure, Except.mapError]

/-- By a document that can be read, a sweep applies its lists and accounts for them. -/
theorem run_sweepByDocument_of_ok {document : Text} (dryRun : Bool)
    (h : tree.readText control = .ok document) :
    ((sweepByDocument control dryRun).run tree).value =
        .ok ((sweepAll (parseDocument document) dryRun).run tree).value ∧
      ((sweepByDocument control dryRun).run tree).tree =
        ((sweepAll (parseDocument document) dryRun).run tree).tree := by
  obtain ⟨hvalue, htree⟩ := run_sweepByDocument dryRun (FileTree.openPath_of_readText h)
  obtain ⟨hall, htree'⟩ := run_sweepAll (parseDocument document) dryRun tree
  exact ⟨hvalue.trans (congrArg _ hall.symm), htree.trans htree'.symm⟩

/-- Sweeping by a control document that cannot be read is a failure and changes nothing. -/
theorem run_sweepByDocument_of_error {fault : Fault} (dryRun : Bool)
    (h : tree.readText control = .error fault) :
    (∃ failure, ((sweepByDocument control dryRun).run tree).value = .error failure) ∧
      ((sweepByDocument control dryRun).run tree).tree = tree := by
  obtain ⟨failure, notices, hrun⟩ := exists_run_loadDocument_error h
  simp [sweepByDocument, Job.run_bind, hrun]

theorem sweepAccounted_sweepByDocument (tree : FileTree) (control : Text) (dryRun : Bool) :
    SweepAccounted tree control dryRun ((sweepByDocument control dryRun).run tree) := by
  cases hread : tree.readText control with
  | ok document =>
    have hvalue := (run_sweepByDocument_of_ok dryRun hread).1
    have hnot : ¬ ∃ failure,
        ((sweepByDocument control dryRun).run tree).value = .error failure := by
      rw [hvalue]
      simp
    exact ⟨fun _ => run_sweepByDocument_of_ok dryRun,
      iff_of_false hnot (not_not.mpr ⟨document, hread⟩), fun h => absurd h hnot⟩
  | error fault =>
    obtain ⟨hvalue, htree⟩ := run_sweepByDocument_of_error dryRun hread
    have hnot : ¬ ∃ document, tree.readText control = .ok document := by
      rw [hread]
      simp
    exact ⟨fun _ => run_sweepByDocument_of_ok dryRun, iff_of_true hvalue hnot, fun _ => htree⟩

end Documents

section Programs

/-- Arguments that are taken give a value to every option that must have one. -/
theorem Grammar.isSome_value?_of_read {grammar : Grammar} {arguments : List Text}
    {given : Arguments} (h : grammar.read arguments = .ok given) {name : Text}
    (hn : name ∈ grammar.required) : (given.value? name).isSome = true := by
  simp only [Grammar.read, Bind.bind, Except.bind] at h
  split at h
  · cases h
  · split at h
    · next hnone =>
      obtain rfl := Except.ok.inj h
      rw [Option.isSome_iff_ne_none]
      simpa using List.find?_eq_none.mp hnone name hn
    · cases h

/-- The exit code after a sweep is 0 if no file failed, else 1. -/
theorem Account.code_exit (account : Account) :
    account.exit.code = if account.failed = [] then 0 else 1 := by
  unfold Account.exit
  cases account.failed <;> rfl

variable {arguments : List Text} {given : Arguments} {control : Text}

/-- The program leaves the tree that its sweep leaves, and exits with the code of the account. -/
theorem run_sweepProgram (h : sweepGrammar.read arguments = .ok given)
    (hcontrol : given.value? controlOption.long = some control) (asked : Option Threshold)
    (tree : FileTree) :
    let swept := (sweepByDocument control (given.hasFlag dryRunOption.long)).run tree
    ((sweepProgram arguments asked).run tree).2 = swept.tree ∧
      ((sweepProgram arguments asked).run tree).1.code =
        match swept.value with
        | .ok account => account.exit.code
        | .error _ => 1 := by
  simp only [sweepProgram, h, Program.run, sweepJob, hcontrol, Option.getD_some, Job.run_bind]
  cases ((sweepByDocument control (given.hasFlag dryRunOption.long)).run tree).value <;>
    exact ⟨rfl, rfl⟩

theorem exitAccounted_sweepProgram (h : sweepGrammar.read arguments = .ok given)
    (hcontrol : given.value? controlOption.long = some control) (asked : Option Threshold)
    (tree : FileTree) :
    ExitAccounted tree control (given.hasFlag dryRunOption.long)
      ((sweepProgram arguments asked).run tree) := by
  obtain ⟨htree, hcode⟩ := run_sweepProgram h hcontrol asked tree
  have hsweep := sweepAccounted_sweepByDocument tree control (given.hasFlag dryRunOption.long)
  by_cases hread : ∃ document, tree.readText control = .ok document
  · obtain ⟨document, hread⟩ := hread
    rw [(hsweep.of_readText document hread).1] at hcode
    simp only [Account.code_exit] at hcode
    refine ⟨htree, ?_, ?_⟩
    · simp [hcode, hread]
    · rw [hcode]
      split <;> simp
  · obtain ⟨failure, hfailure⟩ := hsweep.failure_iff.mpr hread
    rw [hfailure] at hcode
    refine ⟨htree, iff_of_false ?_ ?_, ?_⟩
    · simp [hcode]
    · rintro ⟨document, hd, -⟩
      exact hread ⟨document, hd⟩
    · simp [hcode]

/-- Every list is accounted for, and one that fails makes no difference to the others. The program
exits with 0 exactly if its document can be read and no file fails. -/
theorem sweepProgram_accounted (h : sweepGrammar.read arguments = .ok given)
    (asked : Option Threshold) (tree : FileTree) :
    (∀ lists dryRun, BatchAccounted tree lists dryRun ((sweepAll lists dryRun).run tree)) ∧
      (∀ control dryRun,
        SweepAccounted tree control dryRun ((sweepByDocument control dryRun).run tree)) ∧
      ∃ control, given.value? controlOption.long = some control ∧
        ExitAccounted tree control (given.hasFlag dryRunOption.long)
          ((sweepProgram arguments asked).run tree) := by
  have hrequired : controlOption.long ∈ sweepGrammar.required := List.mem_cons_self
  obtain ⟨control, hcontrol⟩ :=
    Option.isSome_iff_exists.mp (Grammar.isSome_value?_of_read h hrequired)
  exact ⟨batchAccounted_sweepAll tree, sweepAccounted_sweepByDocument tree, control, hcontrol,
    exitAccounted_sweepProgram h hcontrol asked tree⟩

/-- A missing file between two others, and an entry that is not found. -/
theorem sweepProgram_accounted_missing_file :
    let arguments : List Text := ["-f".toList, "list.txt".toList]
    let given : Arguments := ⟨[], [("control-path".toList, "list.txt".toList)], []⟩
    let document : Text := "# a.c\n// one\n// two\n\n# lost.c\n// x\n\n# b.c\n// y\n".toList
    let tree : FileTree :=
      ⟨[(["list.txt".toList], ⟨encode document, 0o644⟩),
        (["a.c".toList], ⟨encode "// one\nint a;\n".toList, 0o644⟩),
        (["b.c".toList], ⟨encode "int b;\n// y\n".toList, 0o600⟩)], [], []⟩
    let account := ((sweepAll (parseDocument document) false).run tree).value
    sweepGrammar.read arguments = .ok given ∧
      account.failed = [⟨"lost.c".toList, ⟨[.readingFile "lost.c".toList], .notFound⟩⟩] ∧
      account.leftovers = [⟨"a.c".toList, 2, [⟨1, "// two".toList⟩]⟩] ∧
      account.processed = 3 ∧
      ((sweepProgram arguments none).run tree).1.code = 1 := by
  intro arguments given document tree account
  have hgiven : sweepGrammar.read arguments = .ok given := by decide +kernel
  have hread : tree.readText "list.txt".toList = .ok document := by decide +kernel
  obtain ⟨hbatch, -, control, hcontrol, hexit⟩ := sweepProgram_accounted hgiven none tree
  have hlist : account.failed =
      [⟨"lost.c".toList, ⟨[.readingFile "lost.c".toList], .notFound⟩⟩] := by
    rw [(hbatch _ false).failed]
    decide +kernel
  refine ⟨hgiven, hlist, ?_, ?_, ?_⟩
  · rw [(hbatch _ false).leftovers]
    decide +kernel
  · rw [(hbatch _ false).processed]
    decide +kernel
  · obtain rfl : "list.txt".toList = control := Option.some.inj hcontrol
    rw [hexit.code_eq_one_iff, hexit.code_eq_zero_iff]
    rintro ⟨other, ho, hnone⟩
    obtain rfl := Except.ok.inj (hread.symm.trans ho)
    exact List.cons_ne_nil _ _ (hlist.symm.trans hnone)

end Programs

end CommentSweep
