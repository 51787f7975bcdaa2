import CommentSweep.Proofs.FileTree.Writing
import CommentSweep.Proofs.Job.Running
import CommentSweep.Proofs.Sweep.Rehearsal

/-!
# Capturing files and sweeping what was captured

The document that is captured from files at different locations, written to a file beside them and
swept by, strips the comments of exactly these files.
-/

namespace CommentSweep

namespace FileTree

/-- Whether one of the files lies at a location. -/
def PlaceOf (tree : FileTree) (files : List NamedText) (location : Location) : Prop :=
  ∃ file ∈ files, tree.resolve file.path = .ok location

/-- Files that can be read from a tree and lie at different locations. -/
structure Holds (tree : FileTree) (files : List NamedText) : Prop where
  read : ∀ file ∈ files, tree.readText file.path = .ok file.content
  apart : files.Pairwise fun earlier later =>
    tree.resolve earlier.path ≠ tree.resolve later.path

namespace Holds

variable {places : Location → Prop} {tree after : FileTree} {files : List NamedText}
  {file : NamedText}

theorem path_ne_nil (h : tree.Holds files) (hf : file ∈ files) : file.path ≠ [] := by
  obtain ⟨location, -, hr, -⟩ := readText_eq_ok_iff.mp (h.read file hf)
  exact (resolve_eq_ok_iff.mp hr).1.2.1

theorem resolve_eq (h : tree.Holds files) (hc : tree.ChangesWithin places after)
    (hf : file ∈ files) : after.resolve file.path = tree.resolve file.path := by
  obtain ⟨location, -, hr, -⟩ := readText_eq_ok_iff.mp (h.read file hf)
  rw [hc.resolve hr, hr]

theorem placeOf_iff (h : tree.Holds files) (hc : tree.ChangesWithin places after)
    {location : Location} : after.PlaceOf files location ↔ tree.PlaceOf files location := by
  constructor
  · rintro ⟨file, hf, hl⟩
    exact ⟨file, hf, (h.resolve_eq hc hf).symm.trans hl⟩
  · rintro ⟨file, hf, hl⟩
    exact ⟨file, hf, (h.resolve_eq hc hf).trans hl⟩

/-- A change elsewhere leaves the files what they hold. -/
theorem change (h : tree.Holds files) (hc : tree.ChangesWithin places after)
    (hp : ∀ location, tree.PlaceOf files location → ¬ places location) : after.Holds files where
  read file hf := hc.readText (h.read file hf) fun location hl => hp location ⟨file, hf, hl⟩
  apart := by
    refine h.apart.imp_of_mem fun he hl hne => ?_
    rwa [h.resolve_eq hc he, h.resolve_eq hc hl]

theorem filter (h : tree.Holds files) (keep : NamedText → Bool) :
    tree.Holds (files.filter keep) :=
  ⟨fun file hf => h.read file (List.mem_of_mem_filter hf), h.apart.filter keep⟩

/-- A file that is left out lies where none of the others does. -/
theorem not_placeOf_filter (h : tree.Holds files) {keep : NamedText → Bool} (hf : file ∈ files)
    (hk : keep file = false) {location : Location} (hl : tree.resolve file.path = .ok location) :
    ¬ tree.PlaceOf (files.filter keep) location := by
  rintro ⟨other, ho, hp⟩
  obtain ⟨ho, hkeep⟩ := List.mem_filter.mp ho
  have : Std.Symm fun earlier later : NamedText =>
      tree.resolve earlier.path ≠ tree.resolve later.path := ⟨fun _ _ h => h.symm⟩
  by_cases he : file = other
  · rw [← he, hk] at hkeep
    exact Bool.false_ne_true hkeep
  · exact h.apart.forall hf ho he (hl.trans hp.symm)

end Holds

end FileTree

/-- Sweeping the captured lines of a file with comments changes its text and leaves nothing over. -/
theorem FileSweep.of_capturedLines {content : Text} (h : capturedLines content ≠ [])
    (path : Text) :
    FileSweep.of path content (capturedLines content).length
        (sweepText content (capturedLines content)) =
      ⟨path, (capturedLines content).length, true, none⟩ := by
  have hne : withoutComments content ≠ content := mt withoutComments_eq_self_iff.mp h
  simp [FileSweep.of, Swept.leftovers?, matched_capturedLines, unmatched_capturedLines,
    content_capturedLines, hne]

/-- What comes of the captured lines of a file with comments. -/
def NamedText.sweep (file : NamedText) : ListSweep :=
  ⟨file.capture.list, .ok ⟨file.path, (capturedLines file.content).length, true, none⟩⟩

/-- The captured lines of a file with comments are swept out of it. -/
theorem run_sweepList_capture {tree : FileTree} {file : NamedText} {location : Location}
    {old : File} (hr : tree.resolve file.path = .ok location)
    (hf : tree.file? location = some old) (h : tree.readText file.path = .ok file.content)
    (hc : capturedLines file.content ≠ []) :
    ∃ notices, (sweepList false file.capture.list).run tree =
      ⟨file.sweep, tree.put location ⟨encode (withoutComments file.content), old.mode⟩,
        notices⟩ := by
  have hne : withoutComments file.content ≠ file.content := mt withoutComments_eq_self_iff.mp hc
  rw [← content_capturedLines] at hne
  have hread : Surroundings.undisturbed.readText tree file.path = .ok file.content := h
  have hrun := runIn_sweepFile_of_ne hread hne
    (Surroundings.faultless_undisturbed.replace_eq hr hf _)
  rw [FileSweep.of_capturedLines hc, content_capturedLines] at hrun
  simp [sweepList, Job.run, Job.runIn_bind, Capture.list, NamedText.capture, hrun, NamedText.sweep]

/-- Captured lines are swept out of one file after the other. -/
theorem run_sweepEach_captures {files : List NamedText} {tree : FileTree} (h : tree.Holds files)
    (hc : ∀ file ∈ files, capturedLines file.content ≠ []) :
    let swept := (sweepEach false (files.map fun file => file.capture.list)).run tree
    swept.value = files.map NamedText.sweep ∧
      tree.ChangesWithin (tree.PlaceOf files) swept.tree ∧
        ∀ file ∈ files, swept.tree.readText file.path = .ok (withoutComments file.content) := by
  induction files generalizing tree with
  | nil => exact ⟨rfl, .refl _ tree, nofun⟩
  | cons file rest ih =>
    obtain ⟨hfile, hread⟩ := List.forall_mem_cons.mp h.read
    obtain ⟨hother, hapart⟩ := List.pairwise_cons.mp h.apart
    obtain ⟨hfirst, hcommented⟩ := List.forall_mem_cons.mp hc
    have hrest : tree.Holds rest := ⟨hread, hapart⟩
    obtain ⟨location, old, hr, hf, -⟩ := FileTree.readText_eq_ok_iff.mp hfile
    have helsewhere : ∀ place, tree.PlaceOf rest place → place ≠ location := by
      rintro place ⟨other, ho, hp⟩ rfl
      exact hother other ho (hr.trans hp.symm)
    obtain ⟨notices, hrun⟩ := run_sweepList_capture hr hf hfile hfirst
    have hput := tree.changesWithin_put location ⟨encode (withoutComments file.content), old.mode⟩
    have hdone := FileTree.readText_put hr (withoutComments file.content) old.mode
    generalize tree.put location ⟨encode (withoutComments file.content), old.mode⟩ = after at *
    obtain ⟨hvalue, hchange, hswept⟩ := ih (hrest.change hput helsewhere) hcommented
    have hwhole : (sweepEach false ((file :: rest).map fun file => file.capture.list)).run tree =
        let swept := (sweepEach false (rest.map fun file => file.capture.list)).run after
        ⟨file.sweep :: swept.value, swept.tree, notices ++ swept.notices⟩ := by
      simp [sweepEach, Job.run_bind, hrun]
    rw [hwhole]
    refine ⟨congrArg _ hvalue, (hput.trans hchange).mono ?_, List.forall_mem_cons.mpr ⟨?_, hswept⟩⟩
    · rintro place (rfl | hp)
      · exact ⟨file, List.mem_cons_self, hr⟩
      · obtain ⟨other, ho, hp⟩ := (hrest.placeOf_iff hput).mp hp
        exact ⟨other, List.mem_cons_of_mem _ ho, hp⟩
    · refine hchange.readText hdone fun place hp hplace => ?_
      rw [hput.resolve hr] at hp
      exact helsewhere place ((hrest.placeOf_iff hput).mp hplace) (Except.ok.inj hp).symm

/-- Every file with comments is counted, and nothing is left over. -/
theorem Account.of_sweep (files : List NamedText) :
    Account.of false (files.map NamedText.sweep) = ⟨files.length, files.length, [], []⟩ := by
  have hchanged : (files.map NamedText.sweep).countP ListSweep.changed = files.length := by
    rw [List.countP_map, ← List.countP_true]
    rfl
  have hleft : (files.map NamedText.sweep).filterMap ListSweep.leftovers? = [] := by
    rw [List.filterMap_map]
    exact List.filterMap_eq_nil_iff.mpr fun _ _ => rfl
  have hfailed : (files.map NamedText.sweep).filterMap
      (fun one => one.failure?.map (FailedFile.mk one.list.path)) = [] := by
    rw [List.filterMap_map]
    exact List.filterMap_eq_nil_iff.mpr fun _ _ => rfl
  simp only [Account.of, hchanged, hleft, hfailed, List.length_map, Bool.false_eq_true, ite_false]

/-- Sweeping by the document of captured files strips the comments of all of them. -/
theorem run_sweepByDocument_captures {tree : FileTree} {files : List NamedText} {control : Text}
    (h : tree.Holds files)
    (hopen : tree.openPath control =
      .ok (.file (encode (writeDocument (files.map NamedText.capture)))))
    (hpath : ∀ file ∈ files, '\n' ∉ file.path ∧ trim file.path = file.path)
    (hheader : ∀ file ∈ files, ∀ line ∈ capturedLines file.content, ¬ ['#', ' '] <+: line) :
    let swept := (sweepByDocument control false).run tree
    let commented := files.countP fun file => !(capturedLines file.content).isEmpty
    swept.value = .ok ⟨commented, commented, [], []⟩ ∧
      tree.ChangesWithin (tree.PlaceOf files) swept.tree ∧
        ∀ file ∈ files, swept.tree.readText file.path = .ok (withoutComments file.content) := by
  have hlists := parseDocument_captures (fun file hf => ⟨h.path_ne_nil hf, hpath file hf⟩) hheader
  obtain ⟨hvalue, hchange, hswept⟩ := run_sweepEach_captures
    (h.filter fun file => !(capturedLines file.content).isEmpty)
    (fun file hf hn => by simp [hn] at hf)
  rw [← hlists] at hvalue hchange hswept
  obtain ⟨hrun, htree⟩ := run_sweepByDocument false hopen
  intro swept commented
  rw [hrun, htree, hvalue, Account.of_sweep, ← List.countP_eq_length_filter]
  refine ⟨rfl, hchange.mono fun _ ⟨file, hf, hp⟩ => ⟨file, List.mem_of_mem_filter hf, hp⟩, ?_⟩
  intro file hf
  cases hc : !(capturedLines file.content).isEmpty with
  | true => exact hswept file (List.mem_filter.mpr ⟨hf, hc⟩)
  | false =>
    rw [Bool.not_eq_false', List.isEmpty_iff] at hc
    rw [withoutComments_eq_self_iff.mpr hc]
    refine hchange.readText (h.read file hf) fun location hl => ?_
    exact h.not_placeOf_filter hf (by simp [hc]) hl

/-- Capture and sweep end to end. Files at different locations, none of whose comment lines looks
like a header, come to hold their texts without comments, and every other file is as it was. -/
theorem sweepByDocument_captureDocument {tree : FileTree} {files : List NamedText}
    {control : Text}
    (hread : ∀ file ∈ files, tree.readText file.path = .ok file.content)
    (hdistinct : files.Pairwise fun earlier later =>
      tree.resolve earlier.path ≠ tree.resolve later.path)
    (hpath : ∀ file ∈ files, '\n' ∉ file.path ∧ trim file.path = file.path)
    (hheader : ∀ file ∈ files, ∀ line ∈ capturedLines file.content, ¬ ['#', ' '] <+: line)
    (hcontrol : FileTree.Openable control)
    (hother : ∀ file ∈ files, tree.resolve file.path ≠ .ok (tree.locate control))
    (mode : Option Nat) :
    let paths := files.map NamedText.path
    let captured := (captureDocument paths).run tree
    let commented := files.countP fun file => !(capturedLines file.content).isEmpty
    captured.tree = tree ∧ ∃ document, captured.value = .ok document ∧
      let written := tree.write control (encode document) mode
      let swept := (sweepByDocument control false).run written
      swept.value = .ok
          { processed := commented, rewritten := commented, leftovers := [], failed := [] } ∧
        (∀ file ∈ files, swept.tree.readText file.path = .ok (withoutComments file.content)) ∧
        (∀ location, (∀ file ∈ files, tree.resolve file.path ≠ .ok location) →
          swept.tree.file? location = written.file? location) ∧
        ((captureDocument paths).run swept.tree).value = .ok [] := by
  intro paths captured commented
  have hcaptured := run_captureDocument hread
  refine ⟨congrArg Completion.tree hcaptured, _, congrArg Completion.value hcaptured, ?_⟩
  intro written swept
  have hwrite := tree.changesWithin_write control
    (encode (writeDocument (files.map NamedText.capture))) mode
  have hfiles : tree.Holds files := ⟨hread, hdistinct⟩
  have hwritten : written.Holds files := by
    refine hfiles.change hwrite ?_
    rintro location ⟨file, hf, hl⟩ rfl
    exact hother file hf hl
  obtain ⟨hvalue, hchange, hswept⟩ := run_sweepByDocument_captures hwritten
    (tree.openPath_write hcontrol _ mode) hpath hheader
  refine ⟨hvalue, hswept, fun location hl => hchange.elsewhere location ?_, ?_⟩
  · rw [hfiles.placeOf_iff hwrite]
    rintro ⟨file, hf, hp⟩
    exact hl file hf hp
  · have hstripped : ∀ file ∈ files.map NamedText.stripped,
        swept.tree.readText file.path = .ok file.content := by
      intro file hm
      obtain ⟨original, hf, rfl⟩ := List.mem_map.mp hm
      exact hswept original hf
    have hrun := congrArg Completion.value (run_captureDocument hstripped)
    rw [writeDocument_stripped, List.map_map] at hrun
    exact hrun

/-- Of two files the one with a comment is rewritten and the other one stays as it is. -/
theorem sweepByDocument_captureDocument_two_files :
    let first : NamedText := ⟨"src/a.c".toList, "int a; // one\n".toList⟩
    let second : NamedText := ⟨"b.c".toList, "int b;\n".toList⟩
    let tree : FileTree :=
      ⟨[(["src".toList, "a.c".toList], ⟨encode first.content, 0o644⟩),
        (["b.c".toList], ⟨encode second.content, 0o600⟩)], [], []⟩
    ∃ document,
      ((captureDocument [first.path, second.path]).run tree).value = .ok document ∧
        let written := tree.write "out/control.txt".toList (encode document) none
        let swept := (sweepByDocument "out/control.txt".toList false).run written
        swept.value = .ok { processed := 1, rewritten := 1, leftovers := [], failed := [] } ∧
          swept.tree.readText first.path = .ok "int a;\n".toList ∧
            swept.tree.readText second.path = .ok second.content := by
  intro first second tree
  let files := [first, second]
  have hfirst : tree.resolve first.path = .ok ["src".toList, "a.c".toList] := by decide +kernel
  have hsecond : tree.resolve second.path = .ok ["b.c".toList] := by decide +kernel
  have hread : ∀ file ∈ files, tree.readText file.path = .ok file.content := by
    rw [List.forall_mem_cons, List.forall_mem_singleton]
    exact ⟨FileTree.readText_eq_ok_iff.mpr ⟨_, _, hfirst, rfl, rfl⟩,
      FileTree.readText_eq_ok_iff.mpr ⟨_, _, hsecond, rfl, rfl⟩⟩
  have hcontrol : FileTree.Openable "out/control.txt".toList :=
    ⟨by decide, by decide, by decide +kernel, by decide +kernel⟩
  have hcount : files.countP (fun file => !(capturedLines file.content).isEmpty) = 1 := by
    decide +kernel
  have hcontents : withoutComments first.content = "int a;\n".toList ∧
      withoutComments second.content = second.content := by decide +kernel
  obtain ⟨-, document, hdocument, hvalue, hswept, -⟩ := sweepByDocument_captureDocument hread
    (by decide +kernel) (by decide +kernel) (by decide +kernel) hcontrol (by decide +kernel) none
  rw [hcount] at hvalue
  refine ⟨document, hdocument, hvalue, ?_, ?_⟩
  · rw [hswept first List.mem_cons_self, hcontents.1]
  · rw [hswept second (List.mem_cons_of_mem _ List.mem_cons_self), hcontents.2]

end CommentSweep
