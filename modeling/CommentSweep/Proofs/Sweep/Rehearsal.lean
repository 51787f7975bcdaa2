import CommentSweep.Proofs.ControlDocument.RoundTrip
import CommentSweep.Proofs.Sweep.Replay
import CommentSweep.Rehearsal
import Mathlib.Data.List.Nodup

/-!
# What a rehearsal shows

The document of some texts is read back as lists, each of which strips the comments of its text.
-/

namespace CommentSweep

variable {files : List NamedText} {file : NamedText}

/-- The document of captured files gives back a list for each file with comments. -/
theorem parseDocument_captures
    (hpath : ∀ file ∈ files, file.path ≠ [] ∧ '\n' ∉ file.path ∧ trim file.path = file.path)
    (hheader : ∀ file ∈ files, ∀ line ∈ capturedLines file.content, ¬ ['#', ' '] <+: line) :
    parseDocument (writeDocument (files.map NamedText.capture)) =
      (files.filter fun file => !(capturedLines file.content).isEmpty).map
        fun file => file.capture.list := by
  have hlegible : ∀ capture ∈ files.map NamedText.capture, capture.lines ≠ [] →
      capture.list.Legible := by
    intro capture hc _
    obtain ⟨file, hf, rfl⟩ := List.mem_map.mp hc
    obtain ⟨hne, hfeed, htrim⟩ := hpath file hf
    exact ⟨hne, htrim, hfeed, fun line hl => (feed_notMem_of_mem_capturedLines hl).1,
      hheader file hf⟩
  rw [parseDocument_writeDocument hlegible, List.filter_map, List.map_map]
  refine List.map_congr_left fun file _ => ?_
  exact Capture.listRead_eq_list_iff.mpr fun line hl => (feed_notMem_of_mem_capturedLines hl).2

/-- A list is tried on the text that it was captured from, if no other text has its path. -/
theorem trial?_capture (hdistinct : (files.map NamedText.path).Nodup) (h : file ∈ files) :
    trial? files file.capture.list = some ⟨file.capture.list,
      ⟨withoutComments file.content, (capturedLines file.content).length, []⟩, []⟩ := by
  have hfind : files.find? (·.path == file.path) = some file := by
    cases hf : files.find? (·.path == file.path) with
    | none => exact absurd BEq.rfl (List.find?_eq_none.mp hf file h)
    | some other =>
      have hsame := List.find?_some hf
      have hother : other ∈ files := List.mem_of_find?_eq_some hf
      rw [List.inj_on_of_nodup_map hdistinct hother h (beq_iff_eq.mp hsame)]
  have hswept : sweepText file.content (capturedLines file.content) =
      ⟨withoutComments file.content, (capturedLines file.content).length, []⟩ := by
    rw [← content_capturedLines, ← matched_capturedLines, ← unmatched_capturedLines]
  simp only [trial?, Capture.list, NamedText.capture, hfind, Option.map_some, hswept,
    capturedLines_withoutComments]

/-- A rehearsal on texts under different paths gives a list for each with comments, which is found
in full and leaves its text without comments. -/
theorem rehearse_eq
    (hpath : ∀ file ∈ files, file.path ≠ [] ∧ '\n' ∉ file.path ∧ trim file.path = file.path)
    (hheader : ∀ file ∈ files, ∀ line ∈ capturedLines file.content, ¬ ['#', ' '] <+: line)
    (hdistinct : (files.map NamedText.path).Nodup) :
    let commented := files.filter fun file => !(capturedLines file.content).isEmpty
    rehearse files =
      { document := writeDocument (files.map NamedText.capture)
        blocks := commented.map fun file => file.capture.list
        trials := commented.map fun file =>
          some ⟨file.capture.list, ⟨withoutComments file.content,
            (capturedLines file.content).length, []⟩, []⟩ } := by
  intro commented
  have hblocks := parseDocument_captures hpath hheader
  rw [rehearse, hblocks, List.map_map]
  refine congrArg _ (List.map_congr_left fun file hf => ?_)
  exact trial?_capture hdistinct (List.mem_of_mem_filter hf)

/-- A file with its comments stripped. -/
def NamedText.stripped (file : NamedText) : NamedText := ⟨file.path, withoutComments file.content⟩

/-- Files without comments have an empty document. -/
theorem writeDocument_stripped (files : List NamedText) :
    writeDocument ((files.map NamedText.stripped).map NamedText.capture) = [] := by
  rw [writeDocument, List.flatMap_eq_nil_iff]
  intro capture hc
  rw [List.map_map] at hc
  obtain ⟨file, -, rfl⟩ := List.mem_map.mp hc
  exact Capture.block_of_lines_eq_nil (capturedLines_withoutComments file.content)

end CommentSweep
