import CommentSweep.Proofs.ControlDocument.Reading
import CommentSweep.Proofs.Sweep.Rewriting

/-!
# Reading back a written control document

A line of a written block loses up to two carriage returns at its end: one to the cut into lines and
one to the reading.
-/

namespace CommentSweep

namespace Capture

/-- The list that names exactly the lines of a capture. -/
def list (capture : Capture) : RemovalList := ⟨capture.path, capture.lines⟩

/-- The list that a written capture is read back as. -/
def listRead (capture : Capture) : RemovalList :=
  ⟨capture.path, capture.lines.map fun line => withoutReturn (withoutReturn line)⟩

/-- A capture is read back with its own lines exactly if none of them ends with a carriage return. -/
theorem listRead_eq_list_iff {capture : Capture} :
    capture.listRead = capture.list ↔ ∀ line ∈ capture.lines, line.getLast? ≠ some '\r' := by
  calc capture.listRead = capture.list
    _ ↔ capture.lines.map (fun line => withoutReturn (withoutReturn line)) =
        capture.lines.map id := by simp only [listRead, list, RemovalList.mk.injEq, true_and,
          List.map_id]
    _ ↔ ∀ line ∈ capture.lines, withoutReturn (withoutReturn line) = line := List.map_inj_left
    _ ↔ ∀ line ∈ capture.lines, line.getLast? ≠ some '\r' := by
      simp only [withoutReturn_withoutReturn_eq_self_iff]

end Capture

namespace OpenBlock

theorem atEnd_foldl_extend (current : OpenBlock) (ls : List Text) :
    (ls.foldl extend current).atEnd = ⟨current.path, current.lines ++ ls⟩ := by
  induction ls generalizing current with
  | nil => rw [List.foldl_nil, List.append_nil, atEnd]
  | cons line rest ih =>
    rw [List.foldl_cons, ih, path_extend, lines_extend, List.append_assoc, List.singleton_append]

theorem atHeader_extend_nil (current : OpenBlock) : (current.extend []).atHeader = current.atEnd := by
  obtain ⟨path, settled, held⟩ := current
  cases held <;> simp [extend, atHeader, atEnd, lines]

end OpenBlock

namespace Phase

theorem below_of_trim {header path : Text} (ht : trim header = path) (hn : path ≠ []) :
    below header = .inBlock (.empty path) := by
  rw [below, ht, if_neg (mt List.isEmpty_iff.mp hn)]

/-- A carriage return is no part of a path, so none is removed from a header. -/
theorem withoutReturn_header {path : Text} (ht : trim path = path) (hn : path ≠ []) :
    withoutReturn ('#' :: ' ' :: path) = '#' :: ' ' :: path := by
  rw [withoutReturn_eq_self_iff, List.getLast?_cons_cons, List.getLast?_cons_of_ne_nil hn]
  intro hr
  exact absurd ((trim_eq_self_iff.mp ht).2 _ hr) (by decide)

theorem step_nil (phase : Phase) : phase.step [] = (phase.beyond [], []) := by
  cases phase <;> rfl

/-- The looser mark of the first header reads the blank as well, which is trimmed away again. -/
theorem exists_headerText? (phase : Phase) (path : Text) :
    ∃ header, phase.headerText? ('#' :: ' ' :: path) = some header ∧ trim header = trim path := by
  cases phase with
  | preamble => exact ⟨' ' :: path, rfl, trim_cons_of_blank (by decide) path⟩
  | skipping => exact ⟨path, rfl, rfl⟩
  | inBlock current => exact ⟨path, rfl, rfl⟩

/-- Behind an empty line a header ends a block as the end of the document would end it before. -/
theorem headerEvents_beyond_nil (phase : Phase) (header : Text) :
    (phase.beyond []).headerEvents header =
      phase.conclude ++ Phase.preamble.headerEvents header := by
  cases phase with
  | preamble => rfl
  | skipping => rfl
  | inBlock current => simp [beyond, headerEvents, conclude, OpenBlock.atHeader_extend_nil]

/-- An empty line and a header end the block before them and open one if a file is named. -/
theorem advance_header (phase : Phase) {raw path : Text}
    (h : withoutReturn raw = '#' :: ' ' :: path) : phase.advance [[], raw] =
      (below path, phase.conclude ++ Phase.preamble.headerEvents path) := by
  obtain ⟨header, hh, htrim⟩ := (phase.beyond []).exists_headerText? path
  rw [← h] at hh
  have hbelow : below header = below path := by rw [below, below, htrim]
  have hevents : Phase.preamble.headerEvents header = Phase.preamble.headerEvents path := by
    simp only [headerEvents, htrim]
  simp only [advance, step_nil, step_of_header hh, headerEvents_beyond_nil, hbelow, hevents,
    List.nil_append, List.append_nil]

/-- Behind an empty line a header that is a path opens the block for it. -/
theorem advance_header_of_trim (phase : Phase) {path : Text} (ht : trim path = path)
    (hn : path ≠ []) :
    phase.advance [[], '#' :: ' ' :: path] = (.inBlock (.empty path), phase.conclude) := by
  have hnamed : Phase.preamble.headerEvents path = [] := by
    simp [headerEvents, ht, hn]
  rw [phase.advance_header (withoutReturn_header ht hn), below_of_trim ht hn, hnamed,
    List.append_nil]

/-- In a block every line that is no header is an entry, without a carriage return at its end. -/
theorem advance_entries (current : OpenBlock) {raws : List Text}
    (h : ∀ raw ∈ raws, ¬ ['#', ' '] <+: raw) : (Phase.inBlock current).advance raws =
      (.inBlock ((raws.map withoutReturn).foldl OpenBlock.extend current), []) := by
  have hno : ∀ line ∈ raws.map withoutReturn, (Phase.inBlock current).headerText? line = none := by
    intro line hl
    obtain ⟨raw, hr, rfl⟩ := List.mem_map.mp hl
    exact isPrefixOf?_eq_none_iff.mpr fun hp => h raw hr (hp.trans (withoutReturn_isPrefix raw))
  rw [advance_of_no_header hno, foldl_beyond_inBlock]

end Phase

/-- Texts without line feeds are the lines of what is written for them. -/
theorem map_body_lines_flatMap_append {texts : List Text} (h : ∀ text ∈ texts, '\n' ∉ text)
    (after : Text) :
    (lines ((texts.flatMap fun text => text ++ ['\n']) ++ after)).map (·.body) =
      texts.map withoutReturn ++ (lines after).map (·.body) := by
  induction texts with
  | nil => rfl
  | cons text rest ih =>
    rw [List.flatMap_cons, List.append_assoc, List.append_assoc, List.singleton_append,
      map_body_lines_append (h text List.mem_cons_self),
      ih fun other ho => h other (List.mem_cons_of_mem _ ho), List.map_cons, List.cons_append]

theorem Capture.block_of_lines_eq_nil {capture : Capture} (h : capture.lines = []) :
    capture.block = [] := by
  rw [block, h, List.isEmpty_nil, if_pos rfl]

/-- The lines of a block: an empty one, the header and one for each line of the capture. -/
theorem map_body_lines_block_append {capture : Capture} (h : capture.list.Legible)
    (hn : capture.lines ≠ []) (after : Text) :
    (lines (capture.block ++ after)).map (·.body) =
      [[], '#' :: ' ' :: capture.path] ++ capture.lines.map withoutReturn ++
        (lines after).map (·.body) := by
  have hheader : '\n' ∉ '#' :: ' ' :: capture.path := by
    simpa only [List.mem_cons, not_or] using ⟨by decide, by decide, h.feed_notMem_path⟩
  have hblock : capture.block ++ after = [] ++ '\n' :: ('#' :: ' ' :: capture.path ++
      '\n' :: ((capture.lines.flatMap fun line => line ++ ['\n']) ++ after)) := by
    rw [Capture.block, if_neg (mt List.isEmpty_iff.mp hn)]
    simp only [List.nil_append, List.cons_append, List.append_assoc]
  have hfeed : ∀ line ∈ capture.lines, '\n' ∉ line := h.feed_notMem
  have hreturn : withoutReturn ('#' :: ' ' :: capture.path) = '#' :: ' ' :: capture.path :=
    Phase.withoutReturn_header h.trim_path h.path_ne_nil
  rw [hblock, map_body_lines_append List.not_mem_nil, map_body_lines_append hheader,
    map_body_lines_flatMap_append hfeed, hreturn]
  rfl

/-- Reading a block ends the block before it and opens the block of the list read. -/
theorem exists_advance_block (phase : Phase) {capture : Capture} (h : capture.list.Legible) :
    ∃ current : OpenBlock, phase.advance
        ([[], '#' :: ' ' :: capture.path] ++ capture.lines.map withoutReturn) =
          (.inBlock current, phase.conclude) ∧ current.atEnd = capture.listRead := by
  refine ⟨((capture.lines.map withoutReturn).map withoutReturn).foldl OpenBlock.extend
    (.empty capture.path), ?_, ?_⟩
  · have hno : ∀ raw ∈ capture.lines.map withoutReturn, ¬ ['#', ' '] <+: raw := by
      intro raw hr hp
      obtain ⟨line, hl, rfl⟩ := List.mem_map.mp hr
      exact h.no_header line hl (hp.trans (withoutReturn_isPrefix line))
    have hheader : phase.advance [[], '#' :: ' ' :: capture.path] =
        (.inBlock (.empty capture.path), phase.conclude) :=
      phase.advance_header_of_trim h.trim_path h.path_ne_nil
    simp only [Phase.advance_append, hheader, Phase.advance_entries _ hno, List.append_nil]
  · rw [OpenBlock.atEnd_foldl_extend, OpenBlock.lines_empty, List.nil_append, List.map_map]
    rfl

/-- Reading a written document ends the block before it and then every block written. -/
theorem toEnd_writeDocument (phase : Phase) {captures : List Capture}
    (h : ∀ capture ∈ captures, capture.lines ≠ [] → capture.list.Legible) :
    phase.toEnd ((lines (writeDocument captures)).map (·.body)) =
      phase.conclude ++ (captures.filter fun capture => !capture.lines.isEmpty).map
        fun capture => .closed capture.listRead := by
  induction captures generalizing phase with
  | nil => simp [Phase.toEnd, writeDocument, Phase.advance, lines, splitAfter]
  | cons capture rest ih =>
    have hrest : ∀ other ∈ rest, other.lines ≠ [] → other.list.Legible :=
      fun other ho => h other (List.mem_cons_of_mem _ ho)
    rw [writeDocument, List.flatMap_cons]
    by_cases hn : capture.lines = []
    · rw [Capture.block_of_lines_eq_nil hn, List.nil_append, List.filter_cons_of_neg (by simp [hn])]
      exact ih phase hrest
    · have hl := h capture List.mem_cons_self hn
      obtain ⟨current, hadvance, hread⟩ := exists_advance_block phase hl
      rw [map_body_lines_block_append hl hn, Phase.toEnd_append, hadvance,
        List.filter_cons_of_pos (by simp [hn]), List.map_cons, ← hread]
      exact congrArg (phase.conclude ++ ·) (ih (.inBlock current) hrest)

/-- Legible lists are read back in order, without carriage returns at the ends of entries. -/
theorem parseDocument_writeDocument {captures : List Capture}
    (h : ∀ capture ∈ captures, capture.lines ≠ [] → capture.list.Legible) :
    parseDocument (writeDocument captures) =
      (captures.filter fun capture => !capture.lines.isEmpty).map Capture.listRead := by
  have hstart : Phase.preamble.conclude = [] := rfl
  rw [parseDocument_eq, toEnd_writeDocument .preamble h, hstart, List.nil_append,
    List.filterMap_map]
  exact congrFun List.filterMap_eq_map' _

/-- What a capture needs to be read back as it was written. -/
structure Capture.Writable (capture : Capture) : Prop where
  path_ne_nil : capture.path ≠ []
  feed_notMem_path : '\n' ∉ capture.path
  head_path : ∀ c ∈ capture.path.head?, isBlank c = false
  getLast_path : ∀ c ∈ capture.path.getLast?, isBlank c = false
  feed_notMem : ∀ line ∈ capture.lines, '\n' ∉ line
  no_return : ∀ line ∈ capture.lines, line.getLast? ≠ some '\r'
  no_header : ∀ line ∈ capture.lines, ¬ ['#', ' '] <+: line

/-- A capture can be written if its list can be read and no line ends with a carriage return. -/
theorem Capture.writable_iff {capture : Capture} : capture.Writable ↔
    capture.list.Legible ∧ ∀ line ∈ capture.lines, line.getLast? ≠ some '\r' := by
  constructor
  · intro h
    exact ⟨⟨h.path_ne_nil, trim_eq_self_iff.mpr ⟨h.head_path, h.getLast_path⟩,
      h.feed_notMem_path, h.feed_notMem, h.no_header⟩, h.no_return⟩
  · rintro ⟨h, hr⟩
    obtain ⟨hhead, hlast⟩ := trim_eq_self_iff.mp h.trim_path
    exact ⟨h.path_ne_nil, h.feed_notMem_path, hhead, hlast, h.feed_notMem, hr, h.no_header⟩

/-- A captured line is one line and does not end with a carriage return. -/
theorem feed_notMem_of_mem_capturedLines {content line : Text} (h : line ∈ capturedLines content) :
    '\n' ∉ line ∧ line.getLast? ≠ some '\r' := by
  obtain ⟨surveyed, hs, rfl⟩ := List.mem_map.mp h
  have hcut := (cut_of_mem_surveyedLines (List.mem_of_mem_filter hs)).1
  refine ⟨fun hm => hcut.feed_notMem ((trimEnd_isPrefix _).subset hm), fun hr => ?_⟩
  exact absurd (isBlank_of_mem_getLast?_trimEnd hr) (by decide)

/-- A written document gives back its captures exactly if each with lines is writable. Of captured
lines only one that looks like a header is not. -/
theorem parseDocument_writeDocument_eq_iff (captures : List Capture) (content : Text) :
    (parseDocument (writeDocument captures) =
        (captures.filter fun capture => !capture.lines.isEmpty).map Capture.list ↔
      ∀ capture ∈ captures, capture.lines ≠ [] → capture.Writable) ∧
    (∀ line ∈ capturedLines content, '\n' ∉ line ∧ line.getLast? ≠ some '\r') ∧
    ∃ line ∈ capturedLines "# define X 1 // c".toList, ['#', ' '] <+: line := by
  have hmem {capture : Capture} :
      capture ∈ (captures.filter fun capture => !capture.lines.isEmpty) ↔
        capture ∈ captures ∧ capture.lines ≠ [] := by
    rw [List.mem_filter, Bool.not_eq_true', List.isEmpty_eq_false_iff]
  refine ⟨⟨fun h => ?_, fun h => ?_⟩, fun line => feed_notMem_of_mem_capturedLines, ?_⟩
  · have hlegible : ∀ capture ∈ captures, capture.lines ≠ [] → capture.list.Legible := by
      intro capture hc hn
      have hread : capture.list ∈ parseDocument (writeDocument captures) := by
        rw [h]
        exact List.mem_map_of_mem (hmem.mpr ⟨hc, hn⟩)
      exact legible_of_mem_parseDocument hread
    rw [parseDocument_writeDocument hlegible, List.map_inj_left] at h
    intro capture hc hn
    have hsame : capture.listRead = capture.list := h capture (hmem.mpr ⟨hc, hn⟩)
    exact Capture.writable_iff.mpr ⟨hlegible capture hc hn, Capture.listRead_eq_list_iff.mp hsame⟩
  · rw [parseDocument_writeDocument fun capture hc hn =>
      (Capture.writable_iff.mp (h capture hc hn)).1, List.map_inj_left]
    intro capture hm
    obtain ⟨hc, hn⟩ := hmem.mp hm
    exact Capture.listRead_eq_list_iff.mpr (h capture hc hn).no_return
  · exact ⟨"# define X 1 // c".toList, by decide +kernel, by decide⟩

end CommentSweep
