import CommentSweep.ControlDocument.Phase
import CommentSweep.Proofs.Text.Cutting
import CommentSweep.Proofs.Text.Trimming

/-!
# Lists that can be read

The path of a list is the trimmed text of a header and no entry looks like a header, because the
open block carries this from line to line.
-/

namespace CommentSweep

/-- What every list has that is read from a control document. -/
structure RemovalList.Legible (list : RemovalList) : Prop where
  path_ne_nil : list.path ≠ []
  trim_path : trim list.path = list.path
  feed_notMem_path : '\n' ∉ list.path
  feed_notMem : ∀ entry ∈ list.entries, '\n' ∉ entry
  /-- An entry that looks like a header would have ended the block. -/
  no_header : ∀ entry ∈ list.entries, ¬ ['#', ' '] <+: entry

/-- Entries may be left out of a legible list. -/
theorem RemovalList.Legible.of_subset {path : Text} {entries fewer : List Text}
    (h : RemovalList.Legible ⟨path, entries⟩) (hs : fewer ⊆ entries) :
    RemovalList.Legible ⟨path, fewer⟩ where
  path_ne_nil := h.path_ne_nil
  trim_path := h.trim_path
  feed_notMem_path := h.feed_notMem_path
  feed_notMem := fun entry he => h.feed_notMem entry (hs he)
  no_header := fun entry he => h.no_header entry (hs he)

/-- An entry that is one line and no header may be added to a legible list. -/
theorem RemovalList.Legible.concat {path entry : Text} {entries : List Text}
    (h : RemovalList.Legible ⟨path, entries⟩) (hf : '\n' ∉ entry) (hn : ¬ ['#', ' '] <+: entry) :
    RemovalList.Legible ⟨path, entries ++ [entry]⟩ := by
  refine ⟨h.path_ne_nil, h.trim_path, h.feed_notMem_path, fun other ho => ?_, fun other ho => ?_⟩
  all_goals rcases List.mem_append.mp ho with ho | ho
  · exact h.feed_notMem other ho
  · rwa [List.mem_singleton.mp ho]
  · exact h.no_header other ho
  · rwa [List.mem_singleton.mp ho]

namespace OpenBlock

@[simp] theorem path_extend (current : OpenBlock) (line : Text) :
    (current.extend line).path = current.path := by
  rw [extend]
  split <;> rfl

@[simp] theorem atEnd_extend (current : OpenBlock) (line : Text) :
    (current.extend line).atEnd = ⟨current.path, current.lines ++ [line]⟩ := by
  rw [atEnd, path_extend, lines_extend]

/-- Before a header a block ends with no other entries than before the end of the document. -/
theorem legible_atHeader {current : OpenBlock} (h : current.atEnd.Legible) :
    current.atHeader.Legible := by
  refine h.of_subset (List.append_subset.mpr ⟨List.subset_append_left _ _, ?_⟩)
  exact List.Subset.trans (List.filter_subset_self _) (List.subset_append_right _ _)

end OpenBlock

namespace Phase

/-- The open block, if there is one, could end as a legible list. -/
def Legible : Phase → Prop
  | .inBlock current => current.atEnd.Legible
  | _ => True

theorem legible_below {header : Text} (h : '\n' ∉ header) : (below header).Legible := by
  rw [below]
  split
  case isTrue => trivial
  case isFalse hn =>
    exact ⟨fun he => hn (List.isEmpty_iff.mpr he), trim_trim header,
      fun hm => h (mem_of_mem_trim hm), nofun, nofun⟩

/-- A header gives the list of the block that it ends, if there is one. -/
theorem filterMap_headerEvents (phase : Phase) (header : Text) :
    (phase.headerEvents header).filterMap BlockEvent.list? =
      match phase with
      | .inBlock current => [current.atHeader]
      | _ => [] := by
  have hunnamed : (if (trim header).isEmpty then [BlockEvent.unnamed] else []).filterMap
      BlockEvent.list? = [] := by
    split <;> rfl
  cases phase <;>
    exact (List.filterMap_append ..).trans (by rw [hunnamed, List.append_nil]; rfl)

theorem Legible.headerEvents {phase : Phase} (h : phase.Legible) (header : Text) :
    ∀ list ∈ (phase.headerEvents header).filterMap BlockEvent.list?, list.Legible := by
  intro list hl
  rw [filterMap_headerEvents] at hl
  cases phase with
  | preamble => exact absurd hl List.not_mem_nil
  | skipping => exact absurd hl List.not_mem_nil
  | inBlock current =>
    obtain rfl : list = current.atHeader := List.mem_singleton.mp hl
    exact OpenBlock.legible_atHeader h

theorem Legible.beyond {phase : Phase} (h : phase.Legible) {line : Text} (hf : '\n' ∉ line)
    (hn : phase.headerText? line = none) : (phase.beyond line).Legible := by
  cases phase with
  | preamble => trivial
  | skipping => trivial
  | inBlock current =>
    have hp : ¬ ['#', ' '] <+: line := isPrefixOf?_eq_none_iff.mp hn
    change (current.extend line).atEnd.Legible
    rw [OpenBlock.atEnd_extend]
    exact RemovalList.Legible.concat h hf hp

theorem mem_of_headerText? {phase : Phase} {line header : Text} {c : Char}
    (h : phase.headerText? line = some header) (hc : c ∈ header) : c ∈ line := by
  cases phase <;>
    exact eq_append_of_isPrefixOf? h ▸ List.mem_append_right _ hc

theorem step_eq (phase : Phase) (raw : Text) :
    phase.step raw = match phase.headerText? (withoutReturn raw) with
      | some header => (below header, phase.headerEvents header)
      | none => (phase.beyond (withoutReturn raw), []) := rfl

theorem step_of_header {phase : Phase} {raw header : Text}
    (h : phase.headerText? (withoutReturn raw) = some header) :
    phase.step raw = (below header, phase.headerEvents header) := by
  rw [step_eq, h]

theorem step_of_no_header {phase : Phase} {raw : Text}
    (h : phase.headerText? (withoutReturn raw) = none) :
    phase.step raw = (phase.beyond (withoutReturn raw), []) := by
  rw [step_eq, h]

@[simp] theorem headerText?_beyond (phase : Phase) (line : Text) :
    (phase.beyond line).headerText? = phase.headerText? := by
  cases phase <;> rfl

/-- Lines that are no headers are taken one by one and bring nothing to light. -/
theorem advance_of_no_header {phase : Phase} {raws : List Text}
    (h : ∀ line ∈ raws.map withoutReturn, phase.headerText? line = none) :
    phase.advance raws = ((raws.map withoutReturn).foldl beyond phase, []) := by
  induction raws generalizing phase with
  | nil => rfl
  | cons raw rest ih =>
    obtain ⟨hraw, hrest⟩ := List.forall_mem_cons.mp h
    rw [advance, step_of_no_header hraw]
    simp only [List.map_cons, List.foldl_cons, List.nil_append]
    rw [ih (by simpa only [headerText?_beyond] using hrest)]

theorem foldl_beyond_inBlock (current : OpenBlock) (ls : List Text) :
    ls.foldl beyond (.inBlock current) = .inBlock (ls.foldl OpenBlock.extend current) := by
  induction ls generalizing current with
  | nil => rfl
  | cons line rest ih => exact ih (current.extend line)

/-- Reading one line keeps everything legible. -/
theorem Legible.step {phase : Phase} (h : phase.Legible) {raw : Text} (hr : '\n' ∉ raw) :
    (phase.step raw).1.Legible ∧
      ∀ list ∈ (phase.step raw).2.filterMap BlockEvent.list?, list.Legible := by
  have hline : '\n' ∉ withoutReturn raw := fun hm => hr ((withoutReturn_isPrefix raw).subset hm)
  cases hh : phase.headerText? (withoutReturn raw) with
  | some header =>
    rw [step_of_header hh]
    exact ⟨legible_below fun hm => hline (mem_of_headerText? hh hm), h.headerEvents header⟩
  | none =>
    rw [step_of_no_header hh]
    exact ⟨h.beyond hline hh, nofun⟩

/-- Reading any lines keeps everything legible. -/
theorem Legible.advance {phase : Phase} (h : phase.Legible) {raws : List Text}
    (hr : ∀ raw ∈ raws, '\n' ∉ raw) : (phase.advance raws).1.Legible ∧
      ∀ list ∈ (phase.advance raws).2.filterMap BlockEvent.list?, list.Legible := by
  induction raws generalizing phase with
  | nil => exact ⟨h, nofun⟩
  | cons raw rest ih =>
    obtain ⟨hnext, hfirst⟩ := h.step (hr raw List.mem_cons_self)
    obtain ⟨hlast, hrest⟩ := ih hnext fun other ho => hr other (List.mem_cons_of_mem _ ho)
    refine ⟨hlast, fun list hl => ?_⟩
    rw [Phase.advance, List.filterMap_append, List.mem_append] at hl
    exact hl.elim (hfirst list) (hrest list)

theorem Legible.conclude {phase : Phase} (h : phase.Legible) :
    ∀ list ∈ phase.conclude.filterMap BlockEvent.list?, list.Legible := by
  cases phase with
  | preamble => exact nofun
  | skipping => exact nofun
  | inBlock current =>
    intro list hl
    obtain rfl : list = current.atEnd := List.mem_singleton.mp hl
    exact h

/-- Everything that comes to light from a phase on when lines are read to the end of the document. -/
def toEnd (phase : Phase) (raws : List Text) : List BlockEvent :=
  (phase.advance raws).2 ++ (phase.advance raws).1.conclude

theorem toEnd_cons (phase : Phase) (raw : Text) (rest : List Text) :
    phase.toEnd (raw :: rest) = (phase.step raw).2 ++ (phase.step raw).1.toEnd rest := by
  simp only [toEnd, advance, List.append_assoc]

/-- Behind some lines the reading goes on from the phase that they lead to. -/
theorem toEnd_append (phase : Phase) (before after : List Text) :
    phase.toEnd (before ++ after) =
      (phase.advance before).2 ++ (phase.advance before).1.toEnd after := by
  simp only [toEnd, advance_append, List.append_assoc]

/-- Whatever is read to the end of the document from a legible phase is legible. -/
theorem Legible.toEnd {phase : Phase} (h : phase.Legible) {raws : List Text}
    (hr : ∀ raw ∈ raws, '\n' ∉ raw) :
    ∀ list ∈ (phase.toEnd raws).filterMap BlockEvent.list?, list.Legible := by
  obtain ⟨hlast, hread⟩ := h.advance hr
  intro list hl
  rw [Phase.toEnd, List.filterMap_append, List.mem_append] at hl
  exact hl.elim (hread list) (hlast.conclude list)

end Phase

/-- A control document is read from the preamble to its end. -/
theorem parseDocument_eq (document : Text) : parseDocument document =
    (Phase.preamble.toEnd ((lines document).map (·.body))).filterMap BlockEvent.list? := rfl

/-- Every list of a control document is legible, whatever the document holds. -/
theorem legible_of_mem_parseDocument {document : Text} {list : RemovalList}
    (h : list ∈ parseDocument document) : list.Legible := by
  have hr : ∀ raw ∈ (lines document).map (·.body), '\n' ∉ raw := by
    intro raw hm
    obtain ⟨line, hl, rfl⟩ := List.mem_map.mp hm
    exact ((areLines_lines document).cut line hl).feed_notMem
  have hstart : Phase.preamble.Legible := trivial
  exact hstart.toEnd hr list h

end CommentSweep
