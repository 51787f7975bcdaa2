import CommentSweep.Proofs.ControlDocument.RoundTrip

/-!
# Control documents behind one another

A document that begins with an empty line and a header may be written behind any lines, because the
empty line settles the line that is held back.
-/

namespace CommentSweep

theorem exists_map_body_lines_header (rest : Text) : ∃ path raws,
    (lines ('#' :: ' ' :: rest)).map (·.body) = ('#' :: ' ' :: path) :: raws := by
  by_cases hfeed : '\n' ∈ rest
  · obtain ⟨path, after, rfl, hpath⟩ := List.eq_append_cons_of_mem hfeed
    have hheader : '\n' ∉ '#' :: ' ' :: path := by simpa using hpath
    have hfirst := map_body_lines_append hheader after
    rw [withoutReturn_cons (by decide), withoutReturn_cons (by decide)] at hfirst
    exact ⟨withoutReturn path, _, hfirst⟩
  · have hcut : (Line.mk ('#' :: ' ' :: rest) .none).Cut :=
      ⟨by simpa using hfeed, nofun, nofun⟩
    have hone : lines ('#' :: ' ' :: rest) = [⟨'#' :: ' ' :: rest, .none⟩] := by
      simpa [Line.raw, Ending.text] using hcut.lines_raw
    exact ⟨rest, [], by rw [hone]; rfl⟩

/-- A document behind an empty line and a header is read as if it stood alone. -/
theorem Phase.toEnd_header (phase : Phase) {raw path : Text}
    (h : withoutReturn raw = '#' :: ' ' :: path) (raws : List Text) :
    phase.toEnd ([] :: raw :: raws) =
      phase.conclude ++ Phase.preamble.toEnd ([] :: raw :: raws) := by
  have hcut : [] :: raw :: raws = [[], raw] ++ raws := rfl
  rw [hcut, toEnd_append, toEnd_append, advance_header phase h, advance_header .preamble h,
    List.append_assoc]
  rfl

/-- What comes to light in two documents comes to light when they stand behind one another. -/
theorem documentEvents_append {first : Text} (h : ∀ c ∈ first.getLast?, c = '\n') (rest : Text) :
    documentEvents (first ++ '\n' :: '#' :: ' ' :: rest) =
      documentEvents first ++ documentEvents ('\n' :: '#' :: ' ' :: rest) := by
  obtain ⟨path, raws, hheader⟩ := exists_map_body_lines_header rest
  have hsecond : (lines ('\n' :: '#' :: ' ' :: rest)).map (·.body) =
      [] :: ('#' :: ' ' :: path) :: raws := by
    rw [← hheader]
    exact map_body_lines_append List.not_mem_nil ('#' :: ' ' :: rest)
  have hraw : withoutReturn ('#' :: ' ' :: path) = '#' :: ' ' :: withoutReturn path := by
    rw [withoutReturn_cons (by decide), withoutReturn_cons (by decide)]
  have hevents (document : Text) :
      documentEvents document = Phase.preamble.toEnd ((lines document).map (·.body)) := rfl
  rw [hevents, hevents, hevents, lines_append h, List.map_append, hsecond, Phase.toEnd_append,
    Phase.toEnd_header _ hraw, ← List.append_assoc]
  rfl

/-- Every written document that is not empty begins with an empty line and a header. -/
theorem isPrefix_writeDocument {captures : List Capture} (h : writeDocument captures ≠ []) :
    ['\n', '#', ' '] <+: writeDocument captures := by
  induction captures with
  | nil => exact absurd rfl h
  | cons capture rest ih =>
    rw [writeDocument, List.flatMap_cons] at h ⊢
    by_cases hn : capture.lines = []
    · rw [Capture.block_of_lines_eq_nil hn, List.nil_append] at h ⊢
      exact ih h
    · rw [Capture.block, if_neg (mt List.isEmpty_iff.mp hn)]
      exact ⟨_, rfl⟩

/-- Behind a document that is empty or ends with a line feed, one that begins with an empty line and
a header, as every written one does, is read as if it stood alone. -/
theorem parseDocument_append {first second : Text} (hfirst : ∀ c ∈ first.getLast?, c = '\n')
    (hsecond : ['\n', '#', ' '] <+: second) :
    parseDocument (first ++ second) = parseDocument first ++ parseDocument second ∧
      documentEvents (first ++ second) = documentEvents first ++ documentEvents second ∧
      ∀ captures, writeDocument captures ≠ [] → ['\n', '#', ' '] <+: writeDocument captures := by
  obtain ⟨rest, rfl⟩ := hsecond
  have hevents := documentEvents_append hfirst rest
  refine ⟨?_, hevents, fun captures => isPrefix_writeDocument⟩
  rw [parseDocument, parseDocument, parseDocument, ← List.filterMap_append]
  exact congrArg _ hevents

/-- A skipped block at the end of the first document and one at the head of the second. -/
theorem parseDocument_append_skipped :
    let first : Text := "#a.c\n// a\n\n\n# \n// lost\n\n".toList
    let second : Text := "\n# \t\n// lost\n\n#b.c\n\n# c.c\n// c".toList
    (∀ c ∈ first.getLast?, c = '\n') ∧ ['\n', '#', ' '] <+: second ∧
      parseDocument (first ++ second) =
        [⟨"a.c".toList, ["// a".toList, []]⟩, ⟨"c.c".toList, ["// c".toList]⟩] := by
  intro first second
  have hlast : first.getLast? = some '\n' := by decide +kernel
  have hfirst : ∀ c ∈ first.getLast?, c = '\n' := fun c hc => Option.some.inj (hc.symm.trans hlast)
  have hsecond : ['\n', '#', ' '] <+: second := by decide +kernel
  obtain ⟨hlists, -⟩ := parseDocument_append hfirst hsecond
  refine ⟨hfirst, hsecond, hlists.trans ?_⟩
  decide +kernel

end CommentSweep
