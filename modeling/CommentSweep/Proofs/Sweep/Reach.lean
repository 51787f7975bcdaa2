import CommentSweep.Proofs.Sweep.Replay
import CommentSweep.Proofs.Sweep.Selection
import Mathlib.Order.Bounds.Basic

/-!
# How far a sweep gets in its list

A sweep takes for each entry the first line that it can and never goes back. Up to the first blank
entry this loses nothing.
-/

namespace CommentSweep

/-- An entry that is not blank takes exactly the lines with a comment that have its text. -/
theorem takes_iff_of_ne_nil {entry : Text} (h : trimEnd entry ≠ []) {previous : Verdict}
    {line : SurveyedLine} :
    takes entry previous line = true ↔
      line.survey.commented = true ∧ line.text = trimEnd entry := by
  rw [takes_iff]
  constructor
  · rintro ⟨htext, hc | hblank, -⟩
    · exact ⟨hc, htext⟩
    · exact absurd (htext.symm.trans hblank) h
  · rintro ⟨hc, htext⟩
    exact ⟨htext, Or.inl hc, fun hblank => absurd (htext.symm.trans hblank) h⟩

/-- A line that is not captured with the first of some texts may be left out of the search. -/
theorem cons_sublist_capturedFrom_cons_iff {text : Text} {line : SurveyedLine}
    (h : ¬ (line.survey.commented = true ∧ line.text = text)) (texts : List Text)
    (rest : List SurveyedLine) :
    (text :: texts).Sublist (capturedFrom (line :: rest)) ↔
      (text :: texts).Sublist (capturedFrom rest) := by
  cases hc : line.survey.commented with
  | false => simp [capturedFrom, hc]
  | true =>
    have hne : text ≠ line.text := fun he => h ⟨hc, he.symm⟩
    simp only [capturedFrom, List.filter_cons, hc, ite_true, List.map_cons,
      List.cons_sublist_cons', hne, false_and, or_false]

/-- Leading entries without a blank one are found if they are a subsequence of captured lines. -/
theorem le_count_verdicts_iff {entries : List Text} {k : Nat}
    (hk : k ≤ (entries.map trimEnd).idxOf []) (previous : Verdict) (ls : List SurveyedLine) :
    k ≤ (verdicts entries previous ls).count .removed ↔
      ((entries.map trimEnd).take k).Sublist (capturedFrom ls) := by
  induction ls generalizing entries k previous with
  | nil =>
    rw [verdicts, List.count_nil, Nat.le_zero, capturedFrom, List.filter_nil, List.map_nil,
      List.sublist_nil, List.take_eq_nil_iff]
    refine ⟨Or.inl, fun h => h.elim id fun hnil => ?_⟩
    rw [hnil] at hk
    exact Nat.le_zero.mp hk
  | cons line rest ih =>
    cases k with
    | zero => simp
    | succ k =>
      cases entries with
      | nil => exact absurd hk (Nat.not_succ_le_zero k)
      | cons entry entries =>
        have hentry : trimEnd entry ≠ [] := by
          intro hblank
          rw [List.map_cons, hblank, List.idxOf_cons_self] at hk
          exact Nat.not_succ_le_zero k hk
        by_cases ht : takes entry previous line = true
        · -- The entry and the line are used up together.
          obtain ⟨hc, htext⟩ := (takes_iff_of_ne_nil hentry).mp ht
          have hcaptured : capturedFrom (line :: rest) = trimEnd entry :: capturedFrom rest := by
            simp [capturedFrom, hc, htext]
          rw [List.map_cons, List.idxOf_cons_ne _ hentry, Nat.succ_le_succ_iff] at hk
          rw [verdicts_cons_of_takes ht, List.count_cons_self, Nat.add_le_add_iff_right,
            List.map_cons, List.take_succ_cons, hcaptured, List.cons_sublist_cons]
          exact ih hk .removed
        · -- The entry waits, and no choice of lines for the entries could begin with this one.
          rw [verdicts_cons_cons_of_not_takes ht, List.count_cons_of_ne (by decide), ih hk .kept]
          rw [takes_iff_of_ne_nil hentry] at ht
          rw [List.map_cons, List.take_succ_cons, cons_sublist_capturedFrom_cons_iff ht]

/-- Every entry that is left over stands behind those that were found. -/
theorem matched_le_index_of_mem_unmatched {content : Text} {entries : List Text} {left : Leftover}
    (h : left ∈ (sweepText content entries).unmatched) :
    (sweepText content entries).matched ≤ left.index ∧ left.index < entries.length := by
  obtain ⟨j, hj⟩ := List.mem_iff_getElem?.mp h
  rw [getElem?_unmatched_sweepText, Option.map_eq_some_iff] at hj
  obtain ⟨entry, he, rfl⟩ := hj
  exact ⟨Nat.le_add_right _ _, (List.getElem?_eq_some_iff.mp he).1⟩

/-- Up to the first blank entry, a sweep finds the greatest number of leading entries that form a
subsequence of the captured lines. -/
theorem isGreatest_matched_sweepText (content : Text) (entries : List Text) :
    let trimmed := entries.map trimEnd
    let swept := sweepText content entries
    IsGreatest {k | k ≤ trimmed.idxOf [] ∧ (trimmed.take k).Sublist (capturedLines content)}
        (min swept.matched (trimmed.idxOf [])) ∧
      ([] ∉ trimmed → ∀ left ∈ swept.unmatched,
        ¬ (trimmed.take (left.index + 1)).Sublist (capturedLines content)) := by
  intro trimmed swept
  have hfound {k : Nat} (hk : k ≤ trimmed.idxOf []) :
      k ≤ swept.matched ↔ (trimmed.take k).Sublist (capturedLines content) :=
    le_count_verdicts_iff hk .kept (surveyedLines content)
  refine ⟨⟨⟨min_le_right _ _, ?_⟩, ?_⟩, ?_⟩
  · exact (hfound (min_le_right _ _)).mp (min_le_left _ _)
  · rintro k ⟨hk, hsub⟩
    exact le_min ((hfound hk).mpr hsub) hk
  · intro hblank left hleft hsub
    obtain ⟨hbehind, hlt⟩ := matched_le_index_of_mem_unmatched hleft
    have hbound : left.index + 1 ≤ trimmed.idxOf [] := by
      rw [List.idxOf_eq_length_iff.mpr hblank, List.length_map]
      exact hlt
    exact absurd ((hfound hbound).mpr hsub) (Nat.not_le.mpr (Nat.lt_succ_of_le hbehind))

/-- The last of three entries is left over, as its line stands in front of the others. -/
theorem isGreatest_matched_sweepText_reordered :
    let content : Text := "// b\n// a\nint a;\n// a\n\n// b\n".toList
    let entries : List Text := ["// a ".toList, "// b".toList, "// a".toList]
    let trimmed := entries.map trimEnd
    let left : Leftover := ⟨2, "// a".toList⟩
    [] ∉ trimmed ∧ left ∈ (sweepText content entries).unmatched ∧
      ¬ (trimmed.take (left.index + 1)).Sublist (capturedLines content) := by
  intro content entries trimmed left
  have hblank : [] ∉ trimmed := by decide
  have hleft : left ∈ (sweepText content entries).unmatched := by decide +kernel
  exact ⟨hblank, hleft, (isGreatest_matched_sweepText content entries).2 hblank left hleft⟩

end CommentSweep
