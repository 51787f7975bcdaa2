import CommentSweep.Proofs.Sweep.Selection

/-!
# Leaving entries off the end of a list

An entry has its turn only when all entries before it have been found, so what becomes of a line
does not depend on the entries still to come.
-/

namespace CommentSweep

theorem idxsOf_verdicts_nil (previous : Verdict) (ls : List SurveyedLine) (place : Nat) :
    (verdicts [] previous ls).idxsOf .removed place = [] := by
  induction ls generalizing previous place with
  | nil => rfl
  | cons line rest ih => exact ih .kept (place + 1)

/-- The first `k` entries remove the first `k` of the lines that are removed for all. -/
theorem idxsOf_verdicts_take (k : Nat) (entries : List Text) (previous : Verdict)
    (ls : List SurveyedLine) (place : Nat) :
    (verdicts (entries.take k) previous ls).idxsOf .removed place =
      ((verdicts entries previous ls).idxsOf .removed place).take k := by
  induction ls generalizing k entries previous place with
  | nil => simp [verdicts]
  | cons line rest ih =>
    cases k with
    | zero => rw [List.take_zero, List.take_zero, idxsOf_verdicts_nil]
    | succ k =>
      cases entries with
      | nil => rw [List.take_nil, idxsOf_verdicts_nil, List.take_nil]
      | cons entry entries =>
        rw [List.take_succ_cons]
        by_cases ht : takes entry previous line = true
        · rw [verdicts_cons_of_takes ht, verdicts_cons_of_takes ht]
          exact congrArg (place :: ·) (ih k entries .removed (place + 1))
        · rw [verdicts_cons_cons_of_not_takes ht, verdicts_cons_cons_of_not_takes ht]
          exact ih (k + 1) (entry :: entries) .kept (place + 1)

theorem removedPlaces_take (content : Text) (entries : List Text) (k : Nat) :
    removedPlaces content (entries.take k) = (removedPlaces content entries).take k :=
  idxsOf_verdicts_take k entries .kept (surveyedLines content) 0

/-- Lists that remove the same lines leave the same text. -/
theorem content_sweepText_congr {content : Text} {entries others : List Text}
    (h : removedPlaces content entries = removedPlaces content others) :
    (sweepText content entries).content = (sweepText content others).content := by
  rw [content_sweepText, content_sweepText, judgedLines_eq_map_zipIdx, judgedLines_eq_map_zipIdx, h]

/-- What the leading entries come to does not depend on those behind them, and entries that are left
over may be left off. -/
theorem sweepText_take (content : Text) (entries : List Text) (k : Nat) :
    let shorter := sweepText content (entries.take k)
    let swept := sweepText content entries
    removedPlaces content (entries.take k) = (removedPlaces content entries).take k ∧
      shorter.matched = min k swept.matched ∧
      (swept.matched ≤ k → shorter.matched = swept.matched ∧ shorter.content = swept.content) := by
  intro shorter swept
  have hplaces := removedPlaces_take content entries k
  have hmatched : shorter.matched = min k swept.matched := by
    rw [← length_removedPlaces, hplaces, List.length_take, length_removedPlaces]
  refine ⟨hplaces, hmatched, fun hk => ⟨hmatched.trans (min_eq_right hk), ?_⟩⟩
  have hall : (removedPlaces content entries).take k = removedPlaces content entries :=
    List.take_of_length_le ((length_removedPlaces content entries).trans_le hk)
  exact content_sweepText_congr (hplaces.trans hall)

/-- A comment that is not in the text, one behind it, and a list that ends in a block comment. -/
theorem sweepText_take_left_over :
    let content : Text := "/* a\n\nb */\nint x;\n// c\n".toList
    let entries : List Text :=
      ["/* a".toList, [], "b */".toList, "// lost".toList, "// c".toList]
    let swept := sweepText content entries
    swept.matched ≤ 4 ∧
      (sweepText content (entries.take 4)).content = swept.content ∧
        swept.content = "int x;\n// c\n".toList ∧
          (sweepText content (entries.take 2)).matched = 2 := by
  intro content entries swept
  have hfound : swept.matched = 3 := by decide +kernel
  have hle : swept.matched ≤ 4 := by omega
  obtain ⟨-, -, hsame⟩ := sweepText_take content entries 4
  obtain ⟨-, hshort, -⟩ := sweepText_take content entries 2
  refine ⟨hle, (hsame hle).2, by decide +kernel, hshort.trans ?_⟩
  change min 2 swept.matched = 2
  omega

end CommentSweep
