import CommentSweep.Proofs.Sweep.Rewriting

/-!
# What a sweep preserves

A sweep that cuts no block comment in two preserves the code of a text and the comments of all lines
that it keeps.
-/

namespace CommentSweep

/-- The trimmed code of a line, unless all of it is blank. -/
def SurveyedLine.codeLine? (line : SurveyedLine) : Option Text :=
  if allBlank line.survey.code then none else some (trimEnd line.survey.code)

/-- The trimmed code of the lines of a text that hold any, in file order. -/
def codeLines (content : Text) : List Text :=
  (surveyedLines content).filterMap SurveyedLine.codeLine?

/-- The texts of the lines that carry a comment and are kept when entries are swept out of a text. -/
def keptComments (content : Text) (entries : List Text) : List Text :=
  ((judgedLines content entries).filter fun judged =>
    judged.2 == .kept && judged.1.survey.commented).map fun judged => judged.1.text

/-- A line has the same code whether it is kept or only its code is. -/
theorem SurveyedLine.bind_codeLine?_resurveyed? (line : SurveyedLine) (verdict : Verdict) :
    (line.resurveyed? verdict).bind codeLine? = line.codeLine? := by
  cases verdict with
  | kept => rfl
  | removed =>
    rw [resurveyed?, rewritten?, codeLine?]
    by_cases hb : allBlank line.survey.code = true
    · rw [if_pos hb, if_pos hb]
      rfl
    · have hcode : allBlank (trimEnd line.survey.code) ≠ true := by rwa [allBlank_trimEnd]
      simp only [if_neg hb, Option.map_some, Option.bind_some, codeLine?, if_neg hcode,
        trimEnd_trimEnd]

theorem filter_commented_resurveyed? (judged : List (SurveyedLine × Verdict)) :
    (judged.filterMap fun one => one.1.resurveyed? one.2).filter (·.survey.commented) =
      (judged.filter fun one => one.2 == .kept && one.1.survey.commented).map Prod.fst := by
  rw [List.filter_filterMap, ← List.filterMap_eq_filter, List.map_filterMap]
  refine List.filterMap_congr fun one _ => ?_
  obtain ⟨line, verdict⟩ := one
  cases verdict with
  | kept =>
    cases hc : line.survey.commented <;>
      simp [SurveyedLine.resurveyed?, Option.filter, Option.guard, hc]
  | removed =>
    cases hr : line.rewritten? .removed <;>
      simp [SurveyedLine.resurveyed?, Option.filter, Option.guard, hr]

/-- If a kept and a removed line meet only in code, the swept text has the comments of the kept
lines and all the code of the old text. -/
theorem capturedLines_codeLines_sweepText {content : Text} {entries : List Text}
    (h : SeamsInCode (judgedLines content entries)) :
    capturedLines (sweepText content entries).content = keptComments content entries ∧
      codeLines (sweepText content entries).content = codeLines content := by
  constructor
  · rw [capturedLines, surveyedLines_sweepText h, filter_commented_resurveyed?, List.map_map]
    rfl
  · rw [codeLines, surveyedLines_sweepText h, List.filterMap_filterMap, codeLines,
      ← map_fst_judgedLines content entries, List.filterMap_map]
    refine List.filterMap_congr fun judged _ => ?_
    exact judged.1.bind_codeLine?_resurveyed? judged.2

/-- A block comment over two lines goes as a whole. -/
theorem capturedLines_codeLines_sweepText_block :
    let content : Text := "x /* a\nb */ y\nz // k\n".toList
    let entries : List Text := ["x /* a".toList, "b */ y".toList]
    SeamsInCode (judgedLines content entries) ∧
      capturedLines (sweepText content entries).content = ["z // k".toList] ∧
        codeLines (sweepText content entries).content = codeLines content := by
  intro content entries
  have hseams : SeamsInCode (judgedLines content entries) := by decide +kernel
  obtain ⟨hcomments, hcode⟩ := capturedLines_codeLines_sweepText hseams
  have hkept : keptComments content entries = ["z // k".toList] := by decide +kernel
  exact ⟨hseams, hcomments.trans hkept, hcode⟩

end CommentSweep
