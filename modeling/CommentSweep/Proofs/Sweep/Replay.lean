import CommentSweep.Proofs.Sweep.Rewriting

/-!
# Sweeping out what was captured

The captured lines and the lines with a comment stay in step, so exactly these lines are removed and
the swept text holds no comment any more.
-/

namespace CommentSweep

/-- A text with its comments stripped. A line without comment stays as it is; of any other line the
trimmed code and the ending are left, or nothing if all code is blank. -/
def withoutComments (content : Text) : Text :=
  (surveyedLines content).flatMap fun line =>
    if line.survey.commented then
      if allBlank line.survey.code then []
      else trimEnd line.survey.code ++ line.line.ending.text
    else line.line.raw

/-- The texts of the lines that carry a comment. -/
def capturedFrom (ls : List SurveyedLine) : List Text :=
  (ls.filter (·.survey.commented)).map (·.text)

theorem text_ne_nil_of_commented {line : Line}
    (h : (survey .code (trimEnd line.body)).commented = true) : trimEnd line.body ≠ [] := by
  intro hb
  rw [hb, survey_of_openerFree openerFree_nil] at h
  exact absurd h Bool.false_ne_true

/-- The first line with a comment behind code is not blank. -/
theorem head?_capturedFrom_ne_nil (ls : List Line) :
    ∀ text ∈ (capturedFrom (surveyedFrom .code ls)).head?, trimEnd text ≠ [] := by
  induction ls with
  | nil => exact nofun
  | cons line rest ih =>
    rw [surveyedFrom_cons]
    cases hc : (survey .code (trimEnd line.body)).commented with
    | true =>
      intro text ht
      simp only [capturedFrom, List.filter_cons, hc, ite_true, List.map_cons, List.head?_cons,
        Option.mem_some_iff] at ht
      rw [← ht, SurveyedLine.text, trimEnd_trimEnd]
      exact text_ne_nil_of_commented hc
    | false =>
      simp only [capturedFrom, List.filter_cons, hc]
      rw [survey_of_commented_eq_false hc]
      exact ih

/-- With the captured lines as entries exactly the lines that carry a comment are removed. -/
theorem verdicts_capturedFrom (start : Region) (previous : Verdict) (ls : List Line)
    (h : start = .block → previous = .removed) :
    verdicts (capturedFrom (surveyedFrom start ls)) previous (surveyedFrom start ls) =
      (surveyedFrom start ls).map fun line => if line.survey.commented then .removed else .kept := by
  -- A line that begins in a block comment stands behind a removed one, as a blank entry needs.
  induction ls generalizing start previous with
  | nil => rfl
  | cons line rest ih =>
    rw [surveyedFrom_cons]
    cases hc : (survey start (trimEnd line.body)).commented with
    | true =>
      have ht : takes (trimEnd line.body) previous ⟨line, survey start (trimEnd line.body)⟩ =
          true := by
        refine takes_iff.mpr ⟨(trimEnd_trimEnd _).symm, Or.inl hc, fun hb => h ?_⟩
        cases start with
        | block => rfl
        | code => exact absurd hb (text_ne_nil_of_commented hc)
      simp only [capturedFrom, List.filter_cons, hc, ite_true, List.map_cons]
      exact (verdicts_cons_of_takes ht _ _).trans (congrArg _ (ih _ _ fun _ => rfl))
    | false =>
      have hn : ∀ entry ∈ (capturedFrom (surveyedFrom .code rest)).head?,
          takes entry previous ⟨line, survey start (trimEnd line.body)⟩ = false := by
        intro entry he
        rw [Bool.eq_false_iff, ne_eq, takes_iff]
        rintro ⟨ht, hd | hb, -⟩
        · exact absurd (hc.symm.trans hd) Bool.false_ne_true
        · exact head?_capturedFrom_ne_nil rest entry he (ht.symm.trans hb)
      simp only [capturedFrom, List.filter_cons, hc, List.map_cons]
      rw [survey_of_commented_eq_false hc] at hn ⊢
      exact (verdicts_cons_of_not_takes hn _).trans (congrArg _ (ih .code .kept nofun))

/-- The captured lines of a text remove exactly its lines with a comment. -/
theorem verdicts_capturedLines (content : Text) :
    verdicts (capturedLines content) .kept (surveyedLines content) =
      (surveyedLines content).map fun line => if line.survey.commented then .removed else .kept :=
  verdicts_capturedFrom .code .kept (lines content) nofun

theorem judgedLines_capturedLines (content : Text) :
    judgedLines content (capturedLines content) = (surveyedLines content).map fun line =>
      (line, if line.survey.commented then Verdict.removed else .kept) := by
  rw [judgedLines, verdicts_capturedLines, List.map_prod_left_eq_zip]

/-- A kept and a removed line meet only where the region is code. -/
theorem seamsInCode_capturedLines (content : Text) :
    SeamsInCode (judgedLines content (capturedLines content)) := by
  rw [judgedLines_capturedLines, SeamsInCode, List.isChain_map]
  refine (isChain_surveyedFrom .code (lines content)).imp ?_
  rintro earlier later ⟨⟨region, he⟩, hl⟩ hne
  cases hc : later.survey.commented with
  | false =>
    rw [hl] at hc
    exact (commented_eq_false_iff.mp hc).1
  | true =>
    cases hd : earlier.survey.commented with
    | true => simp [hc, hd] at hne
    | false =>
      rw [he] at hd
      rw [he, survey_of_commented_eq_false hd]

/-- Each captured line is found. -/
theorem matched_capturedLines (content : Text) :
    (sweepText content (capturedLines content)).matched = (capturedLines content).length := by
  change (verdicts (capturedLines content) .kept (surveyedLines content)).count .removed =
    (capturedLines content).length
  rw [verdicts_capturedLines, capturedLines, List.length_map, ← List.countP_eq_length_filter,
    List.count_eq_countP, List.countP_map]
  refine List.countP_congr fun line _ => ?_
  cases hc : line.survey.commented <;> simp [hc]

/-- No captured line is left over. -/
theorem unmatched_capturedLines (content : Text) :
    (sweepText content (capturedLines content)).unmatched = [] := by
  change leftoversFrom (sweepText content (capturedLines content)).matched _ = []
  rw [matched_capturedLines, leftoversFrom, List.map_eq_nil_iff]
  exact List.drop_eq_nil_of_le (by rw [List.length_zipIdx])

/-- Sweeping the captured lines out of a text strips its comments. -/
theorem content_capturedLines (content : Text) :
    (sweepText content (capturedLines content)).content = withoutComments content := by
  rw [content_sweepText, judgedLines_capturedLines, List.flatMap_map, withoutComments]
  refine congrArg (fun write => (surveyedLines content).flatMap write) (funext fun line => ?_)
  cases hc : line.survey.commented <;> rfl

/-- No comment is captured when the captured lines have been swept out. -/
theorem capturedLines_sweepText_capturedLines (content : Text) :
    capturedLines (sweepText content (capturedLines content)).content = [] := by
  rw [capturedLines, surveyedLines_sweepText (seamsInCode_capturedLines content),
    judgedLines_capturedLines, List.map_eq_nil_iff, List.filter_eq_nil_iff]
  intro found hf
  obtain ⟨judged, hm, hr⟩ := List.mem_filterMap.mp hf
  obtain ⟨line, hl, rfl⟩ := List.mem_map.mp hm
  cases hc : line.survey.commented with
  | false =>
    simp only [hc, Bool.false_eq_true, ite_false, SurveyedLine.resurveyed?,
      Option.some.injEq] at hr
    rw [← hr, hc]
    exact Bool.false_ne_true
  | true =>
    simp only [hc, ite_true, SurveyedLine.resurveyed?, Option.map_eq_some_iff] at hr
    obtain ⟨new, -, rfl⟩ := hr
    exact Bool.false_ne_true

/-- A text without comments keeps all its lines, whatever the entries are. -/
theorem sweepText_of_capturedLines_eq_nil {content : Text} (h : capturedLines content = [])
    (entries : List Text) :
    (sweepText content entries).matched = 0 ∧ (sweepText content entries).content = content := by
  have hn : ∀ line ∈ surveyedLines content, line.survey.commented = false := by
    intro line hl
    rw [capturedLines, List.map_eq_nil_iff, List.filter_eq_nil_iff] at h
    exact Bool.eq_false_iff.mpr (h line hl)
  have hv := verdicts_of_no_comment hn entries
  constructor
  · simp [sweepText, hv, List.count_replicate]
  · exact content_sweepText_of_notMem (by simp [hv])

theorem capturedLines_withoutComments (content : Text) :
    capturedLines (withoutComments content) = [] := by
  rw [← content_capturedLines]
  exact capturedLines_sweepText_capturedLines content

/-- Exactly a text without comments stays as it is when its comments are stripped. -/
theorem withoutComments_eq_self_iff {content : Text} :
    withoutComments content = content ↔ capturedLines content = [] := by
  constructor
  · intro h
    rw [← h]
    exact capturedLines_withoutComments content
  · intro h
    rw [← content_capturedLines]
    exact (sweepText_of_capturedLines_eq_nil h _).2

/-- Sweeping the captured lines of a text out of it removes every entry and strips exactly the
comments. No comment is captured from what is left, and the same entries change nothing there. -/
theorem sweepText_capturedLines (content : Text) :
    let entries := capturedLines content
    let swept := sweepText content entries
    swept.matched = entries.length ∧ swept.unmatched = [] ∧
      swept.content = withoutComments content ∧ capturedLines swept.content = [] ∧
        (sweepText swept.content entries).matched = 0 ∧
          (sweepText swept.content entries).content = swept.content := by
  intro entries swept
  have hnone : capturedLines swept.content = [] := capturedLines_sweepText_capturedLines content
  exact ⟨matched_capturedLines content, unmatched_capturedLines content,
    content_capturedLines content, hnone, sweepText_of_capturedLines_eq_nil hnone entries⟩

end CommentSweep
