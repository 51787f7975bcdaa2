import CommentSweep.Proofs.Comment.Character
import CommentSweep.Proofs.Sweep.Rewriting

/-!
# Lines surveyed with their blanks

Blanks at the end of a line add nothing to its survey but blanks at the end of the code, which are
trimmed away before the code is written.
-/

namespace CommentSweep

/-- A survey without the blanks at the end of its code. -/
def Survey.trimmed (survey : Survey) : Survey := { survey with code := trimEnd survey.code }

/-- A surveyed line without the blanks at the end of its code. -/
def SurveyedLine.trimmed (line : SurveyedLine) : SurveyedLine :=
  { line with survey := line.survey.trimmed }

section Surveys

/-- Trimming a line before its survey takes away nothing but blanks at the end of its code. -/
theorem trimmed_survey_trimEnd (start : Region) (line : Text) :
    (survey start (trimEnd line)).trimmed = (survey start line).trimmed := by
  obtain ⟨tail, hline, htail⟩ := exists_blank_append line
  obtain ⟨blanks, hblanks, hsurvey⟩ := exists_survey_append_of_blank start (trimEnd line) htail
  rw [← hline] at hsurvey
  rw [hsurvey, Survey.trimmed, Survey.trimmed, trimEnd_append_of_blank _ hblanks]

/-- Trimming lines before their surveys takes away nothing but blanks at the ends of their code. -/
theorem map_trimmed_surveys (start : Region) (texts : List Text) :
    (surveys start (texts.map trimEnd)).map Survey.trimmed =
      (surveys start texts).map Survey.trimmed := by
  induction texts generalizing start with
  | nil => rfl
  | cons text rest ih =>
    have hfirst := trimmed_survey_trimEnd start text
    obtain ⟨-, hafter, -⟩ := Survey.mk.inj hfirst
    rw [List.map_cons, surveys, surveys, List.map_cons, List.map_cons, hfirst, hafter, ih]

end Surveys

section Lines

/-- The captured lines among surveyed ones. -/
def capturedAmong (surveyed : List SurveyedLine) : List Text :=
  (surveyed.filter (·.survey.commented)).map (·.text)

/-- Sweep the listed entries out of surveyed lines. -/
def sweepAmong (surveyed : List SurveyedLine) (entries : List Text) : Swept :=
  let judged := verdicts entries .kept surveyed
  let matched := judged.count .removed
  { content := (List.zipWith SurveyedLine.written surveyed judged).flatten
    matched
    unmatched := leftoversFrom matched entries }

/-- The lines that are captured are those among the lines surveyed right-trimmed. -/
theorem capturedLines_eq (content : Text) :
    capturedLines content = capturedAmong (surveyedLines content) := rfl

/-- Entries are swept out of the lines surveyed right-trimmed. -/
theorem sweepText_eq (content : Text) (entries : List Text) :
    sweepText content entries = sweepAmong (surveyedLines content) entries := rfl

@[simp] theorem SurveyedLine.written_trimmed (line : SurveyedLine) (verdict : Verdict) :
    line.trimmed.written verdict = line.written verdict := by
  cases verdict with
  | kept => rfl
  | removed =>
    simp only [written, stripped, trimmed, Survey.trimmed, allBlank_trimEnd, trimEnd_trimEnd]

theorem capturedAmong_map_trimmed (surveyed : List SurveyedLine) :
    capturedAmong (surveyed.map SurveyedLine.trimmed) = capturedAmong surveyed := by
  rw [capturedAmong, List.filter_map, List.map_map]
  rfl

theorem sweepAmong_map_trimmed (surveyed : List SurveyedLine) (entries : List Text) :
    sweepAmong (surveyed.map SurveyedLine.trimmed) entries = sweepAmong surveyed entries := by
  have hverdicts :=
    verdicts_map SurveyedLine.trimmed (fun _ _ _ => rfl) entries .kept surveyed
  simp only [sweepAmong, hverdicts, List.zipWith_map_left, SurveyedLine.written_trimmed]

/-- The lines of a file, each with the survey of the text that it is read as. -/
def surveyedAs (reading : Line → Text) (content : Text) : List SurveyedLine :=
  List.zipWith SurveyedLine.mk (lines content) (surveys .code ((lines content).map reading))

/-- A way of reading the lines of a file that comes to the same as reading them right-trimmed. -/
structure ReadsAlike (reading : Line → Text) (content : Text) : Prop where
  /-- The lines carry the same comments, end in the same regions and leave the same code, apart from
  blanks at its end. -/
  surveyed : (surveyedAs reading content).map SurveyedLine.trimmed =
    (surveyedLines content).map SurveyedLine.trimmed
  captured : capturedAmong (surveyedAs reading content) = capturedLines content
  swept : ∀ entries, sweepAmong (surveyedAs reading content) entries = sweepText content entries

/-- It comes to the same to read lines in any way that differs only in blanks at their ends. -/
theorem readsAlike_of_trimEnd {reading : Line → Text}
    (h : ∀ line, trimEnd (reading line) = trimEnd line.body) (content : Text) :
    ReadsAlike reading content := by
  have htexts : (lines content).map (fun line => trimEnd line.body) =
      ((lines content).map reading).map trimEnd := by
    rw [List.map_map]
    exact List.map_congr_left fun line _ => (h line).symm
  have hsurveyed : (surveyedAs reading content).map SurveyedLine.trimmed =
      (surveyedLines content).map SurveyedLine.trimmed := by
    have htrimmed (surveyed : List Survey) :
        (List.zipWith SurveyedLine.mk (lines content) surveyed).map SurveyedLine.trimmed =
          List.zipWith SurveyedLine.mk (lines content) (surveyed.map Survey.trimmed) := by
      rw [List.map_zipWith, List.zipWith_map_right]
      rfl
    rw [surveyedAs, surveyedLines, htrimmed, htrimmed, htexts, map_trimmed_surveys]
  refine ⟨hsurveyed, ?_, fun entries => ?_⟩
  · rw [← capturedAmong_map_trimmed, hsurveyed, capturedAmong_map_trimmed, capturedLines_eq]
  · rw [← sweepAmong_map_trimmed, hsurveyed, sweepAmong_map_trimmed, sweepText_eq]

/-- Trimming a line before its survey takes nothing but blanks from the end of its code, so the
lines of a file may be read with their blanks and endings. -/
theorem survey_trimEnd (start : Region) (line content : Text) :
    ((survey start (trimEnd line)).commented = (survey start line).commented ∧
      (survey start (trimEnd line)).after = (survey start line).after ∧
        trimEnd (survey start (trimEnd line)).code = trimEnd (survey start line).code) ∧
      ReadsAlike Line.body content ∧ ReadsAlike Line.raw content := by
  refine ⟨Survey.mk.inj (trimmed_survey_trimEnd start line), ?_, ?_⟩
  · exact readsAlike_of_trimEnd (fun _ => rfl) content
  · exact readsAlike_of_trimEnd trimEnd_raw content

end Lines

end CommentSweep
