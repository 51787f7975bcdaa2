import CommentSweep.Comment.Survey

/-!
# Verdicts on the lines of a file

A line is removed when it is the next entry, up to blanks at the end, and carries a comment or is
blank; a blank line only directly behind a removed one.
-/

namespace CommentSweep

/-- What becomes of a line. -/
inductive Verdict where
  | kept
  | removed
  deriving DecidableEq, Repr

/-- Whether an entry takes a line, given what became of the line before. -/
def takes (entry : Text) (previous : Verdict) (line : SurveyedLine) : Bool :=
  (line.survey.commented || line.text.isEmpty) && line.text == trimEnd entry &&
    (!line.text.isEmpty || previous == .removed)

/-- The verdict on each line. The next entry waits until a line comes that it takes. -/
def verdicts : List Text → Verdict → List SurveyedLine → List Verdict
  | _, _, [] => []
  | [], _, _ :: rest => .kept :: verdicts [] .kept rest
  | entry :: entries, previous, line :: rest =>
    if takes entry previous line then
      .removed :: verdicts entries .removed rest
    else
      .kept :: verdicts (entry :: entries) .kept rest

/-- What is left of a removed line: its trimmed code and its ending, if the code is not blank. -/
def SurveyedLine.stripped (line : SurveyedLine) : Text :=
  if allBlank line.survey.code then []
  else trimEnd line.survey.code ++ line.line.ending.text

/-- What is written for a line under a verdict. -/
def SurveyedLine.written (line : SurveyedLine) : Verdict → Text
  | .kept => line.line.raw
  | .removed => line.stripped

end CommentSweep
