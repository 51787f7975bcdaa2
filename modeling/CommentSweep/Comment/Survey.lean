import CommentSweep.Comment.Stretch
import CommentSweep.Text.Line

/-!
# Surveys of lines

The lines of a file are surveyed right-trimmed and in order, each in the region that the one before
it ended in; a file begins in code.
-/

namespace CommentSweep

/-- What a line turns out to hold. -/
structure Survey where
  /-- Whether any part of the line lies in a comment. -/
  commented : Bool
  /-- The region that the line ends in. -/
  after : Region
  /-- The text of the line outside comments. -/
  code : Text
  deriving DecidableEq, Repr

/-- Survey a line that begins in a region. One that begins in a block comment carries a comment. -/
def survey (start : Region) (line : Text) : Survey :=
  let passed := stretches start line
  { commented := start == .block || passed.any Stretch.opensComment
    after := (passed.getLast?.map Stretch.after).getD start
    code := passed.flatMap Stretch.codeText }

/-- Survey lines in order, each in the region that the one before it ended in. -/
def surveys : Region → List Text → List Survey
  | _, [] => []
  | start, line :: rest =>
    let first := survey start line
    first :: surveys first.after rest

/-- A line of a file together with its survey. -/
structure SurveyedLine where
  line : Line
  survey : Survey
  deriving DecidableEq, Repr

/-- The line as it is surveyed, captured and compared. -/
def SurveyedLine.text (surveyed : SurveyedLine) : Text := trimEnd surveyed.line.body

/-- The lines of a file, each with the survey of its trimmed text. -/
def surveyedLines (content : Text) : List SurveyedLine :=
  let all := lines content
  List.zipWith SurveyedLine.mk all (surveys .code (all.map fun line => trimEnd line.body))

/-- The trimmed lines of a file that carry a comment, in file order. -/
def capturedLines (content : Text) : List Text :=
  ((surveyedLines content).filter (·.survey.commented)).map (·.text)

end CommentSweep
