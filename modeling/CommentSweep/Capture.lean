import CommentSweep.Comment.Survey
import CommentSweep.Job

/-!
# Capturing the comment lines of files

The comment lines of files are written as one control document, unless a file cannot be read.
-/

namespace CommentSweep

/-- Capture the comment lines of the file at a path. -/
def captureFile (path : Text) : Job (Except Failure Capture) := do
  match ← Job.readText path with
  | .error fault => return .error ⟨[.readingFile path], fault⟩
  | .ok content =>
    let capture : Capture := ⟨path, capturedLines content⟩
    Job.tell (.captured path capture.lines.length)
    return .ok capture

/-- Capture several files, in the given order. -/
def captureFiles : List Text → Job (Except Failure (List Capture))
  | [] => return .ok []
  | path :: rest => do
    match ← captureFile path with
    | .error failure => return .error failure
    | .ok capture => return (← captureFiles rest).map (capture :: ·)

/-- Capture several files as a control document. -/
def captureDocument (paths : List Text) : Job (Except Failure Text) := do
  return (← captureFiles paths).map writeDocument

end CommentSweep
