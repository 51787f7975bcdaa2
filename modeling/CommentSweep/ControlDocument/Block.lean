import CommentSweep.Text.Blank

/-!
# Blocks of a control document

A captured file is written as a block; a block that is read is the list of lines to remove.
-/

namespace CommentSweep

/-- The lines of one file that carry a comment, in file order. -/
structure Capture where
  path : Text
  lines : List Text
  deriving DecidableEq, Repr

/-- The ordered lines to remove from one file. -/
structure RemovalList where
  path : Text
  entries : List Text
  deriving DecidableEq, Repr

/-- A capture is written as an empty line, a header and its lines, or not at all without lines. -/
def Capture.block (capture : Capture) : Text :=
  if capture.lines.isEmpty then []
  else
    '\n' :: '#' :: ' ' :: capture.path ++ '\n' :: capture.lines.flatMap fun line => line ++ ['\n']

/-- The control document of captures, in the given order. -/
def writeDocument (captures : List Capture) : Text := captures.flatMap Capture.block

end CommentSweep
