import CommentSweep.Text.Affix
import CommentSweep.Text.Blank

/-!
# Lines and their endings

Cutting works on any alphabet, because control documents are split as bytes before they are decoded.
-/

namespace CommentSweep

variable {α : Type} [DecidableEq α]

/-- The pieces of a list, each ending with its first separator; only the last may lack one. -/
def splitAfter (separator : α) (items : List α) : List (List α) :=
  items.splitBy fun x _ => x != separator

/-- How a line ends: with the text itself, with a line feed, or with a carriage return before it. -/
inductive Ending where
  | none
  | lf
  | crlf
  deriving DecidableEq, Repr

def Ending.text : Ending → Text
  | .none => []
  | .lf => ['\n']
  | .crlf => ['\r', '\n']

/-- Cut off the ending of a piece. A carriage return counts only directly before the line feed. -/
def cutEnding (cr lf : α) (piece : List α) : List α × Ending :=
  match [cr, lf].isSuffixOf? piece, [lf].isSuffixOf? piece with
  | some body, _ => (body, .crlf)
  | none, some body => (body, .lf)
  | none, none => (piece, .none)

/-- A line of a text: what it holds and how it ends. -/
structure Line where
  body : Text
  ending : Ending
  deriving DecidableEq, Repr

/-- The line as it stands in the text. -/
def Line.raw (line : Line) : Text := line.body ++ line.ending.text

/-- The line that a piece of text is. -/
def Line.ofPiece (piece : Text) : Line :=
  ⟨(cutEnding '\r' '\n' piece).1, (cutEnding '\r' '\n' piece).2⟩

theorem Line.raw_ofPiece (piece : Text) : (Line.ofPiece piece).raw = piece := by
  unfold Line.raw Line.ofPiece cutEnding
  split
  case h_1 h => simp [Ending.text, eq_append_of_isSuffixOf? h]
  case h_2 h => simp [Ending.text, eq_append_of_isSuffixOf? h]
  case h_3 => simp [Ending.text]

/-- The lines of a text in order; no empty line follows a final line feed. -/
def lines (text : Text) : List Line := (splitAfter '\n' text).map Line.ofPiece

end CommentSweep
