import CommentSweep.ControlDocument.Phase
import CommentSweep.Text.Display

/-!
# Notices

The level of a notice, the part that it belongs to and its wording follow from its kind.
-/

namespace CommentSweep

/-- How much a notice matters. -/
inductive Level where
  | error
  | warn
  | info
  | debug
  deriving DecidableEq, Repr

/-- The place of a level in the order of weight, the weightiest lowest. -/
def Level.rank : Level → Nat
  | .error => 0
  | .warn => 1
  | .info => 2
  | .debug => 3

/-- The part of the library that a notice comes from. -/
inductive Source where
  | controlDocument
  | capture
  | comparison
  | sweep
  deriving DecidableEq, Repr

def Source.name : Source → String
  | .controlDocument => "deletion_list"
  | .capture => "find_comments"
  | .comparison => "line_reconciler"
  | .sweep => "remove_comments"

/-- What a job tells. -/
inductive Notice where
  | blockRead (entries : Nat) (path : Text)
  /-- A header of a control document names no file. -/
  | blockSkipped
  | captured (path : Text) (count : Nat)
  | compared (path : Text) (matched total : Nat)
  | rewritten (path : Text)
  | nothingToDo
  | leftUnmatched (count total : Nat) (path : Text)
  | failed (path message : Text)
  deriving DecidableEq, Repr

namespace Notice

/-- Only what a user has to look at is a warning. -/
def level : Notice → Level
  | .blockRead .. => .debug
  | .blockSkipped => .warn
  | .captured .. => .debug
  | .compared .. => .debug
  | .rewritten _ => .info
  | .nothingToDo => .info
  | .leftUnmatched .. => .warn
  | .failed .. => .debug

def source : Notice → Source
  | .blockRead .. => .controlDocument
  | .blockSkipped => .controlDocument
  | .captured .. => .capture
  | .compared .. => .comparison
  | .rewritten _ => .comparison
  | .nothingToDo => .sweep
  | .leftUnmatched .. => .sweep
  | .failed .. => .sweep

def text : Notice → Text
  | .blockRead entries path =>
    "Parsed ".toList ++ digits entries ++ " deletion entries for ".toList ++ path
  | .blockSkipped => "Skipping block with an empty path header".toList
  | .captured path count => path ++ ": ".toList ++ digits count ++ " comment line(s)".toList
  | .compared path matched total =>
    path ++ ": matched ".toList ++ digits matched ++ " of ".toList ++ digits total ++
      " entries".toList
  | .rewritten path => "Rewrote ".toList ++ path
  | .nothingToDo => "Control document names no files; nothing to do".toList
  | .leftUnmatched count total path =>
    digits count ++ " of ".toList ++ digits total ++ " entries unmatched in ".toList ++ path
  | .failed path message => "Failed to process ".toList ++ path ++ ": ".toList ++ message

end Notice

/-- The notice that an event of a control document gives. -/
def BlockEvent.notice : BlockEvent → Notice
  | .closed list => .blockRead list.entries.length list.path
  | .unnamed => .blockSkipped

end CommentSweep
