import CommentSweep.ControlDocument.Phase
import CommentSweep.Sweep.Content

/-!
# Capture and sweep in memory

Texts are captured, and the blocks of the document are swept out of them, without touching a file.
-/

namespace CommentSweep

/-- The text of a file under its path. -/
structure NamedText where
  path : Text
  content : Text
  deriving DecidableEq, Repr

def NamedText.capture (file : NamedText) : Capture := ⟨file.path, capturedLines file.content⟩

/-- One block tried out: what sweeping it comes to, and the comment lines that stay behind. -/
structure Trial where
  list : RemovalList
  swept : Swept
  remaining : List Text
  deriving DecidableEq, Repr

/-- Try a block on the first text under exactly its path, if there is one. -/
def trial? (files : List NamedText) (list : RemovalList) : Option Trial :=
  (files.find? (·.path == list.path)).map fun file =>
    let swept := sweepText file.content list.entries
    ⟨list, swept, capturedLines swept.content⟩

/-- What a rehearsal produces at each stage. -/
structure Rehearsal where
  document : Text
  blocks : List RemovalList
  /-- One item for each block, in document order. -/
  trials : List (Option Trial)
  deriving DecidableEq, Repr

/-- Capture all texts into one document and try it on them. -/
def rehearse (files : List NamedText) : Rehearsal :=
  let document := writeDocument (files.map NamedText.capture)
  let blocks := parseDocument document
  ⟨document, blocks, blocks.map (trial? files)⟩

end CommentSweep
