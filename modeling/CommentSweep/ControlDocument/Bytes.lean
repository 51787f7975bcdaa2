import CommentSweep.ControlDocument.Phase
import CommentSweep.Failure
import CommentSweep.Text.Utf8

/-!
# Reading a control document from bytes

Each line is decoded on its own, so a line that is not UTF-8 is known by its number.
-/

namespace CommentSweep

/-- The events on the way, and either the lists or the failure at a line that was not decoded. -/
structure DocumentReading where
  events : List BlockEvent
  result : Except Failure (List RemovalList)

def parseDocumentBytes (bytes : Bytes) : DocumentReading :=
  let decoded := decodeLines (byteLines bytes)
  match decoded.2 with
  | some index =>
    ⟨(Phase.preamble.advance decoded.1).2, .error ⟨[.readingControlLine (index + 1)], .notUtf8⟩⟩
  | none =>
    let events := blockEvents decoded.1
    ⟨events, .ok (events.filterMap BlockEvent.list?)⟩

end CommentSweep
