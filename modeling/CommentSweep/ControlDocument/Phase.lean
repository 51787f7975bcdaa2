import CommentSweep.ControlDocument.Block
import CommentSweep.Text.Line

/-!
# Reading a control document line by line

The latest line of a block is held back until the next one is seen, because an empty line directly
before a header is the separator between blocks and no entry.
-/

namespace CommentSweep

/-- A block whose end has not been seen: the settled entries and the line held back. -/
structure OpenBlock where
  path : Text
  settled : Array Text
  held : Option Text
  deriving DecidableEq, Repr

/-- How far the reading of a control document has come. -/
inductive Phase where
  /-- No header has been seen. -/
  | preamble
  /-- The latest header names no file. -/
  | skipping
  /-- The latest header names the file of this block. -/
  | inBlock (current : OpenBlock)
  deriving DecidableEq, Repr

/-- What comes to light in the course of the reading. -/
inductive BlockEvent where
  | closed (list : RemovalList)
  /-- A header names no file, so what follows it belongs to no block. -/
  | unnamed
  deriving DecidableEq, Repr

namespace OpenBlock

/-- A block right after its header. -/
def empty (path : Text) : OpenBlock := ⟨path, #[], none⟩

/-- The lines since the header that are settled or held, in order. -/
def lines (current : OpenBlock) : List Text := current.settled.toList ++ current.held.toList

/-- A further line settles the one held before it. -/
def extend (current : OpenBlock) (line : Text) : OpenBlock :=
  match current.held with
  | none => { current with held := some line }
  | some previous => { current with settled := current.settled.push previous, held := some line }

/-- Nothing is lost or reordered while a line is held back. -/
@[simp] theorem lines_extend (current : OpenBlock) (line : Text) :
    (current.extend line).lines = current.lines ++ [line] := by
  unfold extend lines
  split <;> simp_all

@[simp] theorem lines_empty (path : Text) : (empty path).lines = [] := rfl

/-- The block as it ends with the document: a held line is an entry. -/
def atEnd (current : OpenBlock) : RemovalList := ⟨current.path, current.lines⟩

/-- The block as it ends before a header: a held line is an entry unless it is empty. -/
def atHeader (current : OpenBlock) : RemovalList :=
  ⟨current.path, current.settled.toList ++ current.held.toList.filter (!·.isEmpty)⟩

end OpenBlock

namespace Phase

/-- The text behind the header mark, if the line is a header. Only the first one needs no blank. -/
def headerText? : Phase → Text → Option Text
  | .preamble, line => ['#'].isPrefixOf? line
  | _, line => ['#', ' '].isPrefixOf? line

/-- The phase below a header, whose path is trimmed on both sides. -/
def below (header : Text) : Phase :=
  if (trim header).isEmpty then .skipping else .inBlock (.empty (trim header))

/-- What a header brings to light: the end of the block before it, then whether it names no file. -/
def headerEvents (phase : Phase) (header : Text) : List BlockEvent :=
  (match phase with
    | .inBlock current => [.closed current.atHeader]
    | _ => []) ++
  if (trim header).isEmpty then [.unnamed] else []

/-- The phase behind a line that is no header. Outside a block the line belongs to nothing. -/
def beyond : Phase → Text → Phase
  | .inBlock current, line => .inBlock (current.extend line)
  | phase, _ => phase

/-- Read one line. A carriage return at its end is no part of it. -/
def step (phase : Phase) (raw : Text) : Phase × List BlockEvent :=
  let line := (['\r'].isSuffixOf? raw).getD raw
  match phase.headerText? line with
  | some header => (below header, phase.headerEvents header)
  | none => (phase.beyond line, [])

/-- Read lines in order; their events follow each other. -/
def advance : Phase → List Text → Phase × List BlockEvent
  | phase, [] => (phase, [])
  | phase, line :: rest =>
    let next := phase.step line
    let last := next.1.advance rest
    (last.1, next.2 ++ last.2)

/-- Reading may be interrupted between any two lines. -/
theorem advance_append (phase : Phase) (before after : List Text) :
    phase.advance (before ++ after) =
      let middle := phase.advance before
      let last := middle.1.advance after
      (last.1, middle.2 ++ last.2) := by
  induction before generalizing phase with
  | nil => rfl
  | cons line rest ih => simp [advance, ih]

/-- What the end of the document brings to light. -/
def conclude : Phase → List BlockEvent
  | .inBlock current => [.closed current.atEnd]
  | _ => []

end Phase

/-- Everything that comes to light when lines are read as a whole document, in order. -/
def blockEvents (lines : List Text) : List BlockEvent :=
  let last := Phase.preamble.advance lines
  last.2 ++ last.1.conclude

/-- The list that an event completes, if any. -/
def BlockEvent.list? : BlockEvent → Option RemovalList
  | .closed list => some list
  | .unnamed => none

def documentEvents (document : Text) : List BlockEvent :=
  blockEvents ((lines document).map (·.body))

/-- The removal lists of a control document, one for each block, in document order. -/
def parseDocument (document : Text) : List RemovalList :=
  (documentEvents document).filterMap BlockEvent.list?

end CommentSweep
