import CommentSweep.Notice
import CommentSweep.Proofs.ControlDocument.Reading

/-!
# A reader that changes in place

The parser as a record whose fields change one at a time. Over any lines it is the reader of the
phase that they lead to, although nothing in its form makes it so.
-/

namespace CommentSweep

/-- The record of the end of a block. -/
def RemovalList.record (list : RemovalList) : Notice := .blockRead list.entries.length list.path

/-- The notices among these that are for debugging. -/
def debugRecords (notices : List Notice) : List Notice := notices.filter (·.level = .debug)

/-- A reader whose parts change one at a time. -/
structure Reader where
  blocks : List RemovalList
  current : Option RemovalList
  held : Option Text
  seenHeader : Bool
  notices : List Notice
  /-- The entries that were to be settled while no block was open. -/
  lost : List Text
  deriving DecidableEq, Repr

namespace Reader

/-- A reader that has been fed nothing. -/
def start : Reader := ⟨[], none, none, false, [], []⟩

/-- Settle an entry in the open block. Without an open block it is lost. -/
def settle (reader : Reader) (entry : Text) : Reader :=
  match reader.current with
  | some block => { reader with current := some { block with entries := block.entries ++ [entry] } }
  | none => { reader with lost := reader.lost ++ [entry] }

/-- Hold the next line, or none, instead of the held one, which is settled if it counts. -/
def replaceHeld (reader : Reader) (next : Option Text) (counts : Text → Bool) : Reader :=
  let replaced := { reader with held := next }
  match reader.held with
  | some previous => if counts previous then replaced.settle previous else replaced
  | none => replaced

/-- Close the open block, if there is one, and record it. -/
def close (reader : Reader) : Reader :=
  match reader.current with
  | some block =>
    { reader with
      blocks := reader.blocks ++ [block]
      current := none
      notices := reader.notices ++ [block.record] }
  | none => reader

/-- The text behind the header mark, if the line is a header. -/
def headerText? (seenHeader : Bool) (line : Text) : Option Text :=
  if seenHeader then ['#', ' '].isPrefixOf? line else ['#'].isPrefixOf? line

/-- The path of the file that a header names, if it names one. -/
def namedPath? (header : Text) : Option Text :=
  if (trim header).isEmpty then none else some (trim header)

/-- Open the block of the file that a header names. -/
def openBlock (reader : Reader) (header : Text) : Reader :=
  match namedPath? header with
  | some path => { reader with current := some ⟨path, []⟩ }
  | none => { reader with notices := reader.notices ++ [.blockSkipped] }

/-- Feed one line. An empty line that is held before a header is a separator and does not count. -/
def feed (reader : Reader) (raw : Text) : Reader :=
  match headerText? reader.seenHeader (withoutReturn raw) with
  | some header =>
    (({ reader with seenHeader := true }.replaceHeld none (!·.isEmpty)).close).openBlock header
  | none =>
    if reader.current.isSome then reader.replaceHeld (some (withoutReturn raw)) fun _ => true
    else reader

/-- The reader behind the last line. -/
def finish (reader : Reader) : Reader := (reader.replaceHeld none fun _ => true).close

/-- The reader that has been fed these lines. -/
def readLines (fed : List Text) : Reader := fed.foldl feed start

/-- The reader that has come as far as a phase, with these events on the way. -/
def of (phase : Phase) (events : List BlockEvent) : Reader where
  blocks := events.filterMap BlockEvent.list?
  current :=
    match phase with
    | .inBlock current => some ⟨current.path, current.settled.toList⟩
    | _ => none
  held :=
    match phase with
    | .inBlock current => current.held
    | _ => none
  seenHeader :=
    match phase with
    | .preamble => false
    | _ => true
  notices := events.map BlockEvent.notice
  lost := []

theorem headerText?_of (phase : Phase) (events : List BlockEvent) (line : Text) :
    headerText? (of phase events).seenHeader line = phase.headerText? line := by
  cases phase <;> rfl

/-- In an open block the held line is settled if it counts, and none is lost. -/
theorem replaceHeld_of_inBlock (current : OpenBlock) (events : List BlockEvent)
    (next : Option Text) (counts : Text → Bool) :
    (of (.inBlock current) events).replaceHeld next counts =
      of (.inBlock ⟨current.path,
        (current.settled.toList ++ current.held.toList.filter counts).toArray, next⟩) events := by
  obtain ⟨path, settled, held⟩ := current
  cases held with
  | none => simp only [replaceHeld, of, Option.toList_none, List.filter_nil, List.append_nil]
  | some line => by_cases hc : counts line <;> simp [replaceHeld, settle, of, hc]

theorem close_of_inBlock (path : Text) (settled : List Text) (events : List BlockEvent) :
    (of (.inBlock ⟨path, settled.toArray, none⟩) events).close =
      of .skipping (events ++ [.closed ⟨path, settled⟩]) := by
  simp only [close, of, List.filterMap_append, List.map_append]
  rfl

/-- A header opens a block or brings to light that it names no file. -/
theorem openBlock_of_skipping (events : List BlockEvent) (header : Text) :
    (of .skipping events).openBlock header =
      of (.below header) (events ++ if (trim header).isEmpty then [.unnamed] else []) := by
  rw [openBlock, namedPath?, Phase.below]
  by_cases hb : (trim header).isEmpty
  · simp [of, hb, BlockEvent.list?, BlockEvent.notice]
  · simp [of, hb, OpenBlock.empty]

theorem close_replaceHeld_of (phase : Phase) (events : List BlockEvent) :
    ({ of phase events with seenHeader := true }.replaceHeld none (!·.isEmpty)).close =
      of .skipping (events ++ match phase with
        | .inBlock current => [.closed current.atHeader]
        | _ => []) := by
  cases phase with
  | preamble => rw [List.append_nil]; rfl
  | skipping => rw [List.append_nil]; rfl
  | inBlock current =>
    change ((of (.inBlock current) events).replaceHeld none (!·.isEmpty)).close = _
    rw [replaceHeld_of_inBlock, close_of_inBlock]
    rfl

/-- A reader follows its phase over a line. -/
theorem feed_of (phase : Phase) (events : List BlockEvent) (raw : Text) :
    (of phase events).feed raw = of (phase.step raw).1 (events ++ (phase.step raw).2) := by
  rw [feed, headerText?_of]
  cases hh : phase.headerText? (withoutReturn raw) with
  | some header =>
    rw [Phase.step_of_header hh]
    change (Reader.close _).openBlock header = _
    rw [close_replaceHeld_of, openBlock_of_skipping, List.append_assoc]
    rfl
  | none =>
    rw [Phase.step_of_no_header hh, List.append_nil]
    cases phase with
    | preamble => rfl
    | skipping => rfl
    | inBlock current =>
      change (of (.inBlock current) events).replaceHeld _ _ = of (.inBlock (current.extend _)) _
      rw [replaceHeld_of_inBlock]
      obtain ⟨path, settled, held⟩ := current
      cases held with
      | none => simp [OpenBlock.extend]
      | some previous => simp [OpenBlock.extend, Array.push]

/-- A reader follows its phase over any lines. -/
theorem foldl_feed_of (phase : Phase) (events : List BlockEvent) (fed : List Text) :
    fed.foldl feed (of phase events) =
      of (phase.advance fed).1 (events ++ (phase.advance fed).2) := by
  induction fed generalizing phase events with
  | nil => rw [Phase.advance, List.append_nil]; rfl
  | cons raw rest ih => rw [List.foldl_cons, feed_of, ih, List.append_assoc]; rfl

/-- What a reader has been fed leads it to the reader of a phase. -/
theorem readLines_eq (fed : List Text) :
    readLines fed = of (Phase.preamble.advance fed).1 (Phase.preamble.advance fed).2 :=
  foldl_feed_of .preamble [] fed

/-- The end of the document closes the open block, whose held line is settled. -/
theorem finish_of (phase : Phase) (events : List BlockEvent) :
    (of phase events).finish =
      of (match phase with
        | .inBlock _ => .skipping
        | _ => phase) (events ++ phase.conclude) := by
  cases phase with
  | preamble => exact congrArg (of .preamble) (List.append_nil events).symm
  | skipping => exact congrArg (of .skipping) (List.append_nil events).symm
  | inBlock current =>
    rw [finish, replaceHeld_of_inBlock, close_of_inBlock, List.filter_true]
    rfl

theorem blocks_finish_readLines (fed : List Text) :
    (readLines fed).finish.blocks = (blockEvents fed).filterMap BlockEvent.list? := by
  rw [readLines_eq, finish_of]
  rfl

/-- A block that has been closed stays as it is, whatever else is fed. -/
theorem blocks_isPrefix (fed more : List Text) :
    (readLines fed).blocks <+: (readLines (fed ++ more)).finish.blocks := by
  have hblocks : (readLines fed).blocks =
      (Phase.preamble.advance fed).2.filterMap BlockEvent.list? := by
    rw [readLines_eq]
    rfl
  have hall : blockEvents (fed ++ more) =
      (Phase.preamble.advance fed).2 ++ (Phase.preamble.advance fed).1.toEnd more :=
    Phase.toEnd_append .preamble fed more
  rw [blocks_finish_readLines, hblocks, hall]
  exact (List.prefix_append _ _).filterMap _

/-- One record is for debugging for each block that has come to light. -/
theorem debugRecords_map_notice (events : List BlockEvent) :
    debugRecords (events.map BlockEvent.notice) =
      (events.filterMap BlockEvent.list?).map RemovalList.record := by
  induction events with
  | nil => rfl
  | cons event rest ih =>
    cases event with
    | closed list => exact congrArg (list.record :: ·) ih
    | unnamed => exact ih

end Reader

end CommentSweep
