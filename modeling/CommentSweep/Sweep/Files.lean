import CommentSweep.ControlDocument.Bytes
import CommentSweep.Job
import CommentSweep.Sweep.Account

/-!
# Sweeping files

Lists are applied one at a time and in order. A file that cannot be processed stays as it is and
does not stop the lists behind it.
-/

namespace CommentSweep

/-- Sweep the entries out of the file at a path. The file is written only if its text changes. -/
def sweepFile (path : Text) (entries : List Text) (dryRun : Bool) :
    Job (Except Failure FileSweep) := do
  match ← Job.readText path with
  | .error fault => return .error ⟨[.readingFile path], fault⟩
  | .ok content =>
    let swept := sweepText content entries
    let done := FileSweep.of path content entries.length swept
    Job.tell (.compared path swept.matched entries.length)
    if done.changed && !dryRun then
      match ← Job.replaceText path swept.content with
      | .error failure => return .error failure
      | .ok () =>
        Job.tell (.rewritten path)
        return .ok done
    else return .ok done

/-- The notice that the result of a list calls for, if any. -/
def ListSweep.notice? (applied : ListSweep) : Option Notice :=
  match applied.result with
  | .ok done =>
    done.leftovers.map fun left => .leftUnmatched left.count left.total applied.list.path
  | .error failure => some (.failed applied.list.path failure.message)

/-- Apply one list. -/
def sweepList (dryRun : Bool) (list : RemovalList) : Job ListSweep := do
  let applied : ListSweep := ⟨list, ← sweepFile list.path list.entries dryRun⟩
  Job.tellAll applied.notice?.toList
  return applied

/-- Apply lists in order, each to the files as the ones before it left them. -/
def sweepEach (dryRun : Bool) : List RemovalList → Job (List ListSweep)
  | [] => return []
  | list :: rest => do
    let applied ← sweepList dryRun list
    return applied :: (← sweepEach dryRun rest)

/-- Apply lists and account for them. -/
def sweepAll (lists : List RemovalList) (dryRun : Bool) : Job Account := do
  if lists.isEmpty then Job.tell .nothingToDo
  return .of dryRun (← sweepEach dryRun lists)

/-- Read the control document at a path. A folder opens like a file and fails at its first line. -/
def loadDocument (path : Text) : Job (Except Failure (List RemovalList)) := do
  match ← Job.access path with
  | .error fault => return .error ⟨[.openingControlDocument path], fault⟩
  | .ok opened =>
    match opened.read with
    | .error fault => return .error ⟨[.readingControlDocument path, .readingControlLine 1], fault⟩
    | .ok bytes =>
      let reading := parseDocumentBytes bytes
      Job.tellAll (reading.events.map BlockEvent.notice)
      return reading.result.mapError (.within (.readingControlDocument path))

/-- Read a control document and apply it. Only the reading can fail as a whole. -/
def sweepByDocument (path : Text) (dryRun : Bool) : Job (Except Failure Account) := do
  match ← loadDocument path with
  | .error failure => return .error failure
  | .ok lists => return .ok (← sweepAll lists dryRun)

end CommentSweep
