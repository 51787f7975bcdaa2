import CommentSweep.Failure
import CommentSweep.ControlDocument.Block
import CommentSweep.Sweep.Content

/-!
# Accounts of a sweep

The account of a sweep is drawn from what came of the lists in order. A dry run counts no file as
rewritten.
-/

namespace CommentSweep

/-- What came of the file of one list. -/
structure FileSweep where
  path : Text
  matched : Nat
  changed : Bool
  leftovers : Option Leftovers
  deriving DecidableEq, Repr

/-- What the sweep of a file's text comes to, for a list of so many entries. -/
def FileSweep.of (path content : Text) (total : Nat) (swept : Swept) : FileSweep :=
  { path
    matched := swept.matched
    changed := swept.content != content
    leftovers := swept.leftovers? path total }

/-- A list with what came of it. -/
structure ListSweep where
  list : RemovalList
  result : Except Failure FileSweep

namespace ListSweep

def changed (applied : ListSweep) : Bool :=
  match applied.result with
  | .ok done => done.changed
  | .error _ => false

def leftovers? (applied : ListSweep) : Option Leftovers :=
  match applied.result with
  | .ok done => done.leftovers
  | .error _ => none

def failure? (applied : ListSweep) : Option Failure :=
  match applied.result with
  | .ok _ => none
  | .error failure => some failure

end ListSweep

/-- A file that could not be processed. -/
structure FailedFile where
  path : Text
  failure : Failure
  deriving DecidableEq, Repr

/-- The account of a sweep. -/
structure Account where
  /-- How many lists were applied or failed. -/
  processed : Nat
  /-- How many lists had their file written. -/
  rewritten : Nat
  leftovers : List Leftovers
  failed : List FailedFile
  deriving DecidableEq, Repr

/-- The account of lists that were applied in order. -/
def Account.of (dryRun : Bool) (applied : List ListSweep) : Account :=
  { processed := applied.length
    rewritten := if dryRun then 0 else applied.countP ListSweep.changed
    leftovers := applied.filterMap ListSweep.leftovers?
    failed := applied.filterMap fun one => one.failure?.map (⟨one.list.path, ·⟩) }

end CommentSweep
