import CommentSweep.Sweep.Verdict
import CommentSweep.Text.Display

/-!
# Sweeping entries out of a text

A removed line leaves the code that stands outside its comments. The entries that are left over are
always the last ones of their list.
-/

namespace CommentSweep

/-- An entry that was not found, with its place in the list. -/
structure Leftover where
  index : Nat
  entry : Text
  deriving DecidableEq, Repr

/-- The entries of a list from a place on. -/
def leftoversFrom (place : Nat) (entries : List Text) : List Leftover :=
  (entries.zipIdx.drop place).map fun item => ⟨item.2, item.1⟩

/-- What sweeping a list of entries out of a text comes to. -/
structure Swept where
  content : Text
  matched : Nat
  /-- The entries behind those that were found, in list order. -/
  unmatched : List Leftover
  deriving DecidableEq, Repr

/-- Sweep the listed entries out of a text. -/
def sweepText (content : Text) (entries : List Text) : Swept :=
  let surveyed := surveyedLines content
  let judged := verdicts entries .kept surveyed
  let matched := judged.count .removed
  { content := (List.zipWith SurveyedLine.written surveyed judged).flatten
    matched
    unmatched := leftoversFrom matched entries }

/-- The account of entries that were not found in a file. -/
structure Leftovers where
  path : Text
  total : Nat
  items : List Leftover
  deriving DecidableEq, Repr

def Leftovers.count (leftovers : Leftovers) : Nat := leftovers.items.length

/-- There is an account exactly when an entry was not found. -/
def Swept.leftovers? (swept : Swept) (path : Text) (total : Nat) : Option Leftovers :=
  if swept.unmatched.isEmpty then none else some ⟨path, total, swept.unmatched⟩

/-- One entry on an indented line of its own, behind its index in brackets. -/
def Leftover.message (item : Leftover) : Text :=
  "\n    [".toList ++ digits item.index ++ "]: ".toList ++ item.entry

/-- The counts and the file, then every entry that was not found. -/
def Leftovers.message (leftovers : Leftovers) : Text :=
  digits leftovers.count ++ " of ".toList ++ digits leftovers.total ++
    " unmatched comments for file ".toList ++ leftovers.path ++
    leftovers.items.flatMap Leftover.message

end CommentSweep
