import CommentSweep.Text.Display

/-!
# Why something could not be done

A failure is a fault together with what was being done, from the outermost undertaking inwards.
-/

namespace CommentSweep

/-- The cause of a failure. -/
inductive Fault where
  | notFound
  | notADirectory
  | isADirectory
  | nameTooLong
  | nulInPath
  | notUtf8
  /-- Any further cause that the surroundings name. -/
  | reported (text : Text)
  deriving DecidableEq, Repr

def Fault.message : Fault → Text
  | .notFound => "No such file or directory (os error 2)".toList
  | .notADirectory => "Not a directory (os error 20)".toList
  | .isADirectory => "Is a directory (os error 21)".toList
  | .nameTooLong => "File name too long (os error 36)".toList
  | .nulInPath => "file name contained an unexpected NUL byte".toList
  | .notUtf8 => "stream did not contain valid UTF-8".toList
  | .reported text => text

/-- What was being done when a fault arose. -/
inductive Undertaking where
  | readingFile (path : Text)
  | stagingIn (folder : Text)
  | writingStaged (path : Text)
  | readingMetadata (path : Text)
  | copyingPermissions (path : Text)
  | replacingFile (path : Text)
  | openingControlDocument (path : Text)
  | readingControlDocument (path : Text)
  /-- Lines are counted from one. -/
  | readingControlLine (number : Nat)
  | readingFileList
  deriving DecidableEq, Repr

def Undertaking.message : Undertaking → Text
  | .readingFile path => "Error reading file ".toList ++ path
  | .stagingIn folder => "Error creating temporary file in ".toList ++ folder
  | .writingStaged path => "Error writing temporary file for ".toList ++ path
  | .readingMetadata path => "Error reading metadata of ".toList ++ path
  | .copyingPermissions path => "Error copying permissions of ".toList ++ path
  | .replacingFile path => "Error replacing file ".toList ++ path
  | .openingControlDocument path => "Error opening control document ".toList ++ path
  | .readingControlDocument path => "Error reading control document ".toList ++ path
  | .readingControlLine number => "Error reading control document line ".toList ++ digits number
  | .readingFileList => "Failed to read file list from stdin".toList

/-- A cause and what was being done, the outermost undertaking first. -/
structure Failure where
  undertakings : List Undertaking
  cause : Fault
  deriving DecidableEq, Repr

/-- The messages of a failure from the outermost one to the cause. -/
def Failure.messages (failure : Failure) : List Text :=
  failure.undertakings.map Undertaking.message ++ [failure.cause.message]

/-- A failure of something that was done within a wider undertaking. -/
def Failure.within (wider : Undertaking) (failure : Failure) : Failure :=
  { failure with undertakings := wider :: failure.undertakings }

/-- A failure in one line. -/
def Failure.message (failure : Failure) : Text := [':', ' '].intercalate failure.messages

end CommentSweep
