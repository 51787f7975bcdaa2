import CommentSweep.Failure
import CommentSweep.FileTree.Basic

/-!
# Finding a file by its path

Every step of a path is taken from a folder. The first fault on the way is the one that is reported;
links and the permission to read are no part of it.
-/

namespace CommentSweep

/-- The names between the slashes of a path, empty ones included. -/
def pathNames (path : Text) : List Text := path.splitOn '/'

/-- Where a name leads: nowhere for the empty name and a dot, and up for two dots. -/
def follow (location : Location) (name : Text) : Location :=
  if name = [] ∨ name = ['.'] then location
  else if name = ['.', '.'] then location.dropLast
  else location ++ [name]

/-- The locations that names lead through one after the other, the first one included. -/
def trail (location : Location) : List Text → List Location
  | [] => [location]
  | name :: rest => location :: trail (follow location name) rest

/-- The most bytes that a name may have. -/
def nameLimit : Nat := 255

/-- The number of bytes that a path may not reach. -/
def pathLimit : Nat := 4096

namespace FileTree

/-- Where a path starts: at the root if it begins with a slash, else in the working folder. -/
def start (tree : FileTree) (path : Text) : Location :=
  if path.head? = some '/' then [] else tree.working

/-- The location that a path writes, whatever stands there. -/
def locate (tree : FileTree) (path : Text) : Location :=
  (pathNames path).foldl follow (tree.start path)

/-- Take one step of a path. A name that is too long is a fault before a name that is missing. -/
def enter (tree : FileTree) (location : Location) (name : Text) : Except Fault Location :=
  let next := follow location name
  if !tree.isFolder location then .error .notADirectory
  else if nameLimit < (encode name).length then .error .nameTooLong
  else if tree.isFolder next || (tree.file? next).isSome then .ok next
  else .error .notFound

/-- The location of the file or folder that a path names. -/
def resolve (tree : FileTree) (path : Text) : Except Fault Location :=
  if '\x00' ∈ path then .error .nulInPath
  else if path = [] then .error .notFound
  else if pathLimit ≤ (encode path).length then .error .nameTooLong
  else (pathNames path).foldlM tree.enter (tree.start path)

/-- The location of the folder that a path names. -/
def resolveFolder (tree : FileTree) (path : Text) : Except Fault Location := do
  let location ← tree.resolve path
  if tree.isFolder location then .ok location else .error .notADirectory

end FileTree

/-- What opening a path gives. A folder can be opened, but not read. -/
inductive Opened where
  | file (bytes : Bytes)
  | folder
  deriving DecidableEq, Repr

def Opened.read : Opened → Except Fault Bytes
  | .file bytes => .ok bytes
  | .folder => .error .isADirectory

def Opened.readText (opened : Opened) : Except Fault Text := do
  match decode? (← opened.read) with
  | some text => .ok text
  | none => .error .notUtf8

namespace FileTree

/-- Open the file or folder that a path names. Neither its mode bits nor the reader count. -/
def openPath (tree : FileTree) (path : Text) : Except Fault Opened := do
  match tree.file? (← tree.resolve path) with
  | some file => .ok (.file file.bytes)
  | none => .ok .folder

def readText (tree : FileTree) (path : Text) : Except Fault Text := do
  (← tree.openPath path).readText

end FileTree

end CommentSweep
