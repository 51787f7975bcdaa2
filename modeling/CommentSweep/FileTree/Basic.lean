import CommentSweep.Text.Utf8

/-!
# File trees

A file tree holds regular files and folders, and the folder that relative paths start from. There
are no links in it, and whoever reads may read every file: mode bits are kept, not obeyed.
-/

namespace CommentSweep

/-- The names that lead from the root to a file or folder. -/
abbrev Location := List Text

/-- A regular file: its bytes and its mode bits. -/
structure File where
  bytes : Bytes
  mode : Nat
  deriving DecidableEq, Repr

/-- The nine lowest mode bits, which say who may read, write and execute the file. -/
def File.permissions (file : File) : Nat := file.mode % 0o1000

/-- The files and folders that a job can reach. -/
structure FileTree where
  files : List (Location × File)
  folders : List Location
  working : Location
  deriving DecidableEq, Repr

namespace FileTree

def file? (tree : FileTree) (location : Location) : Option File := tree.files.lookup location

/-- Whether a location is a folder. -/
def isFolder (tree : FileTree) (location : Location) : Bool :=
  location.isPrefixOf tree.working || tree.folders.any location.isPrefixOf ||
    tree.files.any fun item => location.isPrefixOf item.1 && location != item.1

/-- Put a file at a location, in the place of the one that is there. -/
def put (tree : FileTree) (location : Location) (file : File) : FileTree :=
  if (tree.file? location).isSome then
    { tree with
      files := tree.files.map fun item => if item.1 = location then (location, file) else item }
  else { tree with files := tree.files ++ [(location, file)] }

/-- Take the file at a location away. -/
def remove (tree : FileTree) (location : Location) : FileTree :=
  { tree with files := tree.files.filter fun item => item.1 != location }

def rename (tree : FileTree) (source target : Location) : FileTree :=
  match tree.file? source with
  | none => tree
  | some file => (tree.remove source).put target file

/-- Mark a location as a folder, unless the mark of a folder at or below it makes it one already. -/
def addFolder (tree : FileTree) (location : Location) : FileTree :=
  if tree.folders.any location.isPrefixOf then tree
  else { tree with folders := location :: tree.folders }

/-- The files below the working folder under their relative paths, in ascending order. -/
def listing (tree : FileTree) : List (Text × File) :=
  let below := tree.files.filterMap fun item =>
    (tree.working.isPrefixOf? item.1).map fun names => (['/'].intercalate names, item.2)
  below.mergeSort fun a b => !b.1.lex a.1 fun x y => decide (x < y)

end FileTree

end CommentSweep
