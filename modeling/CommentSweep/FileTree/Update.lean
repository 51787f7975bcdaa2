import CommentSweep.FileTree.Path

/-!
# Changing files

A file is replaced by way of a staged file in its folder, which takes over its permission bits and
then its place. So it holds either its old or its new bytes.
-/

namespace CommentSweep

/-- The names at the start of a path that belong to its folder whatever follows: the root or a dot. -/
def leadingNames : List Text → List Text
  | [] :: _ => [[]]
  | ['.'] :: _ => [['.']]
  | _ => []

/-- Whether a name leads nowhere. -/
def isIdle (name : Text) : Bool := name == [] || name == ['.']

/-- Names without the idle ones at their end. -/
def settledNames (names : List Text) : List Text := (names.reverse.dropWhile isIdle).reverse

/-- The path that names make, which is the working folder if there are none. -/
def folderPath : List Text → Text
  | [] => ['.']
  | [[]] => ['/']
  | names => ['/'].intercalate names

/-- The path of the folder that a file is staged in: what stands before the last name of its own. -/
def stagingFolder (path : Text) : Text :=
  let lead := leadingNames (pathNames path)
  let below := settledNames ((pathNames path).drop lead.length)
  if below = [] then ['.'] else folderPath (lead ++ settledNames below.dropLast)

namespace FileTree

/-- The number of characters in all names of the tree. -/
def nameLength (tree : FileTree) : Nat :=
  (tree.files.map (·.1) ++ tree.working :: tree.folders).flatten.flatten.length

/-- A name longer than every name in the tree. -/
def freshName (tree : FileTree) : Text := '.' :: List.replicate (tree.nameLength + 2) 't'

theorem file?_freshName (tree : FileTree) (folder : Location) :
    tree.file? (folder ++ [tree.freshName]) = none := by
  refine List.lookup_eq_none_iff.mpr fun item hi => bne_iff_ne.mpr ?_
  rintro hk
  have hm : tree.freshName ∈ item.1 := hk ▸ List.mem_append_right _ List.mem_cons_self
  have hlocation : item.1 ∈ tree.files.map (·.1) ++ tree.working :: tree.folders :=
    List.mem_append_left _ (List.mem_map_of_mem hi)
  have hle : tree.freshName.length ≤ tree.nameLength :=
    (List.sublist_flatten_of_mem (List.mem_flatten_of_mem hlocation hm)).length_le
  rw [freshName, List.length_cons, List.length_replicate] at hle
  omega

/-- The permission bits of a newly staged file, which only its owner may read. -/
def stagedMode : Nat := 0o600

/-- The permission bits of a file that is written for the first time. -/
def newFileMode : Nat := 0o644

/-- Set the permission bits of a file. -/
def setMode (tree : FileTree) (location : Location) (mode : Nat) : FileTree :=
  match tree.file? location with
  | none => tree
  | some file => tree.put location { file with mode }

end FileTree

/-- What a job leaves open: the name of a staged file, and the faults beyond those of the tree. -/
structure Surroundings where
  name : FileTree → Location → Text
  /-- Such as that of a reader who may not read the file. -/
  openFault? : FileTree → Text → Option Fault
  fault? : FileTree → Undertaking → Option Fault
  file?_name : ∀ (tree : FileTree) (folder : Location),
    tree.file? (folder ++ [name tree folder]) = none

namespace Surroundings

/-- Surroundings without faults of their own. -/
def undisturbed : Surroundings where
  name tree _ := tree.freshName
  openFault? _ _ := none
  fault? _ _ := none
  file?_name := FileTree.file?_freshName

/-- Open a path, if it may be opened. -/
def openPath (around : Surroundings) (tree : FileTree) (path : Text) : Except Fault Opened :=
  match around.openFault? tree path with
  | some fault => .error fault
  | none => tree.openPath path

/-- The text of the file that a path names, if it may be opened. -/
def readText (around : Surroundings) (tree : FileTree) (path : Text) : Except Fault Text := do
  (← around.openPath tree path).readText

/-- Undertake something that the tree does not prevent. -/
def attempt (around : Surroundings) (tree : FileTree) (undertaking : Undertaking) :
    Except Failure Unit :=
  match around.fault? tree undertaking with
  | some fault => .error ⟨[undertaking], fault⟩
  | none => .ok ()

/-- Find the folder to stage a file in. -/
def stagingPlace (around : Surroundings) (tree : FileTree) (path : Text) :
    Except Failure Location := do
  let folder := stagingFolder path
  around.attempt tree (.stagingIn folder)
  (tree.resolveFolder folder).mapError (⟨[.stagingIn folder], ·⟩)

/-- Fill a staged file and put it in the place of the file that a path names. -/
def fillStaged (around : Surroundings) (tree : FileTree) (staged : Location) (path : Text)
    (bytes : Bytes) : Except Failure FileTree := do
  around.attempt tree (.writingStaged path)
  let filled := tree.put staged ⟨bytes, FileTree.stagedMode⟩
  around.attempt filled (.readingMetadata path)
  let location ← (filled.resolve path).mapError (⟨[.readingMetadata path], ·⟩)
  around.attempt filled (.copyingPermissions path)
  around.attempt filled (.replacingFile path)
  match filled.file? location with
  | some old => .ok ((filled.setMode staged old.mode).rename staged location)
  | none => .error ⟨[.replacingFile path], .isADirectory⟩

/-- Replace the bytes of the file that a path names. After a failure the staged file is taken away. -/
def replace (around : Surroundings) (tree : FileTree) (path : Text) (bytes : Bytes) :
    Except Failure Unit × FileTree :=
  match around.stagingPlace tree path with
  | .error failure => (.error failure, tree)
  | .ok folder =>
    let staged := folder ++ [around.name tree folder]
    let created := tree.put staged ⟨[], FileTree.stagedMode⟩
    match around.fillStaged created staged path bytes with
    | .ok after => (.ok (), after)
    | .error failure => (.error failure, created.remove staged)

end Surroundings

namespace FileTree

/-- Make every folder on a trail. The last comes first, as its mark covers those above it. -/
def makeTrail (tree : FileTree) (path : Text) (names : List Text) : FileTree :=
  (trail (tree.start path) names).foldr (fun location made => made.addFolder location) tree

/-- Write a file from outside a job. Without permission bits it keeps those it has. -/
def write (tree : FileTree) (path : Text) (bytes : Bytes) (mode : Option Nat) : FileTree :=
  let location := tree.locate path
  let kept := ((tree.file? location).map (·.mode)).getD newFileMode
  (tree.makeTrail path (pathNames path).dropLast).put location ⟨bytes, mode.getD kept⟩

def delete (tree : FileTree) (path : Text) : FileTree := tree.remove (tree.locate path)

def makeFolder (tree : FileTree) (path : Text) : FileTree := tree.makeTrail path (pathNames path)

end FileTree

end CommentSweep
