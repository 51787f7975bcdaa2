import CommentSweep.Capture
import CommentSweep.CommandLine.Program

/-!
# The capturing program

Without files among its arguments the program reads their paths from its input, one a line.
-/

namespace CommentSweep

def captureGrammar : Grammar := ⟨commonOptions, true, []⟩

def captureManual : Manual where
  name := "find_comments"
  help :=
    "Lists the comment lines of the given files as a control document for remove_comments\n\n" ++
    "Usage: find_comments [OPTIONS] [files]...\n\n" ++
    "Arguments:\n" ++
    "  [files]...  Files to scan; read one path per line from stdin when omitted\n\n" ++
    "Options:\n" ++
    "      --verbose  Enable verbose logging\n" ++
    "  -h, --help     Print help\n" ++
    "  -V, --version  Print version\n"

/-- The paths in the input of the program, trimmed, without blank lines. -/
def inputPaths (input : Bytes) : Except Failure (List Text) :=
  let decoded := decodeLines (byteLines input)
  match decoded.2 with
  | some _ => .error ⟨[.readingFileList], .notUtf8⟩
  | none => .ok ((decoded.1.map trim).filter (!·.isEmpty))

/-- The files to capture: those given, else those in the input. -/
def pathsToCapture (given : Arguments) (input : Bytes) : Except Failure (List Text) :=
  if given.operands.isEmpty then inputPaths input else .ok given.operands

/-- Capture the files and print their control document. -/
def captureJob (given : Arguments) (input : Bytes) : Job Exit := do
  match pathsToCapture given input with
  | .error failure => return .failed failure
  | .ok paths =>
    match ← captureDocument paths with
    | .error failure => return .failed failure
    | .ok document => return ⟨0, document, []⟩

/-- The program that arguments, input and the threshold asked for make. -/
def captureProgram (arguments : List Text) (input : Bytes) (asked : Option Threshold) : Program :=
  match captureGrammar.read arguments with
  | .error halt => .ending (.halted captureManual halt)
  | .ok given => ⟨.choose asked (given.hasFlag verboseOption.long), captureJob given input⟩

end CommentSweep
