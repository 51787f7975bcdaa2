import CommentSweep.CommandLine.Arguments
import CommentSweep.Job

/-!
# Programs and what they print

A program is a job that ends with an exit code and the texts for its two output channels. Notices
come first on the error channel, one a line.
-/

namespace CommentSweep

/-- The least weighty level that is shown; without one nothing is. -/
abbrev Threshold := Option Level

/-- The thresholds that can be asked for by name. -/
def Threshold.ofName? : String → Option Threshold
  | "off" => some none
  | "error" => some (some .error)
  | "warn" => some (some .warn)
  | "info" => some (some .info)
  | "debug" => some (some .debug)
  | _ => none

/-- A threshold that is asked for wins. Else warnings are shown, and everything on a verbose run. -/
def Threshold.choose (asked : Option Threshold) (verbose : Bool) : Threshold :=
  asked.getD (some (if verbose then .debug else .warn))

def Notice.visible (notice : Notice) : Threshold → Bool
  | none => false
  | some least => notice.level.rank ≤ least.rank

def Level.label : Level → String
  | .error => "ERROR"
  | .warn => "WARN"
  | .info => "INFO"
  | .debug => "DEBUG"

def asLine (text : Text) : Text := text ++ ['\n']

/-- A notice as it is shown, with the control characters of paths spelled out. -/
def Notice.line (notice : Notice) : Text :=
  asLine (notice.level.label.toList ++ ' ' :: notice.source.name.toList ++ ": ".toList ++
    spelledOut notice.text)

/-- How a program ends and what it leaves on its output and error channels. -/
structure Exit where
  code : Nat
  output : Text
  errors : Text
  deriving DecidableEq, Repr

/-- A program that is ready to run. -/
structure Program where
  threshold : Threshold
  job : Job Exit

/-- Run a program on a file tree. The notices that are shown precede its messages. -/
def Program.run (program : Program) (tree : FileTree) : Exit × FileTree :=
  let done := program.job.run tree
  let shown := done.notices.filter (·.visible program.threshold)
  ({ done.value with errors := shown.flatMap Notice.line ++ done.value.errors }, done.tree)

/-- The causes of a failure, each on an indented line, and numbered if there are several. -/
def causeLines : List Text → List Text
  | [cause] => ["    ".toList ++ cause]
  | causes => causes.zipIdx.map fun item =>
    "    ".toList ++ digits item.2 ++ ": ".toList ++ item.1

/-- The messages of a failure that ends a program: the outermost one, then those below it. -/
def failureReport : List Text → Text
  | [] => []
  | [message] => asLine ("Error: ".toList ++ message)
  | message :: causes =>
    (("Error: ".toList ++ message) :: [] :: "Caused by:".toList :: causeLines causes).flatMap asLine

def Exit.failed (failure : Failure) : Exit := ⟨1, [], failureReport failure.messages⟩

/-- What a program tells about itself. -/
structure Manual where
  name : String
  help : String

def versionText : String := " 0.1.0\n"

/-- Information that was asked for is printed, and a misuse has exit code 2. -/
def Exit.halted (manual : Manual) : Halt → Exit
  | .version => ⟨0, manual.name.toList ++ versionText.toList, []⟩
  | .help => ⟨0, manual.help.toList, []⟩
  | .misuse reason => ⟨2, [], asLine ("error: ".toList ++ reason.message)⟩

def Program.ending (exit : Exit) : Program := ⟨none, .done exit⟩

def verboseOption : OptionSpec := ⟨"verbose".toList, none, .flag⟩

def commonOptions : List OptionSpec :=
  [verboseOption, ⟨"help".toList, some 'h', .help⟩, ⟨"version".toList, some 'V', .version⟩]

end CommentSweep
