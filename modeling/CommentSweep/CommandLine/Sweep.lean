import CommentSweep.CommandLine.Program
import CommentSweep.Sweep.Files

/-!
# The sweeping program

Entries that are not found do not make the program fail; a file that cannot be processed does.
-/

namespace CommentSweep

def controlOption : OptionSpec := ⟨"control-path".toList, some 'f', .value⟩

def dryRunOption : OptionSpec := ⟨"dry-run".toList, none, .flag⟩

def sweepGrammar : Grammar :=
  ⟨controlOption :: dryRunOption :: commonOptions, false, [controlOption.long]⟩

def sweepManual : Manual where
  name := "remove_comments"
  help :=
    "Removes the lines listed in a control document from the files it names\n\n" ++
    "Usage: remove_comments [OPTIONS] --control-path <control_path>\n\n" ++
    "Options:\n" ++
    "  -f, --control-path <control_path>  " ++
    "Full path to the file specifying the comments to remove\n" ++
    "      --dry-run                      " ++
    "Report what would be removed without modifying any file\n" ++
    "      --verbose                      Enable verbose logging\n" ++
    "  -h, --help                         Print help\n" ++
    "  -V, --version                      Print version\n"

def Account.counts (account : Account) : Text :=
  "Processed ".toList ++ digits account.processed ++ " file(s): ".toList ++
    digits account.rewritten ++ " rewritten, ".toList ++ digits account.leftovers.length ++
    " with unmatched comments, ".toList ++ digits account.failed.length ++ " failed".toList

/-- The message that ends a sweep in which files failed. -/
def Account.failureMessage (account : Account) : Text :=
  digits account.failed.length ++ " file(s) could not be processed".toList

/-- How the program ends after a sweep. -/
def Account.exit (account : Account) : Exit :=
  let output := account.leftovers.flatMap (fun left => asLine left.message) ++ asLine account.counts
  let errors := account.failed.flatMap fun one =>
    asLine ("Error: ".toList ++ one.failure.message)
  if account.failed.isEmpty then ⟨0, output, errors⟩
  else ⟨1, output, errors ++ failureReport [account.failureMessage]⟩

/-- Apply the control document and print the account. -/
def sweepJob (given : Arguments) : Job Exit := do
  let path := (given.value? controlOption.long).getD []
  match ← sweepByDocument path (given.hasFlag dryRunOption.long) with
  | .error failure => return .failed failure
  | .ok account => return account.exit

/-- The program that arguments and the threshold asked for make. -/
def sweepProgram (arguments : List Text) (asked : Option Threshold) : Program :=
  match sweepGrammar.read arguments with
  | .error halt => .ending (.halted sweepManual halt)
  | .ok given => ⟨.choose asked (given.hasFlag verboseOption.long), sweepJob given⟩

end CommentSweep
