import Phrasebook.Command.Check
import Phrasebook.Command.Coverage
import Phrasebook.Command.Format

/-!
# Running a command line
-/

namespace Phrasebook.Command

def versionText : String := "ftl 0.1.0\n"

/-- The files and directories that a task reads. -/
def Task.paths : Task → List String
  | .check s => s.files
  | .dump s => [s.file]
  | .format s => [s.dir]
  | .coverage s => s.source :: s.localePaths

variable [LocaleData]

def Task.run (files : FileTree) (verbose : Bool) : Task → Outcome
  | .check s => s.run files verbose
  | .dump s => s.run files
  | .format s => s.run files verbose
  | .coverage s => s.run files

/-- The files and directories that a command line reads. -/
def pathsRead (words : List String) : List String :=
  match Invocation.read words with
  | .ok invocation => invocation.task.paths
  | .error _ => []

/-- The outcome of a command line. -/
def run (files : FileTree) (words : List String) : Outcome :=
  match Invocation.read words with
  | .ok invocation => invocation.task.run files invocation.verbose
  | .error .help => { exit := ExitCode.ok, notices := [.help] }
  | .error .version => { exit := ExitCode.ok, stdout := versionText }
  | .error .usage => { exit := ExitCode.usage, notices := [.usage] }

end Phrasebook.Command
