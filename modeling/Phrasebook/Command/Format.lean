import Phrasebook.Catalogue
import Phrasebook.Command.Invocation
import Phrasebook.Command.Outcome
import Phrasebook.Tree

/-!
# Formatting a message from a directory of locales
-/

namespace Phrasebook.Command

def warningLine (text : String) : String := yellow "warning:" ++ " " ++ text ++ "\n"

def errorLine (text : String) : String := red "error:" ++ " " ++ text ++ "\n"

/-- The id of the message that a reference text is about. -/
def baseId (id : String) : String := (id.splitOn ".").headD id

variable [LocaleData]

/-- What is said about a message that is not there. -/
def unknownLines (c : Catalogue) (s : FormatSettings) : String :=
  let hints := c.suggest s.locales (baseId s.id)
  errorLine ("unknown message '" ++ s.id ++ "'") ++
    if hints.isEmpty then "" else "  did you mean: " ++ ", ".intercalate hints ++ "?\n"

def formattedTree (f : Formatted) : Tree :=
  .record [("result", .text f.value),
    ("errors", .list (f.faults.map fun fault => .text fault.message))]

def FormatSettings.run (files : FileTree) (verbose : Bool) (s : FormatSettings) : Outcome :=
  let (c, loaded) := Catalogue.addDirectory { strict := s.strict } files s.dir
  match loaded with
  | .error e => .fatal "" [] e.message
  | .ok warnings =>
    let notes :=
      if verbose then String.join (warnings.map fun w => warningLine w.message) else ""
    let args := Arguments.ofList (s.params.map fun (name, text) => ⟨name, .ofText text⟩)
    match c.format s.locales s.id args with
    | .error e => { exit := ExitCode.dataError, stderr := notes ++ errorLine e.message }
    | .ok none => { exit := ExitCode.dataError, stderr := notes ++ unknownLines c s }
    | .ok (some f) =>
      if s.json then
        { exit := ExitCode.ok, stdout := (formattedTree f).toText ++ "\n", stderr := notes }
      else
        let faults := f.faults.map fun fault => warningLine fault.message
        { exit := ExitCode.ok, stdout := f.value ++ "\n", stderr := notes ++ String.join faults }

end Phrasebook.Command
