import Phrasebook.Command.Invocation
import Phrasebook.Command.Outcome
import Phrasebook.Command.Table
import Phrasebook.FileTree
import Phrasebook.Source.Document
import Phrasebook.Tree

/-!
# Coverage of a source file by locales

Each locale keeps its file under the same name in a directory of its own. The report says
which messages of the source file a locale lacks.
-/

namespace Phrasebook.Command

structure LocaleCoverage where
  locale : String
  covered : Nat
  missing : List String
deriving DecidableEq, Repr

/-- The ids of the messages of a resource, once each and in alphabetical order. -/
def coveredIds (r : Resource) : List String :=
  ((r.messages.map Message.id).mergeSort fun a b => a ≤ b).eraseReps

/-- Read the ids of a file, which has to be text. -/
def loadIds (files : FileTree) (path : String) : Except String (List String) :=
  match files.read path with
  | .error e => .error ("Failed to read " ++ path ++ ": " ++ e.message)
  | .ok bytes =>
    match Resource.parseBytes .lenient bytes with
    | .ok r => .ok (coveredIds r)
    | .error _ =>
      .error ("Failed to read " ++ path ++ ": stream did not contain valid UTF-8")

/-- The directory of the locales: given, or two levels above the source file. -/
def baseDirectory (s : CoverageSettings) : String :=
  match s.directory with
  | some dir => dir
  | none =>
    match (FileTree.parent? (FileTree.components s.source)).bind FileTree.parent? with
    | some names => FileTree.ofComponents names
    | none => "."

/-- Where a locale keeps the file. -/
def localePath (s : CoverageSettings) (fileName locale : String) : String :=
  FileTree.joinPath (FileTree.joinPath (baseDirectory s) locale) fileName

/-- The files of the locales. -/
def CoverageSettings.localePaths (s : CoverageSettings) : List String :=
  match FileTree.fileName? (FileTree.components s.source) with
  | none => []
  | some fileName => s.langs.map (localePath s fileName)

/-- The coverage of one locale; a file that does not exist has no messages. -/
def localeCoverage (files : FileTree) (path : String) (source : List String) (locale : String) :
    Except String LocaleCoverage := do
  let ids ← if files.pathExists path then loadIds files path else pure []
  let (covered, missing) := source.partition (ids.contains ·)
  return ⟨locale, covered.length, missing⟩

/-- The number of source messages and the coverage of each locale. -/
def coverageReport (files : FileTree) (s : CoverageSettings) :
    Except String (Nat × List LocaleCoverage) := do
  let source ← loadIds files s.source
  match FileTree.fileName? (FileTree.components s.source) with
  | none => .error (s.source ++ " is not a file")
  | some fileName =>
    let report ← s.langs.mapM fun locale =>
      localeCoverage files (localePath s fileName locale) source locale
    return (source.length, report)

def coverageTree (total : Nat) (c : LocaleCoverage) : Tree :=
  .record [("locale", .text c.locale), ("translated", .number c.covered),
    ("total", .number total), ("missing", .list (c.missing.map Tree.text))]

def coverageTable (total : Nat) (report : List LocaleCoverage) : String :=
  Table.render ["Locale", "Coverage", "Missing"] (report.map fun c =>
    [c.locale, toString c.covered ++ "/" ++ toString total, toString c.missing.length])

def missingLines (c : LocaleCoverage) : String :=
  if c.missing.isEmpty then ""
  else "\nMissing in " ++ c.locale ++ ":\n" ++
    String.join (c.missing.map fun id => "  - " ++ id ++ "\n")

def CoverageSettings.run (files : FileTree) (s : CoverageSettings) : Outcome :=
  match coverageReport files s with
  | .error message => .fatal "" [] message
  | .ok (total, report) =>
    let complete := report.all (·.missing.isEmpty)
    let exit := if s.strict && !complete then ExitCode.dataError else ExitCode.ok
    if s.json then
      { exit, stdout := (Tree.list (report.map (coverageTree total))).toText ++ "\n" }
    else
      let missing := String.join (report.map missingLines)
      { exit, stdout := coverageTable total report ++ "\n" ++ missing }

end Phrasebook.Command
