import Phrasebook.Command.Invocation
import Phrasebook.Command.Outcome
import Phrasebook.Diagnostic
import Phrasebook.FileTree
import Phrasebook.Outline

/-!
# Checking files

One verdict for a list of files: malformed entries anywhere are an error.
-/

namespace Phrasebook.Command

/-- An entry that could not be read. -/
structure EntryError where
  position : Position
  message : String
  content : Option String
deriving DecidableEq, Repr

structure FileReport where
  file : String
  messages : Nat := 0
  terms : Nat := 0
  errors : List EntryError := []
deriving DecidableEq, Repr

namespace FileReport

def ofJunk (j : Junk) : EntryError :=
  let note := j.annotations.headD ⟨"", ⟨0, 0⟩⟩
  ⟨note.position, note.message, some j.content⟩

def ofFile (mode : Mode) (file : String) (bytes : ByteArray) : FileReport :=
  match Resource.parseBytes mode bytes with
  | .ok r => ⟨file, r.messages.length, r.terms.length, r.junk.map ofJunk⟩
  | .error e => { file, errors := [⟨e.position, e.message, none⟩] }

def toTree (r : FileReport) : Tree :=
  .record [("file", .text r.file), ("messages", .number r.messages), ("terms", .number r.terms),
    ("errors", .list (r.errors.map fun e =>
      .record [("line", .number e.position.line), ("column", .number e.position.column),
        ("message", .text e.message), ("content", .ofOption Tree.text e.content)]))]

/-- The verdict on one file; good files are mentioned on demand. -/
def line (verbose : Bool) (r : FileReport) : String :=
  if r.errors.isEmpty then
    if verbose then
      green "ok" ++ " " ++ r.file ++ " (" ++ toString r.messages ++ " messages, " ++
        toString r.terms ++ " terms)\n"
    else ""
  else red "error" ++ " " ++ r.file ++ " (" ++ toString r.errors.length ++ " malformed)\n"

end FileReport

/-- All that is wrong with a file that was read. -/
def noticesOf (mode : Mode) (file : String) (bytes : ByteArray) : List Notice :=
  (Diagnostic.ofFile mode bytes).map (.malformed file)

def modeOf (strict : Bool) : Mode := if strict then .strict else .lenient

/-- Read files up to the first one that cannot be read. -/
def readFiles (files : FileTree) : List String → List (String × ByteArray) × Option String
  | [] => ([], none)
  | path :: paths =>
    match files.read path with
    | .error e => ([], some ("Cannot read " ++ path ++ ": " ++ e.message))
    | .ok bytes =>
      let (read, problem) := readFiles files paths
      ((path, bytes) :: read, problem)

def CheckSettings.run (files : FileTree) (verbose : Bool) (s : CheckSettings) : Outcome :=
  let mode := modeOf s.strict
  let (contents, problem) := readFiles files s.files
  let reports := contents.map fun (file, bytes) => FileReport.ofFile mode file bytes
  let lines := if s.json then "" else String.join (reports.map (FileReport.line verbose))
  let notices :=
    if s.json then [] else contents.flatMap fun (file, bytes) => noticesOf mode file bytes
  match problem with
  | some message => .fatal lines notices message
  | none =>
    let exit :=
      if reports.all (·.errors.isEmpty) then ExitCode.ok else ExitCode.dataError
    if s.json then
      { exit, stdout := (Tree.list (reports.map FileReport.toTree)).toText ++ "\n" }
    else { exit, stdout := lines, notices }

def DumpSettings.run (files : FileTree) (s : DumpSettings) : Outcome :=
  match files.read s.file with
  | .error e => .fatal "" [] ("Cannot read " ++ s.file ++ ": " ++ e.message)
  | .ok bytes =>
    match Resource.parseBytes (modeOf s.strict) bytes with
    | .error e => .fatal "" [] e.message
    | .ok r => { exit := ExitCode.ok, stdout := r.outline.toText ++ "\n" }

end Phrasebook.Command
