import Phrasebook.Command.Run
import Phrasebook.Locale.Builtin

/-!
# The program

Loads the files that a command line reads, runs it on them and writes its outcome.
-/

namespace Phrasebook.Command

/-- A path by itself. It is absolute, so that it does not matter where it starts. -/
def entryAt (path : String) : IO.FS.DirEntry := { root := "/", fileName := path }

/-- A link that leads nowhere: no file can have this name. -/
def brokenLink : FileNode := .link "\x00"

/-- What is found at a path. -/
def nodeAt (entry : IO.FS.DirEntry) : IO FileNode := do
  match (← entry.path.symlinkMetadata).type with
  | .dir => return .directory
  | .symlink =>
    try return .link (← IO.FS.realPath entry.path).toString
    catch _ => return brokenLink
  | _ => return .file (← IO.FS.readBinFile entry.path)

/-- Add what is found at a path. A link comes with the file or directory that it leads to. -/
def loadNode (files : FileTree) (entry : IO.FS.DirEntry) : IO FileTree := do
  try
    let node ← nodeAt entry
    let files := files.addNode entry.path.toString node
    match node with
    | .link target =>
      try return files.addNode target (← nodeAt (entryAt target))
      catch _ => return files
    | _ => return files
  catch _ => return files

/-- Add what is found at a path and below it. Links are not descended into. -/
partial def loadBelow (files : FileTree) (entry : IO.FS.DirEntry) : IO FileTree := do
  let files ← loadNode files entry
  try
    match (← entry.path.symlinkMetadata).type with
    | .dir => (← entry.path.readDir).foldlM loadBelow files
    | _ => return files
  catch _ => return files

/-- Add what a path leads to from a working directory. -/
def loadPath (directory : String) (files : FileTree) (path : String) : IO FileTree := do
  let entry := entryAt (FileTree.joinPath directory path)
  let files ← loadNode files entry
  try loadBelow files (entryAt (← IO.FS.realPath entry.path).toString)
  catch _ => return files

def usageText : String :=
  "Usage: ftl [OPTIONS] <COMMAND>\n\n" ++
  "Commands:\n" ++
  "  check     Check .ftl file syntax\n" ++
  "  dump      Print the parsed AST of an .ftl file as JSON\n" ++
  "  format    Format a message from a directory of locale resources\n" ++
  "  coverage  Report translation coverage across locales\n" ++
  "  help      Print this message or the help of the given subcommand(s)\n"

/-- Show what is reported, a line for each malformed entry and each failure. -/
def Notice.show : Notice → IO Unit
  | .help => IO.print usageText
  | .usage => IO.eprint usageText
  | .malformed file d => IO.eprintln (file ++ ": " ++ d.message)
  | .failure message => IO.eprintln message

end Phrasebook.Command

open Phrasebook Phrasebook.Builtin in
def main (words : List String) : IO UInt32 := do
  let directory := (← IO.currentDir).toString
  let start : FileTree := { base := FileTree.pathNames directory }
  let start := start.addNode "." .directory
  let files ← (Command.pathsRead words).foldlM (Command.loadPath directory) start
  let outcome := Command.run files words
  IO.print outcome.stdout
  IO.eprint outcome.stderr
  outcome.notices.forM Command.Notice.show
  return outcome.exit.toUInt32
