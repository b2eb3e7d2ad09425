import Phrasebook.Command.Options

/-!
# Invocations

What a command line asks for: one of four commands with its settings.
-/

namespace Phrasebook.Command

/-- Look for malformed entries. -/
structure CheckSettings where
  files : List String
  strict : Bool
  json : Bool
deriving DecidableEq, Repr

/-- Show how a file is read. -/
structure DumpSettings where
  file : String
  strict : Bool
deriving DecidableEq, Repr

/-- Format one message. -/
structure FormatSettings where
  dir : String
  locales : List String
  id : String
  params : List (String × String)
  strict : Bool
  json : Bool
deriving DecidableEq, Repr

/-- Compare the messages of locales with those of a source file. -/
structure CoverageSettings where
  source : String
  langs : List String
  directory : Option String
  strict : Bool
  json : Bool
deriving DecidableEq, Repr

inductive Task where
  | check (settings : CheckSettings)
  | dump (settings : DumpSettings)
  | format (settings : FormatSettings)
  | coverage (settings : CoverageSettings)
deriving DecidableEq, Repr

structure Invocation where
  verbose : Bool
  task : Task
deriving DecidableEq, Repr

/-! ## Options -/

def isColorChoice (value : String) : Bool :=
  value == "auto" || value == "always" || value == "never"

def isPath (value : String) : Bool := value != ""

def isParam (value : String) : Bool := value.toList.contains '='

/-- Options that may stand in front of the command as well as behind it. -/
def sharedOptions : List OptionSpec :=
  [{ long := "color", kind := .single, accepts := isColorChoice },
    { long := "verbose", short := some 'v' },
    { long := "help", short := some 'h', kind := .help }]

def leadingOptions : List OptionSpec :=
  { long := "version", short := some 'V', kind := .version } :: sharedOptions

def strictOption : OptionSpec := { long := "strict" }

def jsonOption : OptionSpec := { long := "json" }

def formatOptions : List OptionSpec :=
  [{ long := "dir", kind := .single, accepts := isPath },
    { long := "locale", kind := .repeated },
    { long := "param", short := some 'p', kind := .repeated, accepts := isParam },
    strictOption, jsonOption]

def coverageOptions : List OptionSpec :=
  [{ long := "source", kind := .single, accepts := isPath },
    { long := "lang", kind := .repeated },
    { long := "translations", kind := .single, accepts := isPath },
    strictOption, jsonOption]

/-! ## Reading -/

/-- A `name=value` parameter. -/
def splitParam (param : String) : String × String :=
  let (name, value) := splitEquals param.toList
  (String.ofList name, String.ofList (value.getD []))

def readCheck (w : Words) : Except Stop Task :=
  if w.operands = [] || !w.operands.all isPath then .error .usage
  else .ok (.check ⟨w.operands, w.has "strict", w.has "json"⟩)

def readDump (w : Words) : Except Stop Task :=
  match w.operands with
  | [file] => if isPath file then .ok (.dump ⟨file, w.has "strict"⟩) else .error .usage
  | _ => .error .usage

def readFormat (w : Words) : Except Stop Task :=
  match w.value? "dir", w.values "locale", w.operands with
  | some dir, l :: ls, [id] =>
    .ok (.format ⟨dir, l :: ls, id, (w.values "param").map splitParam, w.has "strict",
      w.has "json"⟩)
  | _, _, _ => .error .usage

def readCoverage (w : Words) : Except Stop Task :=
  match w.value? "source", w.operands with
  | some source, [] =>
    .ok (.coverage ⟨source, (w.values "lang").flatMap (·.splitOn ","), w.value? "translations",
      w.has "strict", w.has "json"⟩)
  | _, _ => .error .usage

/-- The options of each command, and how its settings are read from them. -/
def commands : List (String × List OptionSpec × (Words → Except Stop Task)) :=
  [("check", [strictOption, jsonOption], readCheck),
    ("dump", [strictOption], readDump),
    ("format", formatOptions, readFormat),
    ("coverage", coverageOptions, readCoverage)]

/-- The command `help` may name another command. -/
def readHelp : List String → Stop
  | [] => .help
  | [name] => if name == "help" || (commands.lookup name).isSome then .help else .usage
  | _ => .usage

/-- What the words of a command line ask for. -/
def Invocation.read (words : List String) : Except Stop Invocation := do
  let (leading, words) ← readWords leadingOptions true {} none words
  match words with
  | [] => .error .usage
  | "help" :: words => .error (readHelp words)
  | name :: words =>
    match commands.lookup name with
    | none => .error .usage
    | some (options, readTask) =>
      let (w, _) ← readWords (options ++ sharedOptions) false {} none words
      return ⟨leading.has "verbose" || w.has "verbose", ← readTask w⟩

end Phrasebook.Command
