/-!
# Options on a command line

A command line is a row of words. Words that start with a dash are options, long ones or
clusters of short ones; the others are operands. Two dashes by themselves make operands of
all words behind them.
-/

namespace Phrasebook.Command

inductive OptionKind where
  /-- Present or not. -/
  | flag
  /-- Has one value. -/
  | single
  /-- Has a value and may be repeated. -/
  | repeated
  /-- Asks for help instead of a run. -/
  | help
  /-- Asks for the version instead of a run. -/
  | version
deriving DecidableEq, Repr

structure OptionSpec where
  long : String
  short : Option Char := none
  kind : OptionKind := .flag
  /-- The values that the option takes. -/
  accepts : String → Bool := fun _ => true

/-- Why the words do not lead to a run. -/
inductive Stop where
  | usage
  | help
  | version
deriving DecidableEq, Repr

/-- The options given, in order and with their values, and the operands. -/
structure Words where
  given : List (String × String) := []
  operands : List String := []
deriving DecidableEq, Repr

namespace Words

def has (w : Words) (long : String) : Bool := w.given.any (·.1 == long)

def values (w : Words) (long : String) : List String :=
  (w.given.filter (·.1 == long)).map (·.2)

def value? (w : Words) (long : String) : Option String :=
  (w.values long).head?

/-- Note an option. Only some options may be repeated. -/
def give (w : Words) (spec : OptionSpec) (value : String) : Except Stop Words :=
  if spec.kind != .repeated && w.has spec.long then .error .usage
  else if !spec.accepts value then .error .usage
  else .ok { w with given := w.given ++ [(spec.long, value)] }

def addOperand (w : Words) (word : String) : Words :=
  { w with operands := w.operands ++ [word] }

end Words

def takesValue (spec : OptionSpec) : Bool :=
  spec.kind == .single || spec.kind == .repeated

/-- An option without a value. -/
def giveFlag (w : Words) (spec : OptionSpec) : Except Stop Words :=
  match spec.kind with
  | .help => .error .help
  | .version => .error .version
  | _ => w.give spec ""

/-- Split a text at its first equals sign. -/
def splitEquals : List Char → List Char × Option (List Char)
  | [] => ([], none)
  | '=' :: cs => ([], some cs)
  | c :: cs =>
    let (name, value) := splitEquals cs
    (c :: name, value)

/-- A long option: its name and value, without the dashes. An option that lacks its value
waits for the next word. -/
def giveLong (specs : List OptionSpec) (w : Words) (word : List Char) :
    Except Stop (Words × Option OptionSpec) := do
  let (name, value) := splitEquals word
  match specs.find? (·.long == String.ofList name), value with
  | none, _ => .error .usage
  | some spec, some value =>
    if takesValue spec then return (← w.give spec (String.ofList value), none)
    else .error .usage
  | some spec, none =>
    if takesValue spec then return (w, some spec) else return (← giveFlag w spec, none)

/-- A cluster of short options. The first one with a value takes the rest of the word,
behind an optional equals sign, or waits for the next word. -/
def giveShort (specs : List OptionSpec) (w : Words) :
    List Char → Except Stop (Words × Option OptionSpec)
  | [] => .ok (w, none)
  | c :: cs =>
    match specs.find? (·.short == some c) with
    | none => .error .usage
    | some spec =>
      if takesValue spec then
        match cs with
        | [] => .ok (w, some spec)
        | '=' :: value => (w.give spec (String.ofList value)).map (·, none)
        | value => (w.give spec (String.ofList value)).map (·, none)
      else do
        let w ← giveFlag w spec
        giveShort specs w cs

def isOption (word : String) : Bool :=
  word.startsWith "-" && word != "-"

/-- Read words one by one; `waiting` is an option that lacks its value. If `leading` is set,
the reading ends in front of the first operand. -/
def readWords (specs : List OptionSpec) (leading : Bool) (w : Words) (waiting : Option OptionSpec) :
    List String → Except Stop (Words × List String)
  | [] => if waiting.isSome then .error .usage else .ok (w, [])
  | word :: words =>
    match waiting with
    | some spec =>
      if isOption word then .error .usage
      else do
        let w ← w.give spec word
        readWords specs leading w none words
    | none =>
      match word.toList with
      | ['-', '-'] =>
        if leading then .error .usage
        else .ok (words.foldl Words.addOperand w, [])
      | '-' :: '-' :: name => do
        let (w, waiting) ← giveLong specs w name
        readWords specs leading w waiting words
      | '-' :: c :: cs => do
        let (w, waiting) ← giveShort specs w (c :: cs)
        readWords specs leading w waiting words
      | _ =>
        if leading then .ok (w, word :: words)
        else readWords specs leading (w.addOperand word) none words

end Phrasebook.Command
