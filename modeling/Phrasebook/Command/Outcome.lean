import Phrasebook.Diagnostic

/-!
# Outcomes of a command
-/

namespace Phrasebook.Command

/-- What is reported to the user. How it is laid out is left to the terminal. -/
inductive Notice where
  | help
  | usage
  | malformed (file : String) (diagnostic : Diagnostic)
  /-- Why the command could not do its work. -/
  | failure (message : String)
deriving DecidableEq, Repr

/-- What a command writes and reports, and the code it ends with. -/
structure Outcome where
  exit : Nat
  stdout : String := ""
  stderr : String := ""
  notices : List Notice := []
deriving DecidableEq, Repr

namespace ExitCode

def ok : Nat := 0

def usage : Nat := 2

/-- Something is wrong with the resources or the message asked for. -/
def dataError : Nat := 65

/-- The command could not do its work. -/
def failure : Nat := 70

end ExitCode

/-- End without a result, after what has been written and reported. -/
def Outcome.fatal (stdout : String) (notices : List Notice) (message : String) : Outcome :=
  { exit := ExitCode.failure, stdout, notices := notices ++ [.failure message] }

def colored (code : Nat) (text : String) : String :=
  "\x1b[" ++ toString code ++ "m" ++ text ++ "\x1b[39m"

def red : String → String := colored 31

def green : String → String := colored 32

def yellow : String → String := colored 33

end Phrasebook.Command
