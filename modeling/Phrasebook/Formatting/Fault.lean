/-!
# Faults of formatting

A missing argument ends a formatting call. All other faults leave a visible placeholder
in the text and are reported beside it.
-/

namespace Phrasebook

structure MissingArgument where
  name : String
deriving DecidableEq, Repr

def MissingArgument.message (e : MissingArgument) : String :=
  "missing argument '$" ++ e.name ++ "'"

inductive Fault where
  | unknownMessage (id : String)
  | unknownTerm (id : String)
  | unknownAttribute (owner name : String)
  | noValue (id : String)
  | cycle (chain : List String)
  | tooDeep
  | unformattable (number : String)
deriving DecidableEq, Repr

namespace Fault

def message : Fault → String
  | .unknownMessage id => "unknown message '" ++ id ++ "'"
  | .unknownTerm id => "unknown term '-" ++ id ++ "'"
  | .unknownAttribute owner name => "unknown attribute '" ++ name ++ "' on '" ++ owner ++ "'"
  | .noValue id => "message '" ++ id ++ "' has no value"
  | .cycle chain => "cyclic reference detected: " ++ " -> ".intercalate chain
  | .tooDeep => "maximum reference depth exceeded"
  | .unformattable number => "could not format number '" ++ number ++ "'"

/-- Add a fault to a report that does not have it yet. -/
def record (report : List Fault) (fault : Fault) : List Fault :=
  if fault ∈ report then report else report ++ [fault]

end Fault

end Phrasebook
