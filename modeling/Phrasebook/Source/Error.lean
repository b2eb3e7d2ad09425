import Phrasebook.Position

/-!
# Errors of reading a source text
-/

namespace Phrasebook

inductive ParseError where
  | malformed (position : Position) (reason : String)
  | unexpectedEnd (position : Position)
  | notUtf8
deriving DecidableEq, Repr

def Position.toText (p : Position) : String :=
  toString p.line ++ ":" ++ toString p.column

namespace ParseError

def message : ParseError → String
  | .malformed position reason => "syntax error at " ++ position.toText ++ ": " ++ reason
  | .unexpectedEnd position => "unexpected end of input at " ++ position.toText
  | .notUtf8 => "invalid UTF-8 in input"

/-- Where the reading stopped; bytes that are no text fail at their start. -/
def position : ParseError → Position
  | .malformed position _ => position
  | .unexpectedEnd position => position
  | .notUtf8 => .start

end ParseError

/-- What happens to a malformed entry: it is kept as junk, or it ends the reading. -/
inductive Mode where
  | lenient
  | strict
deriving DecidableEq, Repr

end Phrasebook
