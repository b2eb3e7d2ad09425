import Phrasebook.Keyed
import Phrasebook.Number.Binary

/-!
# Arguments of a formatting call

Texts are inserted as they are; numbers are written in the way of the locale and can
select plural forms.
-/

namespace Phrasebook

inductive Value where
  | text (value : String)
  | integer (value : Int)
  | float (value : Binary)
deriving DecidableEq, Repr

namespace Value

def toText : Value → String
  | .text t => t
  | .integer n => toString n
  | .float x => x.toText

def asText? : Value → Option String
  | .text t => some t
  | _ => none

def asInteger? : Value → Option Int
  | .integer n => some n
  | _ => none

/-- The decimal that is shown for a number. There is none for a text or a number that is
not finite. -/
def toDecimal? : Value → Option Decimal
  | .text _ => none
  | .integer n => some (.ofInt n)
  | .float x => x.toDecimal?

/-- Half the number of integers of 64 bits. -/
def bound : Int := 9223372036854775808

/-- Integers of 64 bits, the sign included. -/
def inRange (n : Int) : Bool := -bound ≤ n && n < bound

/-- Read digits with an optional sign as an integer of 64 bits. -/
def readInteger? (text : String) : Option Int := do
  let (sign, digits) := SignMark.split text.toList
  guard (!digits.isEmpty)
  let ds ← Digit.ofChars? digits
  let magnitude : Int := Digit.value ds
  let n := if sign = .minus then -magnitude else magnitude
  guard (inRange n)
  return n

/-- An unsigned number: an integer if it is in range, else the nearest float. -/
def ofNat (n : Nat) : Value :=
  if inRange n then .integer n else .float (.ofInt n)

/-- What a text given on a command line means: an integer, else a finite number, else the
text itself. -/
def ofText (text : String) : Value :=
  match readInteger? text with
  | some n => .integer n
  | none =>
    match Binary.read? .double text with
    | some x => if x.isFinite then .float x else .text text
    | none => .text text

end Value

structure Argument where
  name : String
  value : Value
deriving DecidableEq, Repr

instance : Keyed Argument := ⟨Argument.name⟩

abbrev Arguments := List Argument

namespace Arguments

def get? (args : Arguments) (name : String) : Option Value :=
  (Keyed.find? name args).map Argument.value

/-- Arguments by name; the last value of a repeated name counts. -/
def ofList (args : List Argument) : Arguments :=
  Keyed.putAll args []

end Arguments

end Phrasebook
