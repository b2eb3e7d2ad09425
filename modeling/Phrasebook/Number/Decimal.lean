/-!
# Written decimals

A decimal number as it is written: a sign mark, the digits before the point and the
digits behind it. Zeros that do not change the value are kept, since they decide how a
number is shown and which plural form it takes.
-/

namespace Phrasebook

/-- A digit from zero to nine. -/
abbrev Digit := Fin 10

namespace Digit

def zero : Digit := 0

def ofChar? (c : Char) : Option Digit :=
  if '0' ≤ c ∧ c ≤ '9' then some (Fin.ofNat 10 (c.toNat - '0'.toNat)) else none

def toChar (d : Digit) : Char :=
  Char.ofNat ('0'.toNat + d.val)

/-- The digits of a text that holds nothing else. -/
def ofChars? (cs : List Char) : Option (List Digit) :=
  cs.mapM ofChar?

/-- The number that a row of digits denotes. -/
def value (ds : List Digit) : Nat :=
  ds.foldl (fun n d => 10 * n + d.val) 0

def powerOfTen (exponent : Nat) : Nat := Nat.pow 10 exponent

/-- The digits of a number, without leading zeros except for zero itself. -/
def ofNat (n : Nat) : List Digit :=
  (Nat.toDigits 10 n).map fun c => Fin.ofNat 10 (c.toNat - '0'.toNat)

end Digit

inductive SignMark where
  | none
  | minus
  | plus
deriving DecidableEq, Repr

/-- The mark of a number that is written with a minus only when it is negative. -/
def SignMark.ofNegative (negative : Bool) : SignMark :=
  if negative then .minus else .none

/-- Split a leading sign off a text. -/
def SignMark.split : List Char → SignMark × List Char
  | '-' :: cs => (.minus, cs)
  | '+' :: cs => (.plus, cs)
  | cs => (.none, cs)

def SignMark.toText : SignMark → String
  | .none => ""
  | .minus => "-"
  | .plus => "+"

structure Decimal where
  sign : SignMark
  whole : List Digit
  fraction : List Digit
deriving DecidableEq, Repr

namespace Decimal

/-- At most so many digits may stand on either side of the point. -/
def maxDigits : Nat := 32768

def toText (d : Decimal) : String :=
  let fraction := if d.fraction.isEmpty then [] else '.' :: d.fraction.map Digit.toChar
  d.sign.toText ++ String.ofList (d.whole.map Digit.toChar ++ fraction)

def isZero (d : Decimal) : Bool :=
  d.whole.all (· == Digit.zero) && d.fraction.all (· == Digit.zero)

def ofInt (n : Int) : Decimal :=
  ⟨.ofNegative (n < 0), Digit.ofNat n.natAbs, []⟩

/-- Move the point to the right through the written digits. -/
def shiftRight (d : Decimal) (places : Nat) : Decimal :=
  { d with
    whole := d.whole ++ d.fraction.take places ++
      List.replicate (places - d.fraction.length) Digit.zero
    fraction := d.fraction.drop places }

/-- Move the point to the left; a zero fills the place in front of it. -/
def shiftLeft (d : Decimal) (places : Nat) : Decimal :=
  let padded := List.replicate (places + 1 - d.whole.length) Digit.zero ++ d.whole
  { d with
    whole := padded.take (padded.length - places)
    fraction := padded.drop (padded.length - places) ++ d.fraction }

/-- Multiply by a power of ten. A zero stays as it is written, and a result with too many
digits on one side becomes zero. -/
def scale (d : Decimal) (exponent : Int) : Decimal :=
  if d.isZero then d
  else if 0 ≤ exponent then
    if d.whole.length + exponent.natAbs ≤ maxDigits then d.shiftRight exponent.natAbs
    else ⟨d.sign, [Digit.zero], []⟩
  else
    if d.fraction.length + exponent.natAbs ≤ maxDigits then d.shiftLeft exponent.natAbs
    else ⟨d.sign, [Digit.zero], []⟩

/-- The number `n · 10 ^ exponent`, written without an exponent. -/
def ofScaled (negative : Bool) (n : Nat) (exponent : Int) : Decimal :=
  let d : Decimal := ⟨.ofNegative negative, Digit.ofNat n, []⟩
  if 0 ≤ exponent then d.shiftRight exponent.natAbs else d.shiftLeft exponent.natAbs

/-- Split a text in front of the first character of a kind; the second part starts behind
that character and is missing when there is none. -/
def splitAt (p : Char → Bool) : List Char → List Char × Option (List Char)
  | [] => ([], none)
  | c :: cs =>
    if p c then ([], some cs)
    else
      let (front, back) := splitAt p cs
      (c :: front, back)

/-- The exponent of a decimal: digits with an optional minus in front. -/
def readExponent? : List Char → Option Int
  | '-' :: cs => (Digit.ofChars? cs).map fun ds => -(Digit.value ds : Int)
  | cs => (Digit.ofChars? cs).map fun ds => (Digit.value ds : Int)

/-- Read an optional sign, digits with at most one point among them and an optional
exponent. The last character is neither the point nor the exponent mark, and the mark is
not the first. -/
def read? (text : String) : Option Decimal := do
  let (sign, body) := SignMark.split text.toList
  let (mantissa, exponent) := splitAt (fun c => c == 'e' || c == 'E') body
  guard (!mantissa.isEmpty && exponent != some [])
  let (whole, fraction) := splitAt (· == '.') mantissa
  guard (exponent.isSome || fraction != some [])
  let whole ← Digit.ofChars? whole
  let fraction ← Digit.ofChars? (fraction.getD [])
  guard (whole.length ≤ maxDigits && fraction.length ≤ maxDigits)
  let shift ← readExponent? (exponent.getD [])
  return scale ⟨sign, if whole.isEmpty then [Digit.zero] else whole, fraction⟩ shift

end Decimal

end Phrasebook
