import Phrasebook.Number.Decimal

/-!
# Binary floating-point numbers

Numbers of the form `mantissa · 2 ^ exponent` with a bounded mantissa, together with the
infinities and a single value for "not a number". All computations are exact: a quotient
is rounded once, to the nearest representable number with ties going to the even
mantissa, and the written form is the shortest decimal that rounds back to the number.
-/

namespace Phrasebook

/-- The range of a binary format: the bits of the mantissa and the least and greatest
exponents. -/
structure BinaryFormat where
  precision : Nat
  minExponent : Int
  maxExponent : Int

def BinaryFormat.double : BinaryFormat := ⟨53, -1074, 971⟩

def BinaryFormat.single : BinaryFormat := ⟨24, -149, 104⟩

/-- A floating-point number. A finite number has the greatest mantissa that its format
admits, so that equal numbers other than the two zeros are equal values of this type. -/
inductive Binary where
  | nan
  | infinite (negative : Bool)
  | finite (negative : Bool) (mantissa : Nat) (exponent : Int)
deriving DecidableEq, Repr

namespace Binary

open Digit

def powerOfTwo (exponent : Nat) : Nat := Nat.pow 2 exponent

/-- The quotient rounded to the nearest integer, a tie to the even one. -/
def roundDiv (num den : Nat) : Nat :=
  let q := num / den
  let r := num % den
  if 2 * r < den then q
  else if den < 2 * r then q + 1
  else q + q % 2

/-- The fraction `num / den` divided by `2 ^ exponent`. -/
def unscale (num den : Nat) (exponent : Int) : Nat × Nat :=
  if 0 ≤ exponent then (num, den * powerOfTwo exponent.natAbs)
  else (num * powerOfTwo exponent.natAbs, den)

/-- The exponent at which the fraction has a mantissa of full length. -/
def exponentFor (format : BinaryFormat) (num den : Nat) : Int :=
  let low : Int := (num.log2 : Int) - (den.log2 : Int) - (format.precision : Int)
  let (n, d) := unscale num den low
  max format.minExponent (if powerOfTwo format.precision ≤ n / d then low + 1 else low)

/-- The representable number nearest to `num / den`. -/
def ofFraction (format : BinaryFormat) (negative : Bool) (num den : Nat) : Binary :=
  if num = 0 then .finite negative 0 format.minExponent
  else
    let e := exponentFor format num den
    let (n, d) := unscale num den e
    let m := roundDiv n d
    let (m, e) := if m = powerOfTwo format.precision then (m / 2, e + 1) else (m, e)
    if format.maxExponent < e then .infinite negative else .finite negative m e

/-- The number nearest to an integer. -/
def ofInt (n : Int) : Binary :=
  ofFraction .double (n < 0) n.natAbs 1

/-- The same number as a double. -/
def widen : Binary → Binary
  | .finite negative m e =>
    if 0 ≤ e then ofFraction .double negative (m * powerOfTwo e.natAbs) 1
    else ofFraction .double negative m (powerOfTwo e.natAbs)
  | x => x

/-- No finite number reaches ten to this power, and none but zero is as small as its
inverse. -/
def decimalRange : Nat := 400

/-- The number nearest to `n · 10 ^ exponent`. -/
def ofScaled (format : BinaryFormat) (negative : Bool) (n : Nat) (exponent : Int) : Binary :=
  let magnitude : Int := (Digit.ofNat n).length + exponent
  if n = 0 || magnitude < -decimalRange then .finite negative 0 format.minExponent
  else if (decimalRange : Int) < magnitude then .infinite negative
  else if 0 ≤ exponent then ofFraction format negative (n * powerOfTen exponent.natAbs) 1
  else ofFraction format negative n (powerOfTen exponent.natAbs)

/-- An exponent of a floating-point text: digits, at least one, with an optional sign. -/
def readExponent? (cs : List Char) : Option Int := do
  let (sign, digits) := SignMark.split cs
  guard (!digits.isEmpty)
  let ds ← Digit.ofChars? digits
  let n : Int := Digit.value ds
  return if sign = .minus then -n else n

/-- Read a floating-point text behind its sign: digits with an optional point, at least
one digit, and an optional exponent. -/
def readMagnitude? (format : BinaryFormat) (negative : Bool) (cs : List Char) :
    Option Binary := do
  let (mantissa, exponent) := Decimal.splitAt (fun c => c == 'e' || c == 'E') cs
  let (whole, fraction) := Decimal.splitAt (· == '.') mantissa
  let whole ← Digit.ofChars? whole
  let fraction ← Digit.ofChars? (fraction.getD [])
  guard (!(whole.isEmpty && fraction.isEmpty))
  let shift ← match exponent with
    | none => some 0
    | some cs => readExponent? cs
  return ofScaled format negative (Digit.value (whole ++ fraction)) (shift - fraction.length)

/-- Read a floating-point text: an optional sign, then a magnitude or one of the words for
the special values, in any case. -/
def read? (format : BinaryFormat) (text : String) : Option Binary :=
  let (sign, body) := SignMark.split text.toList
  let negative := sign = .minus
  let word := String.ofList (body.map Char.toLower)
  if word = "nan" then some .nan
  else if word = "inf" || word = "infinity" then some (.infinite negative)
  else readMagnitude? format negative body

/-- Numerical equality: the two zeros are equal and "not a number" equals nothing. -/
def sameValue : Binary → Binary → Bool
  | .finite s m e, .finite s' m' e' => (m == 0 && m' == 0) || (s == s' && m == m' && e == e')
  | .infinite s, .infinite s' => s == s'
  | _, _ => false

def isFinite : Binary → Bool
  | .finite .. => true
  | _ => false

/-! ## The shortest decimal -/

/-- The fractions that round to one finite number, on a common denominator: the number
itself and the ends of the interval around it, which belong to it or not. -/
structure Interval where
  low : Nat
  mid : Nat
  high : Nat
  den : Nat
  closed : Bool

/-- The interval of a positive double. It reaches half way to both neighbours; below a
power of two the lower neighbour is twice as near. -/
def interval (mantissa : Nat) (exponent : Int) : Interval :=
  let near := mantissa == powerOfTwo 52 && exponent != BinaryFormat.double.minExponent
  let low := 4 * mantissa - (if near then 1 else 2)
  let (scale, den) := if 2 ≤ exponent then (powerOfTwo (exponent - 2).natAbs, 1)
    else (1, powerOfTwo (2 - exponent).natAbs)
  ⟨low * scale, 4 * mantissa * scale, (4 * mantissa + 2) * scale, den, mantissa % 2 == 0⟩

/-- The place of the leading digit of a positive fraction: the greatest `k` with
`10 ^ k ≤ num / den`. -/
def leadingPlace (num den : Nat) : Int :=
  if den ≤ num then ((Digit.ofNat (num / den)).length : Int) - 1
  else
    let d := (Digit.ofNat (den / num)).length
    if den ≤ num * powerOfTen (d - 1) then -((d : Int) - 1) else -(d : Int)

/-- The fraction in units of `10 ^ place`, as numerator and denominator. -/
def inUnits (num den : Nat) (place : Int) : Nat × Nat :=
  if 0 ≤ place then (num, den * powerOfTen place.natAbs)
  else (num * powerOfTen place.natAbs, den)

/-- Which of two decimals is taken when both are equally near. -/
inductive Tie where
  | even
  | up
deriving DecidableEq, Repr

/-- The multiple of `10 ^ place` that rounds to the number, the nearer one of two. -/
def Interval.nearestOn? (i : Interval) (tie : Tie) (place : Int) : Option Nat :=
  let (mid, den) := inUnits i.mid i.den place
  let (low, _) := inUnits i.low i.den place
  let (high, _) := inUnits i.high i.den place
  let inside (n : Nat) : Bool :=
    if i.closed then low ≤ n * den && n * den ≤ high else low < n * den && n * den < high
  let below := mid / den
  let above := below + 1
  match inside below, inside above with
  | true, true =>
    let down := 2 * (mid % den) < den ||
      (2 * (mid % den) == den && tie == .even && below % 2 == 0)
    some (if down then below else above)
  | true, false => some below
  | false, true => some above
  | false, false => none

/-- The digits and the place of the last digit of the shortest decimal that rounds to a
positive double; seventeen digits always suffice. -/
def shortest (tie : Tie) (mantissa : Nat) (exponent : Int) : Nat × Int :=
  let i := interval mantissa exponent
  let top := leadingPlace i.mid i.den
  let found := (List.range 17).findSome? fun (n : Nat) =>
    let place := top - (n : Int)
    (i.nearestOn? tie place).map fun digits => (digits, place)
  match found with
  | some (digits, place) => if digits % 10 = 0 then (digits / 10, place + 1) else (digits, place)
  | none => (mantissa, exponent)

/-- The shortest decimal of a finite double, written without an exponent. -/
def shortestDecimal (tie : Tie) (negative : Bool) (mantissa : Nat) (exponent : Int) : Decimal :=
  if mantissa = 0 then ⟨.ofNegative negative, [Digit.zero], []⟩
  else
    let (digits, place) := shortest tie mantissa exponent
    Decimal.ofScaled negative digits place

/-- The decimal that a locale formats; of two equally near ones the even one. -/
def toDecimal? : Binary → Option Decimal
  | .finite negative m e => some (shortestDecimal .even negative m e)
  | _ => none

/-- The plain text of a number; of two equally near decimals the greater one. -/
def toText : Binary → String
  | .nan => "NaN"
  | .infinite negative => if negative then "-inf" else "inf"
  | .finite negative m e => (shortestDecimal .up negative m e).toText

/-- The interchange encoding of a double: sign, biased exponent and mantissa. -/
def toBits? : Binary → Option Nat
  | .nan => none
  | .infinite negative => some ((if negative then powerOfTwo 63 else 0) + 2047 * powerOfTwo 52)
  | .finite negative m e =>
    let sign := if negative then powerOfTwo 63 else 0
    if m < powerOfTwo 52 then some (sign + m)
    else some (sign + (e + 1075).toNat * powerOfTwo 52 + (m - powerOfTwo 52))

end Binary

end Phrasebook
