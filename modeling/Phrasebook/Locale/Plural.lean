import Phrasebook.Locale.Data
import Phrasebook.Locale.Tag

/-!
# Plural rules

The rules look at a number as it is written: in English `1` is singular and `1.0` is not.
-/

namespace Phrasebook

/-- What plural rules look at: the integer part `i`; the count `v` and the value `f` of the
fraction digits; the same without trailing zeros, `w` and `t`. The sign does not matter. -/
structure PluralOperands where
  i : Nat
  v : Nat
  w : Nat
  f : Nat
  t : Nat
deriving DecidableEq, Repr

namespace PluralOperands

/-- Digits looked at on each side of the point. -/
def window : Nat := 18

/-- The operands of a written number. Of a longer integer part only the last digits count,
behind a leading one. -/
def ofDecimal (d : Decimal) : PluralOperands :=
  let fraction := d.fraction.take window
  let significant := (fraction.reverse.dropWhile (· == Digit.zero)).reverse
  let excess := d.whole.length - window
  { i := Digit.value (d.whole.drop excess) + if excess = 0 then 0 else Digit.powerOfTen window
    v := fraction.length
    w := significant.length
    f := Digit.value fraction
    t := Digit.value significant }

/-- A condition on the number itself, which holds only for whole numbers. -/
def whole (o : PluralOperands) (p : Nat → Bool) : Bool :=
  o.w == 0 && p o.i

/-- A condition on numbers written without a fraction. -/
def integral (o : PluralOperands) (p : Nat → Bool) : Bool :=
  o.v == 0 && p o.i

end PluralOperands

/-- Rules in order; the first category whose condition holds is taken. -/
abbrev PluralRules := List (PluralCategory × (PluralOperands → Bool))

namespace PluralRules

def between (low high n : Nat) : Bool := low ≤ n && n ≤ high

/-- The last decimal digits of a number lie in a range. -/
def ends (modulus low high n : Nat) : Bool := between low high (n % modulus)

/-- Singular for a plain one. -/
def oneInteger : PluralCategory × (PluralOperands → Bool) :=
  (.one, fun o => o.integral (· == 1))

def oneWhole : PluralCategory × (PluralOperands → Bool) :=
  (.one, fun o => o.whole (· == 1))

def twoWhole : PluralCategory × (PluralOperands → Bool) :=
  (.two, fun o => o.whole (· == 2))

def zeroWhole : PluralCategory × (PluralOperands → Bool) :=
  (.zero, fun o => o.whole (· == 0))

/-- Whole millions. -/
def manyMillions : PluralCategory × (PluralOperands → Bool) :=
  (.many, fun o => o.integral fun i => i != 0 && i % 1000000 == 0)

/-- Two to four, but not twelve to fourteen, in the last digits. -/
def fewSlavic : PluralCategory × (PluralOperands → Bool) :=
  (.few, fun o => o.integral fun i => ends 10 2 4 i && !ends 100 12 14 i)

def manyIntegral : PluralCategory × (PluralOperands → Bool) :=
  (.many, fun o => o.integral fun _ => true)

def germanic : PluralRules := [oneInteger]

def italian : PluralRules := [oneInteger, manyMillions]

def french : PluralRules := [(.one, fun o => between 0 1 o.i), manyMillions]

def spanish : PluralRules := [oneWhole, manyMillions]

def polish : PluralRules := [oneInteger, fewSlavic, manyIntegral]

def russian : PluralRules :=
  [(.one, fun o => o.integral fun i => ends 10 1 1 i && !ends 100 11 11 i), fewSlavic,
    manyIntegral]

def czech : PluralRules :=
  [oneInteger, (.few, fun o => o.integral (between 2 4)), (.many, fun o => o.v != 0)]

def slovenian : PluralRules :=
  [(.one, fun o => o.integral (ends 100 1 1)), (.two, fun o => o.integral (ends 100 2 2)),
    (.few, fun o => o.integral (ends 100 3 4) || o.v != 0)]

def lithuanian : PluralRules :=
  [(.one, fun o => o.whole fun n => ends 10 1 1 n && !ends 100 11 19 n),
    (.few, fun o => o.whole fun n => ends 10 2 9 n && !ends 100 11 19 n),
    (.many, fun o => o.f != 0)]

def latvian : PluralRules :=
  [(.zero, fun o => o.whole (fun n => ends 10 0 0 n || ends 100 11 19 n) ||
      (o.v == 2 && ends 100 11 19 o.f)),
    (.one, fun o => o.whole (fun n => ends 10 1 1 n && !ends 100 11 11 n) ||
      (o.v == 2 && ends 10 1 1 o.f && !ends 100 11 11 o.f) ||
      (o.v != 2 && ends 10 1 1 o.f))]

def romanian : PluralRules :=
  [oneInteger, (.few, fun o => o.v != 0 ||
    o.whole fun n => n == 0 || (n != 1 && ends 100 1 19 n))]

def arabic : PluralRules :=
  [zeroWhole, oneWhole, twoWhole, (.few, fun o => o.whole (ends 100 3 10)),
    (.many, fun o => o.whole (ends 100 11 99))]

def hebrew : PluralRules :=
  [(.one, fun o => o.integral (· == 1) || (o.i == 0 && o.v != 0)),
    (.two, fun o => o.integral (· == 2))]

def hindi : PluralRules := [(.one, fun o => o.i == 0 || o.whole (· == 1))]

def welsh : PluralRules :=
  [zeroWhole, oneWhole, twoWhole, (.few, fun o => o.whole (· == 3)),
    (.many, fun o => o.whole (· == 6))]

def irish : PluralRules :=
  [oneWhole, twoWhole, (.few, fun o => o.whole (between 3 6)),
    (.many, fun o => o.whole (between 7 10))]

def maltese : PluralRules :=
  [oneWhole, twoWhole, (.few, fun o => o.whole fun n => n == 0 || ends 100 3 10 n),
    (.many, fun o => o.whole (ends 100 11 19))]

def breton : PluralRules :=
  [(.one, fun o => o.whole fun n =>
      ends 10 1 1 n && !(ends 100 11 11 n || ends 100 71 71 n || ends 100 91 91 n)),
    (.two, fun o => o.whole fun n =>
      ends 10 2 2 n && !(ends 100 12 12 n || ends 100 72 72 n || ends 100 92 92 n)),
    (.few, fun o => o.whole fun n => (ends 10 3 4 n || ends 10 9 9 n) &&
      !(ends 100 10 19 n || ends 100 70 79 n || ends 100 90 99 n)),
    (.many, fun o => o.whole fun n => n != 0 && n % 1000000 == 0)]

def danish : PluralRules := [(.one, fun o => o.whole (· == 1) || (o.t != 0 && between 0 1 o.i))]

def icelandic : PluralRules :=
  [(.one, fun o => (o.t == 0 && ends 10 1 1 o.i && !ends 100 11 11 o.i) ||
    (ends 10 1 1 o.t && !ends 100 11 11 o.t))]

/-- The rules of some languages and of the root locale. -/
def table : List (String × PluralRules) :=
  [("en", germanic), ("de", germanic), ("sv", germanic), ("it", italian), ("pt-PT", italian),
    ("fr", french), ("pt", french), ("es", spanish), ("pl", polish), ("ru", russian),
    ("uk", russian), ("cs", czech), ("sl", slovenian), ("lt", lithuanian), ("lv", latvian),
    ("ro", romanian), ("ar", arabic), ("he", hebrew), ("hi", hindi), ("bn", hindi),
    ("fa", hindi), ("cy", welsh), ("ga", irish), ("mt", maltese), ("br", breton),
    ("da", danish), ("is", icelandic), ("ja", []), ("und", [])]

def category (rules : PluralRules) (o : PluralOperands) : PluralCategory :=
  match rules.find? fun (_, condition) => condition o with
  | some (category, _) => category
  | none => .other

def ofTag (t : LocaleTag) : PluralRules := (t.lookup? table).getD []

end PluralRules

end Phrasebook
