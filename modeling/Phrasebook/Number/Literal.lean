import Phrasebook.Number.Binary

/-!
# Number literals

A literal keeps the text it was written with, so that `0010` and `10` stay different
literals and `1.50` keeps its two fraction digits when it is shown.
-/

namespace Phrasebook

structure NumberLiteral where
  raw : String
deriving DecidableEq, Repr

namespace NumberLiteral

/-- Take redundant zeros from the front of an integer part. -/
def trimZeros (cs : List Char) : List Char :=
  match cs.dropWhile (· == '0') with
  | [] => ['0']
  | rest => rest

/-- The text without redundant leading zeros: sign mark and fraction digits stay. -/
def normalizedChars (cs : List Char) : List Char :=
  let (sign, unsigned) := match cs with
    | '-' :: rest => (['-'], rest)
    | _ => ([], cs)
  match Decimal.splitAt (· == '.') unsigned with
  | (whole, some fraction) => sign ++ trimZeros whole ++ '.' :: fraction
  | (whole, none) => sign ++ trimZeros whole

def normalized (n : NumberLiteral) : String :=
  String.ofList (normalizedChars n.raw.toList)

/-- The size of the text behind the first point. -/
def fractionDigits (n : NumberLiteral) : Nat :=
  match (Decimal.splitAt (· == '.') n.raw.toList).2 with
  | some fraction => (String.ofList fraction).utf8ByteSize
  | none => 0

/-- The number that is compared with selectors. -/
def value (n : NumberLiteral) : Binary :=
  (Binary.read? .double n.raw).getD .nan

/-- The decimal that is shown, with its fraction digits as written. -/
def toDecimal? (n : NumberLiteral) : Option Decimal :=
  Decimal.read? n.normalized

end NumberLiteral

end Phrasebook
