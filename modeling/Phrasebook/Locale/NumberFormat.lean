import Phrasebook.Locale.Tag
import Phrasebook.Number.Decimal

/-!
# Number formats

How a locale writes numbers: the marks, how the digits of the integer part are grouped,
and the digits themselves. All digits of a number are shown.
-/

namespace Phrasebook

structure NumberFormat where
  /-- Stands between groups of digits. -/
  separator : String
  point : String
  minus : String
  /-- Digits in the group next to the point. -/
  primary : Nat := 3
  /-- Digits in the groups in front of it. -/
  secondary : Nat := 3
  /-- Least number of digits in front of the first separator. -/
  leading : Nat := 1
  /-- The digit zero; the others follow it. -/
  zero : Char := '0'
deriving DecidableEq, Repr

namespace NumberFormat

/-! ## Writing -/

def digit (f : NumberFormat) (d : Digit) : Char :=
  Char.ofNat (f.zero.toNat + d.val)

/-- Whether a separator stands in front of the last `n` digits. -/
def separates (f : NumberFormat) (n : Nat) : Bool :=
  f.primary ≤ n && (n - f.primary) % f.secondary == 0

/-- The digits of an integer part with the separators between them. -/
def group (f : NumberFormat) : List Digit → String
  | [] => ""
  | d :: ds =>
    let rest := f.group ds
    String.singleton (f.digit d) ++ if f.separates ds.length then f.separator ++ rest else rest

def plain (f : NumberFormat) (ds : List Digit) : String :=
  String.ofList (ds.map f.digit)

def sign (f : NumberFormat) : SignMark → String
  | .none => ""
  | .minus => f.minus
  | .plus => "+"

def format (f : NumberFormat) (d : Decimal) : String :=
  let whole :=
    if d.whole.length < f.primary + f.leading then f.plain d.whole else f.group d.whole
  let fraction := if d.fraction.isEmpty then "" else f.point ++ f.plain d.fraction
  f.sign d.sign ++ whole ++ fraction

/-! ## Formats of locales -/

def comma : NumberFormat := { separator := ",", point := ".", minus := "-" }

def lakh : NumberFormat := { comma with secondary := 2 }

def bengali : NumberFormat := { lakh with zero := '\u09E6' }

def dot : NumberFormat := { separator := ".", point := ",", minus := "-" }

def dotFromFive : NumberFormat := { dot with leading := 2 }

def slovenian : NumberFormat := { dotFromFive with minus := "\u2212" }

def space : NumberFormat := { separator := "\u00A0", point := ",", minus := "-" }

def spaceFromFive : NumberFormat := { space with leading := 2 }

def nordic : NumberFormat := { space with minus := "\u2212" }

def swiss : NumberFormat := { separator := "'", point := ".", minus := "-" }

def french : NumberFormat := { space with separator := "\u202F" }

def marked : NumberFormat := { comma with minus := "\u200E-" }

def arabic : NumberFormat :=
  { separator := "\u066C", point := "\u066B", minus := "\u061C-", zero := '\u0660' }

def persian : NumberFormat := { arabic with minus := "\u200E\u2212", zero := '\u06F0' }

def persianLatin : NumberFormat := { comma with minus := "\u200E\u2212" }

/-- The formats of some locales by numbering system, the system of the locale first. -/
def table : List (String × List (String × NumberFormat)) :=
  let latin (f : NumberFormat) : List (String × NumberFormat) := [("latn", f)]
  [("en", latin comma), ("es-MX", latin comma), ("ja", latin comma), ("cy", latin comma),
    ("ga", latin comma), ("mt", latin comma), ("und", latin comma),
    ("en-IN", latin lakh), ("hi", latin lakh),
    ("bn", [("beng", bengali), ("latn", lakh)]),
    ("de", latin dot), ("pt", latin dot), ("ro", latin dot), ("da", latin dot),
    ("is", latin dot),
    ("es", latin dotFromFive), ("it", latin dotFromFive), ("sl", latin slovenian),
    ("de-AT", latin space), ("fr-CA", latin space), ("ru", latin space), ("uk", latin space),
    ("cs", latin space), ("br", latin space),
    ("pl", latin spaceFromFive), ("pt-PT", latin spaceFromFive), ("lv", latin spaceFromFive),
    ("sv", latin nordic), ("lt", latin nordic),
    ("de-CH", latin swiss), ("fr", latin french), ("he", latin marked),
    ("ar", [("latn", marked), ("arab", arabic)]),
    ("ar-EG", [("arab", arabic), ("latn", marked)]),
    ("fa", [("arabext", persian), ("latn", persianLatin)])]

/-- The code point of the zero of each numbering system. -/
def zeros : List (String × Nat) :=
  [("adlm", 0x1E950), ("ahom", 0x11730), ("arab", 0x0660), ("arabext", 0x06F0), ("bali", 0x1B50),
    ("beng", 0x09E6), ("bhks", 0x11C50), ("brah", 0x11066), ("cakm", 0x11136), ("cham", 0xAA50),
    ("deva", 0x0966), ("fullwide", 0xFF10), ("gong", 0x11DA0), ("gonm", 0x11D50),
    ("gujr", 0x0AE6), ("guru", 0x0A66), ("hmng", 0x16B50), ("hmnp", 0x1E140), ("java", 0xA9D0),
    ("kali", 0xA900), ("khmr", 0x17E0), ("knda", 0x0CE6), ("lana", 0x1A80), ("lanatham", 0x1A90),
    ("laoo", 0x0ED0), ("latn", 0x0030), ("lepc", 0x1C40), ("limb", 0x1946), ("mlym", 0x0D66),
    ("modi", 0x11650), ("mong", 0x1810), ("mroo", 0x16A60), ("mtei", 0xABF0), ("mymr", 0x1040),
    ("mymrshan", 0x1090), ("mymrtlng", 0xA9F0), ("newa", 0x11450), ("nkoo", 0x07C0),
    ("olck", 0x1C50), ("orya", 0x0B66), ("osma", 0x104A0), ("rohg", 0x10D30), ("saur", 0xA8D0),
    ("shrd", 0x111D0), ("sind", 0x112F0), ("sinh", 0x0DE6), ("sora", 0x110F0), ("sund", 0x1BB0),
    ("takr", 0x116C0), ("talu", 0x19D0), ("tamldec", 0x0BE6), ("telu", 0x0C66), ("thai", 0x0E50),
    ("tibt", 0x0F20), ("tirh", 0x114D0), ("vaii", 0xA620), ("wara", 0x118E0), ("wcho", 0x1E2F0)]

/-- The format of a locale. A numbering system that its tag asks for replaces the digits,
and the marks too where the locale has marks of its own for it. -/
def ofTag (t : LocaleTag) : NumberFormat :=
  let formats := (t.lookup? table).getD []
  let own := (formats.map (·.2)).headD comma
  match t.keyword? "nu" with
  | none => own
  | some system =>
    match formats.lookup system, zeros.lookup system with
    | some f, _ => f
    | none, some code => { own with zero := Char.ofNat code }
    | none, none => own

end NumberFormat

end Phrasebook
