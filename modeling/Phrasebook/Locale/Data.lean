import Phrasebook.Number.Decimal

/-!
# Locales

What is known of a locale comes from a library: how its tag is read and spelled, into which
plural categories it sorts numbers, and how it writes them. The library may have no plural
rules for a locale, and then all numbers are of the category `other`; and it may have no number
format, and then no number has a text.
-/

namespace Phrasebook

/-- A language sorts numbers into at most six categories. -/
inductive PluralCategory where
  | zero
  | one
  | two
  | few
  | many
  | other
deriving DecidableEq, Repr

def PluralCategory.name : PluralCategory → String
  | .zero => "zero"
  | .one => "one"
  | .two => "two"
  | .few => "few"
  | .many => "many"
  | .other => "other"

/-- A library of locales. -/
class LocaleData where
  /-- What a tag names. -/
  Tag : Type
  [decEq : DecidableEq Tag]
  /-- Read a text whose parts are joined by `-`. -/
  read? : String → Option Tag
  /-- The one spelling of a tag. -/
  spell : Tag → String
  english : Tag
  rules? : Tag → Option (Decimal → PluralCategory)
  format? : Tag → Option (Decimal → String)

instance [LocaleData] : DecidableEq LocaleData.Tag := LocaleData.decEq

/-- What formatting asks of a locale: the category of a number and its text, if it has one. -/
structure Locale where
  pluralCategory : Decimal → PluralCategory
  formatNumber? : Decimal → Option String

namespace Locale

/-- The text of a number; the plain one if the locale has none. -/
def formatNumber (l : Locale) (d : Decimal) : String :=
  (l.formatNumber? d).getD d.toText

/-- The category by the rules of a locale, if there are any. -/
def categoryBy (rules : Option (Decimal → PluralCategory)) (d : Decimal) : PluralCategory :=
  match rules with
  | some category => category d
  | none => .other

/-- The text in the format of a locale, if there is one. -/
def textBy? (format : Option (Decimal → String)) (d : Decimal) : Option String :=
  format.map fun write => write d

section

variable [LocaleData]

/-- Read a tag, in which `_` may stand for `-`. -/
def parse? (tag : String) : Option LocaleData.Tag :=
  LocaleData.read? (tag.map fun c => if c = '_' then '-' else c)

/-- The one spelling of a tag, if it is valid. -/
def canonical? (tag : String) : Option String :=
  (parse? tag).map LocaleData.spell

/-- What a tag names in formatting: English for an invalid tag. -/
def resolve (tag : String) : LocaleData.Tag :=
  (parse? tag).getD LocaleData.english

/-- The locale with the rules and the format that the library has for it. -/
def ofData (t : LocaleData.Tag) : Locale :=
  ⟨categoryBy (LocaleData.rules? t), textBy? (LocaleData.format? t)⟩

/-- The locale that a tag stands for in formatting. -/
def ofTag (tag : String) : Locale := ofData (resolve tag)

end

end Locale

end Phrasebook
