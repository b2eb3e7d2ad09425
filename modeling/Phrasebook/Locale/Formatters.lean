import Phrasebook.Cache
import Phrasebook.Locale.Data

/-!
# Formatters at hand

The plural rules and number formats of the locales used last are kept, so that they are not
looked up again for every number. That there are none for a locale is kept, too.
-/

namespace Phrasebook

variable [LocaleData]

open LocaleData (Tag rules? format?)

structure Formatters where
  plurals : Cache Tag (Option (Decimal → PluralCategory)) := {}
  numbers : Cache Tag (Option (Decimal → String)) := {}

namespace Formatters

def pluralCategory (f : Formatters) (t : Tag) (d : Decimal) : PluralCategory × Formatters :=
  let (rules, plurals) := f.plurals.fetch rules? t
  (Locale.categoryBy rules d, { f with plurals })

def formatNumber? (f : Formatters) (t : Tag) (d : Decimal) : Option String × Formatters :=
  let (format, numbers) := f.numbers.fetch format? t
  (Locale.textBy? format d, { f with numbers })

end Formatters

end Phrasebook
