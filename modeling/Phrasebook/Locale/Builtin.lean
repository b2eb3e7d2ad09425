import Phrasebook.Locale.NumberFormat
import Phrasebook.Locale.Plural

/-!
# Built-in locale data

The library of locales that the program comes with. It knows the languages of its tables and
takes all others for the root locale.
-/

namespace Phrasebook.Builtin

scoped instance localeData : LocaleData where
  Tag := LocaleTag
  read? := LocaleTag.read?
  spell := LocaleTag.toText
  english := .english
  rules? t := some fun d => (PluralRules.ofTag t).category (.ofDecimal d)
  format? t := some (NumberFormat.ofTag t).format

end Phrasebook.Builtin
