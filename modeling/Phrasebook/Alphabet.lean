/-!
# Character classes of the resource grammar
-/

namespace Phrasebook.Alphabet

/-- Characters of running text: everything but braces and the line feed. -/
def isText (c : Char) : Bool :=
  c != '{' && c != '}' && c != '\n'

/-- Text that may open a continuation line. A bracket, a star or a dot in this place
starts a variant, a default variant or an attribute instead. -/
def isLineOpening (c : Char) : Bool :=
  isText c && c != '[' && c != '*' && c != '.'

/-- The space is the only blank inside a line; a tab is text. -/
def isBlank (c : Char) : Bool :=
  c == ' '

def isLetter (c : Char) : Bool :=
  ('a' ≤ c && c ≤ 'z') || ('A' ≤ c && c ≤ 'Z')

def isDigit (c : Char) : Bool :=
  '0' ≤ c && c ≤ '9'

def isHexDigit (c : Char) : Bool :=
  isDigit c || ('a' ≤ c && c ≤ 'f') || ('A' ≤ c && c ≤ 'F')

def isNameStart (c : Char) : Bool :=
  isLetter c || c == '_'

def isNamePart (c : Char) : Bool :=
  isLetter c || isDigit c || c == '_' || c == '-'

/-- A line that opens with such a character may start a new entry, so recovery from a
malformed entry stops in front of it. -/
def isEntryOpening (c : Char) : Bool :=
  c == '#' || c == '-' || isLetter c

end Phrasebook.Alphabet
