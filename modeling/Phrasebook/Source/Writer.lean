import Phrasebook.Source.Document

/-!
# Writing resources

The plain way to write entries down: values on the line of their id, attributes and
variants on lines of their own, and a blank line behind every entry. Text is written as it
is, so a pattern can be read back if its text has no braces and no line breaks.
-/

namespace Phrasebook.Source

/-! ## Inline expressions -/

/-- A character inside a string literal. -/
def writeChar (c : Char) : List Char :=
  if c = '"' ∨ c = '\\' then ['\\', c]
  else if c = '\n' then ['\\', 'u', '0', '0', '0', 'A']
  else [c]

def writeText (text : String) : List Char :=
  '"' :: text.toList.flatMap writeChar ++ ['"']

def writeInline : Inline → List Char
  | .text value => writeText value
  | .number literal => literal.raw.toList
  | .argument name => '$' :: name.toList
  | .message r => r.toText.toList
  | .term r => r.toTermText.toList

/-! ## Patterns -/

def writeKey : VariantKey → List Char
  | .name value => '[' :: value.toList ++ [']']
  | .number literal => '[' :: literal.raw.toList ++ [']']

mutual

/-- What stands between the braces of a placeable. -/
def writeExpression : Expression → List Char
  | .inline e => writeInline e ++ [' ']
  | .select selector variants default =>
    writeInline selector ++ [' ', '-', '>'] ++ writeVariants variants default ++ ['\n']
termination_by structural e => e

/-- One line for each variant, with a star in front of the default. -/
def writeVariants : List (Variant (List (Element Expression))) → Nat → List Char
  | [], _ => []
  | ⟨key, value⟩ :: variants, 0 =>
    '\n' :: '*' :: writeKey key ++ ' ' :: writeElements value ++ writeOthers variants
  | ⟨key, value⟩ :: variants, default + 1 =>
    '\n' :: writeKey key ++ ' ' :: writeElements value ++ writeVariants variants default
termination_by structural variants => variants

/-- One line for each variant behind the default. -/
def writeOthers : List (Variant (List (Element Expression))) → List Char
  | [] => []
  | ⟨key, value⟩ :: variants =>
    '\n' :: writeKey key ++ ' ' :: writeElements value ++ writeOthers variants
termination_by structural variants => variants

def writeElements : List (Element Expression) → List Char
  | [] => []
  | .text t :: es => t.toList ++ writeElements es
  | .placeable e :: es => '{' :: ' ' :: writeExpression e ++ '}' :: writeElements es
termination_by structural es => es

end

/-! ## Entries -/

def writeAttribute (a : Attribute) : List Char :=
  "\n    .".toList ++ a.id.toList ++ " = ".toList ++ writeElements a.value

def writeComment (c : Comment) : List Char :=
  c.lines.flatMap fun line => c.level.marker.toList ++ ' ' :: line.toList ++ ['\n']

def writeAttached : Option Comment → List Char
  | some c => writeComment c
  | none => []

/-- A value behind its equals sign. -/
def writeValue : Option Pattern → List Char
  | some p => ' ' :: writeElements p
  | none => []

def writeMessage (m : Message) : List Char :=
  writeAttached m.comment ++ m.id.toList ++ " =".toList ++ writeValue m.value ++
    m.attributes.flatMap writeAttribute ++ ['\n']

def writeTerm (t : Term) : List Char :=
  writeAttached t.comment ++ '-' :: t.id.toList ++ " =".toList ++ writeValue t.value ++
    t.attributes.flatMap writeAttribute ++ ['\n']

/-- An entry without the blank line behind it. Junk is written as it was found. -/
def writeEntry : Entry → List Char
  | .message m => writeMessage m
  | .term t => writeTerm t
  | .comment c => writeComment c
  | .junk j => j.content.toList

end Phrasebook.Source

/-- Write a resource with a blank line behind every entry. -/
def Phrasebook.Resource.write (r : Phrasebook.Resource) : String :=
  String.ofList (r.body.flatMap fun e => Phrasebook.Source.writeEntry e ++ ['\n'])
