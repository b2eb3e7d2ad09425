import Phrasebook.Layout
import Phrasebook.Source.Lexeme

/-!
# Grammar of patterns and placeables

Alternatives are tried in a fixed order, because a line break may continue a pattern or
end it and a minus may open a number or a term. Placeables and selections contain each
other. Every parser on that cycle takes the parser for the placeables inside it, and
`placeable` ties the knot by counting how many levels are left.
-/

namespace Phrasebook.Source

open Alphabet Phrasebook.Source.Parser

/-! ## Inline expressions -/

def reference : Parser Reference := do
  let id ← identifier
  let attr ← optional do
    char '.'
    identifier
  return ⟨id, attr⟩

def argumentName : Parser String := do
  char '$'
  identifier.commit.label "variable name"

def inline : Parser Inline :=
  (Inline.text <$> stringLiteral).or <|
    (Inline.number <$> numberLiteral).or <|
      (Inline.message <$> reference).or <|
        (do char '-'; Inline.term <$> reference).or <|
          Inline.argument <$> argumentName

/-! ## Patterns -/

def inlineText : Parser Pattern := do
  let cs ← takeWhile1 isText
  return [.text (String.ofList cs)]

/-- A continuation line. The line breaks and the indentation in front of it stay in the
text, for the layout to be worked out later. -/
def blockText : Parser Pattern := do
  let lines ← blankBlock
  let indent ← takeWhile1 isBlank
  let c ← satisfy isLineOpening
  let cs ← takeWhile isText
  return [.text (String.ofList (lines ++ indent ++ c :: cs))]

/-- A placeable at the start of a continuation line. -/
def blockPlaceable (inner : Parser Expression) : Parser Pattern := do
  let lines ← blankBlock
  let indent ← takeWhile isBlank
  let e ← inner
  return [.text (String.ofList (lines ++ indent)), .placeable e]

def inlinePlaceable (inner : Parser Expression) : Parser Pattern := do
  let e ← inner
  return [.placeable e]

def patternPart (inner : Parser Expression) : Parser Pattern :=
  blockText.or <| (blockPlaceable inner).or <| (inlinePlaceable inner).or inlineText

def patternOf (inner : Parser Expression) : Parser Pattern := do
  let parts ← (patternPart inner).many1
  return Pattern.layout parts.flatten

/-! ## Selections -/

def variantKey : Parser VariantKey := do
  char '['
  label "variant key" <| commit do
    blank
    let key ← (VariantKey.number <$> numberLiteral).or (VariantKey.name <$> identifier)
    blank
    char ']'
    return key

/-- A variant on a line of its own, and whether it is the default. -/
def variant (inner : Parser Expression) : Parser (Bool × Variant Pattern) := do
  lineEnd
  blank
  let star ← optional (char '*')
  let key ← variantKey
  spaces
  let value ← (patternOf inner).commit.label "variant value"
  return (star.isSome, ⟨key, value⟩)

def oneDefault (variants : List (Bool × Variant Pattern)) : Bool :=
  variants.countP (·.1) == 1

def selection (inner : Parser Expression) : Parser Expression := do
  let selector ← inline
  blank
  literal ['-', '>']
  spaces
  let variants ← ((variant inner).many.verify oneDefault).commit
    |>.label "variant list" |>.expecting "exactly one default variant"
  lineEnd.commit.expecting "line break after the last variant"
  return .select selector (variants.map (·.2)) (variants.findIdx (·.1))

/-! ## Placeables -/

/-- Placeables may be nested so deep inside one pattern. -/
def maxNesting : Nat := 32

/-- The content of a placeable; a placeable directly inside another one is the same. -/
def expression (inner : Parser Expression) : Parser Expression :=
  (selection inner).or <| (Expression.inline <$> inline).or inner

/-- A placeable with so many levels left for it and the placeables inside it. -/
def placeable : Nat → Parser Expression
  | 0 => do
    char '{'
    fail.commit.label "placeable" |>.expecting "less deeply nested placeables"
  | levels + 1 => do
    char '{'
    let body : Parser Expression := do
      blank
      let e ← expression (placeable levels)
      blank
      char '}'
      return e
    body.commit.label "placeable" |>.expectingChar '}'

def pattern : Parser Pattern :=
  patternOf (placeable maxNesting)

end Phrasebook.Source
