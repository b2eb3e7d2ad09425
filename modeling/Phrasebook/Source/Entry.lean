import Phrasebook.Source.Pattern

/-!
# Grammar of entries

Comments are tried before messages and terms, so that a comment can be attached to the
entry that follows it.
-/

namespace Phrasebook.Source

open Alphabet Phrasebook.Source.Parser

/-- An entry ends with its line or with the text. -/
def entryEnd : Parser Unit :=
  lineEndOrEnd.expecting "end of line"

def attributeLine : Parser Attribute := do
  lineEnd
  blank
  char '.'
  label "attribute" <| commit do
    let id ← identifier
    spaces
    char '='
    spaces
    let value ← pattern
    return ⟨id, value⟩

def message : Parser Message := do
  let id ← identifier
  spaces
  char '='
  spaces
  let value ← optional pattern
  let attributes ← attributeLine.many
  if value.isNone && attributes.isEmpty then
    fail.commit.label "message" |>.expecting "a value or at least one attribute"
  else
    entryEnd
    return Message.make id value attributes none

def term : Parser Term := do
  char '-'
  let id ← identifier
  spaces
  char '='
  spaces
  let value ← pattern.commit.label "term" |>.expecting "a value"
  let attributes ← attributeLine.many
  entryEnd
  return Term.make id value attributes none

/-! ## Comments -/

def dropCarriageReturn (line : List Char) : List Char :=
  if line.getLast? = some '\r' then line.dropLast else line

/-- A marker, then a space and the text of the line, or nothing. -/
def commentLine (level : CommentLevel) : Parser String := do
  literal level.marker.toList
  let content ← optional do
    char ' '
    takeWhile (· != '\n')
  lineEndOrEnd
  return String.ofList (dropCarriageReturn (content.getD []))

def comment (level : CommentLevel) : Parser Comment := do
  let lines ← (commentLine level).many1
  return ⟨level, lines⟩

/-- A comment and the entry right behind it. If there is none, the comment stands alone. -/
def commented : Parser Entry := fun s =>
  match comment .entry s with
  | .failed e => .failed e
  | .done c rest =>
    match term rest with
    | .done t after => .done (.term { t with comment := some c }) after
    | .failed _ =>
      match message rest with
      | .done m after => .done (.message { m with comment := some c }) after
      | .failed _ => .done (.comment c) rest

def entry : Parser Entry :=
  (Entry.comment <$> comment .resource).or <|
    (Entry.comment <$> comment .group).or <|
      commented.or <| (Entry.term <$> term).or <| Entry.message <$> message

end Phrasebook.Source
