import Phrasebook.Keyed
import Phrasebook.Number.Literal
import Phrasebook.Position

/-!
# Resources of localizable text

A resource is a list of entries: messages and terms with their attributes, comments, and
the source text of malformed entries. The text of a message is a pattern, a row of plain
text and placeables; a placeable shows an inline expression or selects one of several
variants, which are patterns again.
-/

namespace Phrasebook

/-! ## Patterns -/

/-- The name of a message or term, or of one of its attributes. -/
structure Reference where
  id : String
  attr : Option String
deriving DecidableEq, Repr

namespace Reference

/-- How a message reference is written. -/
def toText (r : Reference) : String :=
  match r.attr with
  | some name => r.id ++ "." ++ name
  | none => r.id

/-- How a term reference is written. -/
def toTermText (r : Reference) : String :=
  "-" ++ r.toText

end Reference

/-- Expressions that stand for a piece of text and may serve as selectors. -/
inductive Inline where
  | text (value : String)
  | number (literal : NumberLiteral)
  | argument (name : String)
  | message (reference : Reference)
  | term (reference : Reference)
deriving DecidableEq, Repr

inductive VariantKey where
  | name (value : String)
  | number (literal : NumberLiteral)
deriving DecidableEq, Repr

/-- One branch of a selection. -/
structure Variant (π : Type) where
  key : VariantKey
  value : π
deriving Repr

inductive Element (ε : Type) where
  | text (value : String)
  | placeable (expression : ε)
deriving Repr

/-- What a placeable shows. A selection names its default variant by index. -/
inductive Expression where
  | inline (expression : Inline)
  | select (selector : Inline) (variants : List (Variant (List (Element Expression))))
      (default : Nat)

abbrev Pattern := List (Element Expression)

namespace Pattern

/-- A pattern of plain text, taken as it is. -/
def ofText (text : String) : Pattern :=
  if text.isEmpty then [] else [.text text]

/-- The text of a pattern that has nothing else. -/
def asText? : Pattern → Option String
  | [] => some ""
  | [.text text] => some text
  | _ => none

end Pattern

/-! ## Entries -/

structure Attribute where
  id : String
  value : Pattern

instance : Keyed Attribute := ⟨Attribute.id⟩

/-- What a comment describes: the entry behind it, a group of entries or the whole
resource. -/
inductive CommentLevel where
  | entry
  | group
  | resource
deriving DecidableEq, Repr

def CommentLevel.marker : CommentLevel → String
  | .entry => "#"
  | .group => "##"
  | .resource => "###"

structure Comment where
  level : CommentLevel
  lines : List String
deriving DecidableEq, Repr

def Comment.content (c : Comment) : String :=
  "\n".intercalate c.lines

/-- A message shows a value, attributes, or both. -/
structure Message where
  id : String
  value : Option Pattern
  attributes : List Attribute
  comment : Option Comment

/-- A term is an inner message for other entries to refer to. -/
structure Term where
  id : String
  value : Pattern
  attributes : List Attribute
  comment : Option Comment

instance : Keyed Message := ⟨Message.id⟩

instance : Keyed Term := ⟨Term.id⟩

/-- One attribute per id: the last value given, at the place of the first. -/
def Attribute.merge (attributes : List Attribute) : List Attribute :=
  Keyed.putAll attributes []

namespace Message

/-- A message whose repeated attributes are merged. -/
def make (id : String) (value : Option Pattern) (attributes : List Attribute)
    (comment : Option Comment) : Message :=
  ⟨id, value, Attribute.merge attributes, comment⟩

/-- The value of a message, or one of its attributes. -/
def pattern? (m : Message) : Option String → Option Pattern
  | some name => (Keyed.find? name m.attributes).map Attribute.value
  | none => m.value

end Message

namespace Term

/-- A term whose repeated attributes are merged. -/
def make (id : String) (value : Pattern) (attributes : List Attribute)
    (comment : Option Comment) : Term :=
  ⟨id, value, Attribute.merge attributes, comment⟩

/-- The value of a term, or one of its attributes. -/
def pattern? (t : Term) : Option String → Option Pattern
  | some name => (Keyed.find? name t.attributes).map Attribute.value
  | none => some t.value

end Term

/-- Why and where an entry could not be read. -/
structure Annotation where
  message : String
  position : Position
deriving DecidableEq, Repr

/-- The source text of a malformed entry. -/
structure Junk where
  content : String
  annotations : List Annotation
deriving DecidableEq, Repr

inductive Entry where
  | message (message : Message)
  | term (term : Term)
  | comment (comment : Comment)
  | junk (junk : Junk)

structure Resource where
  body : List Entry

namespace Resource

def messages (r : Resource) : List Message :=
  r.body.filterMap fun
    | .message m => some m
    | _ => none

def terms (r : Resource) : List Term :=
  r.body.filterMap fun
    | .term t => some t
    | _ => none

def junk (r : Resource) : List Junk :=
  r.body.filterMap fun
    | .junk j => some j
    | _ => none

end Resource

end Phrasebook
