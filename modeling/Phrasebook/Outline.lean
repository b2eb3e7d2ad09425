import Phrasebook.Resource
import Phrasebook.Tree

/-!
# Outlines of resources

The tree that shows how a resource was read. Every node is a record with a `type`, and
fields are in alphabetical order. Literals are shown with their escapes resolved, and the
notes on malformed entries are left out.
-/

namespace Phrasebook

def outlineName (name : String) : Tree :=
  .record [("name", .text name), ("type", .text "Identifier")]

def NumberLiteral.outline (n : NumberLiteral) : Tree :=
  .record [("type", .text "NumberLiteral"), ("value", .text n.raw)]

def Inline.outline : Inline → Tree
  | .text value => .record [("type", .text "StringLiteral"), ("value", .text value)]
  | .number literal => literal.outline
  | .argument name => .record [("id", outlineName name), ("type", .text "VariableReference")]
  | .message r =>
    .record [("attribute", .ofOption outlineName r.attr), ("id", outlineName r.id),
      ("type", .text "MessageReference")]
  | .term r =>
    .record [("arguments", .null), ("attribute", .ofOption outlineName r.attr),
      ("id", outlineName r.id), ("type", .text "TermReference")]

def VariantKey.outline : VariantKey → Tree
  | .name value => outlineName value
  | .number literal => literal.outline

def outlinePattern (elements : List Tree) : Tree :=
  .record [("elements", .list elements), ("type", .text "Pattern")]

mutual

def Expression.outline : Expression → Tree
  | .inline e => e.outline
  | .select selector variants default =>
    .record [("selector", selector.outline), ("type", .text "SelectExpression"),
      ("variants", .list (outlineVariants default 0 variants))]

/-- The variants from an index on; the one at the index of the default is marked. -/
def outlineVariants (default : Nat) :
    Nat → List (Variant (List (Element Expression))) → List Tree
  | _, [] => []
  | index, ⟨key, value⟩ :: variants =>
    .record [("default", .bool (index == default)), ("key", key.outline),
      ("type", .text "Variant"), ("value", outlinePattern (outlineElements value))]
      :: outlineVariants default (index + 1) variants

def outlineElements : List (Element Expression) → List Tree
  | [] => []
  | .text value :: es =>
    .record [("type", .text "TextElement"), ("value", .text value)] :: outlineElements es
  | .placeable e :: es =>
    .record [("expression", e.outline), ("type", .text "Placeable")] :: outlineElements es

end

def Pattern.outline (p : Pattern) : Tree :=
  outlinePattern (outlineElements p)

def Attribute.outline (a : Attribute) : Tree :=
  .record [("id", outlineName a.id), ("type", .text "Attribute"), ("value", a.value.outline)]

def Comment.outline (c : Comment) : Tree :=
  let type := match c.level with
    | .entry => "Comment"
    | .group => "GroupComment"
    | .resource => "ResourceComment"
  .record [("content", .text c.content), ("type", .text type)]

def Message.outline (m : Message) : Tree :=
  .record [("attributes", .list (m.attributes.map Attribute.outline)),
    ("comment", .ofOption Comment.outline m.comment), ("id", outlineName m.id),
    ("type", .text "Message"), ("value", .ofOption Pattern.outline m.value)]

def Term.outline (t : Term) : Tree :=
  .record [("attributes", .list (t.attributes.map Attribute.outline)),
    ("comment", .ofOption Comment.outline t.comment), ("id", outlineName t.id),
    ("type", .text "Term"), ("value", t.value.outline)]

def Junk.outline (j : Junk) : Tree :=
  .record [("annotations", .list []), ("content", .text j.content), ("type", .text "Junk")]

def Entry.outline : Entry → Tree
  | .message m => m.outline
  | .term t => t.outline
  | .comment c => c.outline
  | .junk j => j.outline

def Resource.outline (r : Resource) : Tree :=
  .record [("body", .list (r.body.map Entry.outline)), ("type", .text "Resource")]

end Phrasebook
