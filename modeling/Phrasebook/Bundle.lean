import Phrasebook.Formatting.Scope
import Phrasebook.Source.Document

/-!
# Bundles

The messages and terms of one locale, one for each id. A later definition replaces an
earlier one; what was replaced or could not be read is told in warnings.
-/

namespace Phrasebook

/-- What went wrong with an entry, while loading went on. -/
inductive Warning where
  | junk (locale : String) (position : Position) (message content : String)
  | duplicateMessage (locale id : String)
  | duplicateTerm (locale id : String)
deriving DecidableEq, Repr

def Warning.message : Warning → String
  | .junk locale position message _ =>
    locale ++ ":" ++ position.toText ++ ": skipped malformed entry: " ++ message
  | .duplicateMessage locale id =>
    locale ++ ": duplicate message '" ++ id ++ "', later definition wins"
  | .duplicateTerm locale id =>
    locale ++ ": duplicate term '-" ++ id ++ "', later definition wins"

structure Bundle where
  locale : String
  messages : List Message := []
  terms : List Term := []

namespace Bundle

instance : Keyed Bundle := ⟨Bundle.locale⟩

def message? (b : Bundle) (id : String) : Option Message :=
  Keyed.find? id b.messages

def term? (b : Bundle) (id : String) : Option Term :=
  Keyed.find? id b.terms

def addMessage (b : Bundle) (m : Message) : Bundle :=
  { b with messages := Keyed.put m b.messages }

def addTerm (b : Bundle) (t : Term) : Bundle :=
  { b with terms := Keyed.put t b.terms }

def hasMessage (b : Bundle) (id : String) : Bool :=
  (b.message? id).isSome

/-- The ids of all messages in alphabetical order. -/
def messageIds (b : Bundle) : List String :=
  (b.messages.map Message.id).mergeSort fun a b => a ≤ b

/-- The number of messages. -/
def size (b : Bundle) : Nat := b.messages.length

def isEmpty (b : Bundle) : Bool := b.messages.isEmpty && b.terms.isEmpty

/-! ## Loading -/

/-- What is to be said about a malformed entry. -/
def junkWarning (locale : String) (j : Junk) : Warning :=
  match j.annotations with
  | note :: _ => .junk locale note.position note.message j.content
  | [] => .junk locale ⟨0, 0⟩ "malformed entry" j.content

/-- Add an entry. Comments are not kept. -/
def addEntry (b : Bundle) : Entry → Bundle × List Warning
  | .message m =>
    (b.addMessage m, if b.hasMessage m.id then [.duplicateMessage b.locale m.id] else [])
  | .term t =>
    (b.addTerm t, if (b.term? t.id).isSome then [.duplicateTerm b.locale t.id] else [])
  | .junk j => (b, [junkWarning b.locale j])
  | .comment _ => (b, [])

def addEntries (b : Bundle) : List Entry → Bundle × List Warning
  | [] => (b, [])
  | e :: es =>
    let (b, first) := b.addEntry e
    let (b, rest) := b.addEntries es
    (b, first ++ rest)

/-- Add the entries of a resource; the warnings are in the order of the entries. -/
def addResource (b : Bundle) (r : Resource) : Bundle × List Warning :=
  b.addEntries r.body

/-! ## Formatting -/

def lookup (b : Bundle) : Lookup := ⟨b.message?, b.term?⟩

/-- The pattern of a message or of one of its attributes. -/
def pattern? (b : Bundle) (r : Reference) : Option Pattern := do
  (← b.message? r.id).pattern? r.attr

variable [LocaleData]

def formatPattern (b : Bundle) (p : Pattern) (args : Arguments) :
    Except MissingArgument Formatted :=
  p.format b.locale b.lookup args

/-- Format a message or an attribute by the text of a reference to it. The answer is
`none` if the text is no reference or leads nowhere. -/
def formatMessage (b : Bundle) (id : String) (args : Arguments) :
    Except MissingArgument (Option String) :=
  match Reference.parse id with
  | .error _ => .ok none
  | .ok r =>
    match b.pattern? r with
    | none => .ok none
    | some p =>
      let scope : Scope := { locale := b.locale, lookup := b.lookup }
      (scope.formatEntry r.toText p args).1.map some

end Bundle

end Phrasebook
