import Phrasebook.Formatting.Fault
import Phrasebook.Formatting.Value
import Phrasebook.Locale.Data
import Phrasebook.Resource

/-!
# Rendering of patterns

A pattern is rendered by recursion on its structure, given a way to enter the patterns
that it refers to. A trace goes along: the references that are being resolved and the
faults so far. Entering is guarded by it: a reference that is being resolved already, or
one beyond the depth limit, is replaced by a placeholder. So rendering ends whatever refers
to whatever.
-/

namespace Phrasebook

/-- Where references lead. -/
structure Lookup where
  message : String → Option Message
  term : String → Option Term

namespace Lookup

/-- The pattern that a message reference names. -/
def messagePattern (lookup : Lookup) (r : Reference) : Except Fault Pattern :=
  match lookup.message r.id with
  | none => .error (.unknownMessage r.id)
  | some m =>
    match m.pattern? r.attr, r.attr with
    | some p, _ => .ok p
    | none, some name => .error (.unknownAttribute r.id name)
    | none, none => .error (.noValue r.id)

/-- The pattern that a term reference names. -/
def termPattern (lookup : Lookup) (r : Reference) : Except Fault Pattern :=
  match lookup.term r.id with
  | none => .error (.unknownTerm r.id)
  | some t =>
    match t.pattern? r.attr with
    | some p => .ok p
    | none => .error (.unknownAttribute ("-" ++ r.id) (r.attr.getD ""))

end Lookup

/-- What is remembered along the way: the keys of the references that are being resolved,
the outermost first, and the faults that occurred. -/
structure Trace where
  stack : List String := []
  report : List Fault := []
deriving DecidableEq, Repr

/-- A step of rendering changes the trace and has a result, unless an argument is missing. -/
def Rendering (α : Type) : Type := Trace → Except MissingArgument α × Trace

namespace Rendering

variable {α β : Type}

protected def pure (a : α) : Rendering α := fun t => (.ok a, t)

/-- Go on with a result. After a missing argument nothing more is rendered. -/
protected def bind (x : Rendering α) (f : α → Rendering β) : Rendering β := fun t =>
  match x t with
  | (.ok a, t) => f a t
  | (.error e, t) => (.error e, t)

instance : Monad Rendering where
  pure := Rendering.pure
  bind := Rendering.bind

/-- A text that replaces what could not be rendered. -/
def faulty (fault : Fault) (text : String) : Rendering String := fun t =>
  (.ok text, { t with report := Fault.record t.report fault })

/-- A reference that could not be followed, in braces. -/
def placeholder (fault : Fault) (key : String) : Rendering String :=
  faulty fault ("\x7b" ++ key ++ "\x7d")

def argument (args : Arguments) (name : String) : Rendering Value :=
  match args.get? name with
  | some v => pure v
  | none => fun t => (.error ⟨name⟩, t)

/-- The keys that are being resolved. -/
def stack : Rendering (List String) := fun t => (.ok t.stack, t)

/-- Render something while a key is being resolved. The key is taken off again when an
argument is missing, too. -/
def within (key : String) (x : Rendering α) : Rendering α := fun t =>
  let (result, t) := x { t with stack := t.stack ++ [key] }
  (result, { t with stack := t.stack.dropLast })

end Rendering

/-! ## Inline expressions -/

/-- A literal with its fraction digits as written. If it is no decimal or the locale has no
text for it, its own text stands there. -/
def NumberLiteral.render (l : Locale) (n : NumberLiteral) : Rendering String :=
  match n.toDecimal?.bind l.formatNumber? with
  | some out => pure out
  | none => .faulty (.unformattable n.raw) n.normalized

def Value.render (l : Locale) (v : Value) : Rendering String :=
  match v with
  | .text t => pure t
  | _ =>
    match v.toDecimal?.bind l.formatNumber? with
    | some out => pure out
    | none => .faulty (.unformattable v.toText) v.toText

/-- How to render the pattern that a reference leads to: under a key, with arguments. -/
abbrev Enter := String → Pattern → Arguments → Rendering String

/-- Terms never see the arguments of the caller. -/
def Inline.render (l : Locale) (lookup : Lookup) (enter : Enter) (args : Arguments) :
    Inline → Rendering String
  | .text value => pure value
  | .number literal => literal.render l
  | .argument name => do (← Rendering.argument args name).render l
  | .message r =>
    match lookup.messagePattern r with
    | .ok p => enter r.toText p args
    | .error fault => .placeholder fault r.toText
  | .term r =>
    match lookup.termPattern r with
    | .ok p => enter r.toTermText p []
    | .error fault => .placeholder fault r.toTermText

/-! ## Selection -/

/-- What a selector is compared by: a text, or a number with its written form. -/
inductive SelectorValue where
  | text (value : String)
  | number (value : Binary) (decimal : Option Decimal)

def VariantKey.isName (name : String) : VariantKey → Bool
  | .name value => value == name
  | .number _ => false

def VariantKey.isNumber (x : Binary) : VariantKey → Bool
  | .name _ => false
  | .number literal => literal.value.sameValue x

/-- The index of the key that a selector matches. A number matches a key of the same value
first, then the name of its plural category. -/
def SelectorValue.choose? (l : Locale) (keys : List VariantKey) : SelectorValue → Option Nat
  | .text value => keys.findIdx? (·.isName value)
  | .number x decimal =>
    let category := match decimal with
      | some d => l.pluralCategory d
      | none => .other
    (keys.findIdx? (·.isNumber x)).or (keys.findIdx? (·.isName category.name))

def Inline.select (l : Locale) (lookup : Lookup) (enter : Enter) (args : Arguments) :
    Inline → Rendering SelectorValue
  | .text value => pure (.text value)
  | .number literal => pure (.number literal.value literal.toDecimal?)
  | .argument name => do
    match ← Rendering.argument args name with
    | .text value => return .text value
    | .integer n => return .number (.ofInt n) (some (.ofInt n))
    | .float x => return .number x x.toDecimal?
  | e => do return .text (← e.render l lookup enter args)

/-! ## Patterns -/

section

variable (l : Locale) (lookup : Lookup) (enter : Enter) (args : Arguments)

mutual

def Expression.render : Expression → Rendering String
  | .inline e => e.render l lookup enter args
  | .select selector variants default => do
    let value ← selector.select l lookup enter args
    renderVariant variants ((value.choose? l (variants.map Variant.key)).getD default)
termination_by structural e => e

/-- The variant with an index; nothing if there is none. -/
def renderVariant : List (Variant (List (Element Expression))) → Nat → Rendering String
  | [], _ => pure ""
  | ⟨_, value⟩ :: _, 0 => renderElements value
  | _ :: variants, index + 1 => renderVariant variants index
termination_by structural variants => variants

def renderElements : List (Element Expression) → Rendering String
  | [] => pure ""
  | .text t :: es => do return t ++ (← renderElements es)
  | .placeable e :: es => do
    let first ← e.render
    let rest ← renderElements es
    return first ++ rest
termination_by structural es => es

end

end

/-! ## References -/

/-- Why a reference may not be entered: it is being resolved already, or as many references
are as may be nested. -/
def refusal? (maxDepth : Nat) (stack : List String) (key : String) : Option Fault :=
  if key ∈ stack then some (.cycle (stack ++ [key]))
  else if maxDepth ≤ stack.length then some .tooDeep
  else none

/-- Render the pattern that a reference leads to, if the stack allows it. The number of
levels bounds the recursion; the depth limit is reached before it. -/
def enter (l : Locale) (lookup : Lookup) (maxDepth : Nat) : Nat → Enter
  | 0, key, _, _ => do
    let stack ← Rendering.stack
    .placeholder ((refusal? maxDepth stack key).getD .tooDeep) key
  | levels + 1, key, p, args => do
    let stack ← Rendering.stack
    match refusal? maxDepth stack key with
    | some fault => .placeholder fault key
    | none => (renderElements l lookup (enter l lookup maxDepth levels) args p).within key

end Phrasebook
