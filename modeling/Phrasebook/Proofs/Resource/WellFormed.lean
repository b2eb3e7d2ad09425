import Phrasebook.Alphabet
import Phrasebook.Resource
import Phrasebook.Source.Pattern

/-!
# Well-formed resources

What a resource has to satisfy beyond its type. Conditions on patterns come in two kinds.
Those on names, numbers and default variants are the same everywhere. Those on the text of
one pattern are a parameter, because the patterns that reading gives and the patterns that
can be written down plainly differ in them.

## Main definitions

* `Expression.Valid`, `Pattern.Valid`: a condition holds of every pattern at every depth.
* `Expression.depth`: how deep expressions are nested.
* `Pattern.Tidy`: the text that reading leaves in a pattern.
* `Pattern.Plain`: the text that can be written as it is.
* `Resource.WellFormed`, `Resource.Plain`: the conditions on all entries.
-/

namespace Phrasebook

open Alphabet

/-! ## Names and numbers -/

/-- `[A-Za-z_][A-Za-z0-9_-]*` -/
def IsName (name : String) : Prop :=
  ∃ c cs, name.toList = c :: cs ∧ isNameStart c = true ∧ ∀ d ∈ cs, isNamePart d = true

def IsDigits (cs : List Char) : Prop :=
  cs ≠ [] ∧ ∀ c ∈ cs, isDigit c = true

/-- `-?[0-9]+(\.[0-9]+)?` -/
def NumberLiteral.WellFormed (n : NumberLiteral) : Prop :=
  ∃ sign whole fraction, n.raw.toList = sign ++ (whole ++ fraction) ∧
    (sign = [] ∨ sign = ['-']) ∧ IsDigits whole ∧
    (fraction = [] ∨ ∃ digits, fraction = '.' :: digits ∧ IsDigits digits)

def Reference.WellFormed (r : Reference) : Prop :=
  IsName r.id ∧ ∀ name, r.attr = some name → IsName name

def Inline.WellFormed : Inline → Prop
  | .text _ => True
  | .number literal => literal.WellFormed
  | .argument name => IsName name
  | .message reference => reference.WellFormed
  | .term reference => reference.WellFormed

def VariantKey.WellFormed : VariantKey → Prop
  | .name value => IsName value
  | .number literal => literal.WellFormed

/-! ## Expressions -/

/-- An expression with well-formed names and numbers in which every selection has its
default among its variants and the value of every variant satisfies `P`. -/
inductive Expression.Valid (P : Pattern → Prop) : Expression → Prop
  | inline {e : Inline} : e.WellFormed → Valid P (.inline e)
  | select {selector : Inline} {variants : List (Variant Pattern)} {default : Nat} :
      selector.WellFormed → default < variants.length →
      (∀ v ∈ variants, v.key.WellFormed ∧ P v.value) →
      (∀ v ∈ variants, ∀ e, .placeable e ∈ v.value → Valid P e) →
      Valid P (.select selector variants default)

/-- A pattern that satisfies `P`, and so does every pattern inside it. -/
def Pattern.Valid (P : Pattern → Prop) (p : Pattern) : Prop :=
  P p ∧ ∀ e, .placeable e ∈ p → e.Valid P

mutual

/-- How deep selections are nested, where an inline expression counts as `leaf`. -/
def Expression.depth (leaf : Nat) : Expression → Nat
  | .inline _ => leaf
  | .select _ variants _ => variantsDepth leaf variants + 1
termination_by structural e => e

def variantsDepth (leaf : Nat) : List (Variant (List (Element Expression))) → Nat
  | [] => 0
  | ⟨_, value⟩ :: variants => max (elementsDepth leaf value) (variantsDepth leaf variants)
termination_by structural variants => variants

def elementsDepth (leaf : Nat) : List (Element Expression) → Nat
  | [] => 0
  | .text _ :: es => elementsDepth leaf es
  | .placeable e :: es => max (e.depth leaf) (elementsDepth leaf es)
termination_by structural es => es

end

/-- How deep selections are nested in a pattern. -/
def Pattern.selectDepth (p : Pattern) : Nat := elementsDepth 0 p

/-- How deep placeables are nested in a pattern. -/
def Pattern.placeableDepth (p : Pattern) : Nat := elementsDepth 1 p

theorem elementsDepth_le_iff {leaf n : Nat} {p : Pattern} :
    elementsDepth leaf p ≤ n ↔ ∀ e, .placeable e ∈ p → e.depth leaf ≤ n := by
  induction p with
  | nil => simp [elementsDepth]
  | cons x p ih =>
    cases x with
    | text t => simp [elementsDepth, ih]
    | placeable e =>
      rw [elementsDepth, Nat.max_le, ih]
      simp

theorem variantsDepth_le_iff {leaf n : Nat} {variants : List (Variant Pattern)} :
    variantsDepth leaf variants ≤ n ↔ ∀ v ∈ variants, elementsDepth leaf v.value ≤ n := by
  induction variants with
  | nil => simp [variantsDepth]
  | cons v variants ih =>
    rw [variantsDepth, Nat.max_le, ih]
    simp

/-- Of several placeables the deepest counts. -/
theorem elementsDepth_eq {leaf : Nat} {p : Pattern} {e : Expression} (he : .placeable e ∈ p)
    (h : ∀ x, .placeable x ∈ p → x.depth leaf ≤ e.depth leaf) :
    elementsDepth leaf p = e.depth leaf :=
  Nat.le_antisymm (elementsDepth_le_iff.mpr h) (elementsDepth_le_iff.mp (Nat.le_refl _) e he)

theorem variantsDepth_eq {leaf : Nat} {variants : List (Variant Pattern)} {v : Variant Pattern}
    (hv : v ∈ variants)
    (h : ∀ w ∈ variants, elementsDepth leaf w.value ≤ elementsDepth leaf v.value) :
    variantsDepth leaf variants = elementsDepth leaf v.value :=
  Nat.le_antisymm (variantsDepth_le_iff.mpr h) (variantsDepth_le_iff.mp (Nat.le_refl _) v hv)

theorem elementsDepth_eq_zero {leaf : Nat} {p : Pattern} (h : ∀ e, .placeable e ∉ p) :
    elementsDepth leaf p = 0 :=
  Nat.le_zero.mp (elementsDepth_le_iff.mpr fun e he => absurd he (h e))

mutual

theorem Expression.depth_mono {m n : Nat} (h : m ≤ n) : ∀ e : Expression, e.depth m ≤ e.depth n
  | .inline _ => h
  | .select _ variants _ => Nat.succ_le_succ (variantsDepth_mono h variants)

theorem variantsDepth_mono {m n : Nat} (h : m ≤ n) :
    ∀ variants, variantsDepth m variants ≤ variantsDepth n variants
  | [] => Nat.le_refl 0
  | ⟨_, value⟩ :: variants => by
    have hvalue := elementsDepth_mono h value
    have hvariants := variantsDepth_mono h variants
    simp only [variantsDepth]
    omega

theorem elementsDepth_mono {m n : Nat} (h : m ≤ n) :
    ∀ es, elementsDepth m es ≤ elementsDepth n es
  | [] => Nat.le_refl 0
  | .text _ :: es => elementsDepth_mono h es
  | .placeable e :: es => by
    have he := e.depth_mono h
    have hes := elementsDepth_mono h es
    simp only [elementsDepth]
    omega

end

/-- A selection stands in a placeable of its own. -/
theorem Pattern.selectDepth_le_placeableDepth (p : Pattern) : p.selectDepth ≤ p.placeableDepth :=
  elementsDepth_mono (Nat.zero_le 1) p

/-! ## Texts of a pattern -/

/-- Neighbouring texts are merged and no text is empty. -/
structure Pattern.Merged (p : Pattern) : Prop where
  apart : ∀ front s t back, p ≠ front ++ .text s :: .text t :: back
  nonempty : ∀ t, .text t ∈ p → t ≠ ""

/-- Spaces up to a line feed. -/
def StartsBlank (cs : List Char) : Prop :=
  ∃ n rest, cs = List.replicate n ' ' ++ '\n' :: rest

/-- What reading makes of a pattern: merged texts without braces, no blank line at the
start, and no blanks or line ends at the end. -/
structure Pattern.Tidy (p : Pattern) : Prop extends Merged p where
  braces : ∀ t, .text t ∈ p → ∀ c ∈ t.toList, c ≠ '{' ∧ c ≠ '}'
  start : ∀ t, p.head? = some (.text t) → ¬ StartsBlank t.toList
  finish : ∀ t, p.getLast? = some (.text t) →
    ∀ c, t.toList.getLast? = some c → c ≠ ' ' ∧ c ≠ '\r' ∧ c ≠ '\n'

/-- A pattern on one line that can be written as it is. -/
structure Pattern.Plain (p : Pattern) : Prop extends Merged p where
  ne_nil : p ≠ []
  chars : ∀ t, .text t ∈ p → ∀ c ∈ t.toList, c ≠ '{' ∧ c ≠ '}' ∧ c ≠ '\n' ∧ c ≠ '\r'
  start : ∀ t, p.head? = some (.text t) → t.toList.head? ≠ some ' '
  finish : ∀ t, p.getLast? = some (.text t) → t.toList.getLast? ≠ some ' '

/-! ## Entries -/

section Entries

variable (P : Pattern → Prop) (L : String → Prop)

structure Comment.Valid (c : Comment) : Prop where
  ne_nil : c.lines ≠ []
  lines : ∀ line ∈ c.lines, L line

/-- A comment in front of a message or a term. -/
def AttachedValid (comment : Option Comment) : Prop :=
  ∀ c, comment = some c → c.level = .entry ∧ c.Valid L

structure AttributesValid (attributes : List Attribute) : Prop where
  name : ∀ a ∈ attributes, IsName a.id
  value : ∀ a ∈ attributes, P a.value
  distinct : (attributes.map Attribute.id).Nodup

structure Message.Valid (m : Message) : Prop where
  name : IsName m.id
  content : m.value ≠ none ∨ m.attributes ≠ []
  value : ∀ p, m.value = some p → P p
  attributes : AttributesValid P m.attributes
  comment : AttachedValid L m.comment

structure Term.Valid (t : Term) : Prop where
  name : IsName t.id
  value : P t.value
  attributes : AttributesValid P t.attributes
  comment : AttachedValid L t.comment

/-- An entry whose patterns satisfy `P` and whose lines of comments satisfy `L`. -/
def Entry.Valid : Entry → Prop
  | .message m => m.Valid P L
  | .term t => t.Valid P L
  | .comment c => c.Valid L
  | .junk _ => True

variable {P L}

theorem AttributesValid.mono {P' : Pattern → Prop} {attributes : List Attribute}
    (h : AttributesValid P attributes) (hP : ∀ p, P p → P' p) : AttributesValid P' attributes :=
  ⟨h.name, fun a ha => hP _ (h.value a ha), h.distinct⟩

theorem Entry.Valid.mono {P' : Pattern → Prop} {e : Entry} (h : e.Valid P L)
    (hP : ∀ p, P p → P' p) : e.Valid P' L := by
  cases e with
  | message m =>
    exact ⟨h.name, h.content, fun p hp => hP p (h.value p hp), h.attributes.mono hP, h.comment⟩
  | term t => exact ⟨h.name, hP _ h.value, h.attributes.mono hP, h.comment⟩
  | comment c => exact h
  | junk j => trivial

end Entries

/-- What every resource that was read satisfies. -/
def Resource.WellFormed (r : Resource) : Prop :=
  ∀ e ∈ r.body, e.Valid (fun p => p.Valid Pattern.Tidy ∧ p.selectDepth ≤ Source.maxNesting)
    fun line => '\n' ∉ line.toList

/-- A resource without junk that can be written plainly, with patterns nested as `depth`
allows. -/
def Resource.Plain (depth : Pattern → Nat) (r : Resource) : Prop :=
  ∀ e ∈ r.body, (∀ j, e ≠ .junk j) ∧
    e.Valid (fun p => p.Valid Pattern.Plain ∧ depth p ≤ Source.maxNesting)
      fun line => '\n' ∉ line.toList ∧ line.toList.getLast? ≠ some '\r'

end Phrasebook
