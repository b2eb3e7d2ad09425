import Phrasebook.Resource

/-!
# What occurs in a pattern

Selections hold patterns, which hold selections again. Listed here are all patterns inside
a pattern, a message or a resource, and all inline expressions that they show or select by,
whether they would be rendered or not.

## Main definitions

* `Pattern.patterns`: a pattern and the patterns of its variants, at every depth.
* `Pattern.inlines`: the inline expressions in all of these.
* `Resource.patterns`: the patterns anywhere in a resource.
-/

namespace Phrasebook

mutual

/-- The values of all variants in an expression, and the patterns inside these. -/
def Expression.patterns : Expression → List (List (Element Expression))
  | .inline _ => []
  | .select _ variants _ => variantsPatterns variants
termination_by structural e => e

def variantsPatterns : List (Variant (List (Element Expression))) →
    List (List (Element Expression))
  | [] => []
  | ⟨_, value⟩ :: variants => value :: (innerPatterns value ++ variantsPatterns variants)
termination_by structural variants => variants

def innerPatterns : List (Element Expression) → List (List (Element Expression))
  | [] => []
  | .text _ :: es => innerPatterns es
  | .placeable e :: es => e.patterns ++ innerPatterns es
termination_by structural es => es

end

/-- The inline expression that an element shows or selects by. -/
def Element.inline? : Element Expression → Option Inline
  | .text _ => none
  | .placeable (.inline i) => some i
  | .placeable (.select i _ _) => some i

namespace Pattern

/-- The pattern itself and all patterns inside it. -/
def patterns (p : Pattern) : List Pattern :=
  p :: innerPatterns p

def inlines (p : Pattern) : List Inline :=
  p.patterns.flatMap fun q => q.filterMap Element.inline?

theorem mem_innerPatterns {p q : Pattern} :
    q ∈ innerPatterns p ↔ ∃ e, .placeable e ∈ p ∧ q ∈ e.patterns := by
  induction p with
  | nil => simp [innerPatterns]
  | cons x p ih =>
    cases x with
    | text t => simp [innerPatterns, ih]
    | placeable e => simp [innerPatterns, ih]

theorem mem_variantsPatterns {variants : List (Variant Pattern)} {q : Pattern} :
    q ∈ variantsPatterns variants ↔ ∃ v ∈ variants, q ∈ v.value.patterns := by
  induction variants with
  | nil => simp [variantsPatterns]
  | cons v variants ih =>
    rw [variantsPatterns]
    simp [ih, patterns, or_assoc]

variable {x : Element Expression} {p q : Pattern} {i : Inline}

theorem mem_inlines : i ∈ p.inlines ↔ ∃ q ∈ p.patterns, ∃ x ∈ q, x.inline? = some i := by
  simp [inlines]

theorem mem_inlines_of_mem (hx : x ∈ p) (hi : x.inline? = some i) : i ∈ p.inlines :=
  mem_inlines.mpr ⟨p, .head _, x, hx, hi⟩

/-- A larger pattern has more inline expressions. -/
theorem inlines_subset (h : p ⊆ q) : p.inlines ⊆ q.inlines := by
  intro i hi
  obtain ⟨inner, hinner, x, hx, hshown⟩ := mem_inlines.mp hi
  rcases List.mem_cons.mp hinner with rfl | hinner
  · exact mem_inlines_of_mem (h hx) hshown
  · obtain ⟨e, he, hinner⟩ := mem_innerPatterns.mp hinner
    have hmem : inner ∈ innerPatterns q := mem_innerPatterns.mpr ⟨e, h he, hinner⟩
    exact mem_inlines.mpr ⟨inner, List.mem_cons_of_mem _ hmem, x, hx, hshown⟩

theorem mem_inlines_of_variant {selector : Inline} {variants : List (Variant Pattern)}
    {default : Nat} {v : Variant Pattern} (hv : v ∈ variants) (hi : i ∈ v.value.inlines)
    (hp : .placeable (.select selector variants default) ∈ p) : i ∈ p.inlines := by
  obtain ⟨q, hq, hi⟩ := mem_inlines.mp hi
  have hinner : q ∈ innerPatterns p :=
    mem_innerPatterns.mpr ⟨_, hp, mem_variantsPatterns.mpr ⟨v, hv, hq⟩⟩
  exact mem_inlines.mpr ⟨q, List.mem_cons_of_mem _ hinner, hi⟩

end Pattern

/-! ## Entries -/

/-- The patterns in the values of an entry and of its attributes. -/
def Entry.patterns : Entry → List Pattern
  | .message m => (m.value.toList ++ m.attributes.map Attribute.value).flatMap Pattern.patterns
  | .term t => (t.value :: t.attributes.map Attribute.value).flatMap Pattern.patterns
  | .comment _ => []
  | .junk _ => []

def Resource.patterns (r : Resource) : List Pattern :=
  r.body.flatMap Entry.patterns

end Phrasebook
