import Phrasebook.Formatting.Scope
import Phrasebook.Proofs.Resource.Occurrence

/-!
# Properties of all renderings

Renderings are composed of a few steps: a result, an argument, a look at the stack, a text in
the place of a fault, and a key that is being resolved. A property that all of these steps have,
and that is kept where one follows another, is a property of whatever is rendered.

A property that not all arguments and references have is still one of a pattern, if it is kept
where one step follows another and those that occur in the pattern have it.

## Main definitions

* `Lookup.Founded`: the faults that there may be with a lookup.
* `Rendering.Compositional`: a property that composition keeps.
* `Inline.Admits`: what is asked of an inline expression for such a property.
* `Rendering.Closed`: a property that every step has and that composition keeps.
-/

namespace Phrasebook

/-- The faults that there is a reason for: the lookup has no pattern for some reference,
references are nested, or a number cannot be shown. -/
inductive Lookup.Founded (lookup : Lookup) : Fault → Prop
  | message {r : Reference} {fault : Fault} : lookup.messagePattern r = .error fault →
      Founded lookup fault
  | term {r : Reference} {fault : Fault} : lookup.termPattern r = .error fault →
      Founded lookup fault
  | cycle (chain : List String) : Founded lookup (.cycle chain)
  | tooDeep : Founded lookup .tooDeep
  | unformattable (number : String) : Founded lookup (.unformattable number)

theorem Lookup.founded_refusal (lookup : Lookup) {maxDepth : Nat} {stack : List String}
    {key : String} {fault : Fault} (h : refusal? maxDepth stack key = some fault) :
    lookup.Founded fault := by
  unfold refusal? at h
  split at h
  · cases h
    exact .cycle _
  · split at h
    · cases h
      exact .tooDeep
    · cases h

namespace Rendering

theorem bind_apply {α β : Type} (x : Rendering α) (f : α → Rendering β) (t : Trace) :
    (x >>= f) t = match x t with
      | (.ok a, t) => f a t
      | (.error e, t) => (.error e, t) := rfl

/-- Results and dead ends have the property `C`, and what is composed of renderings with that
property has it. -/
structure Compositional (lookup : Lookup) (C : ∀ {α : Type}, Rendering α → Prop) : Prop where
  pure : ∀ {α : Type} (a : α), C (pure a : Rendering α)
  bind : ∀ {α β : Type} {x : Rendering α} {f : α → Rendering β},
    C x → (∀ a, C (f a)) → C (x >>= f)
  unformattable : ∀ number text, C (faulty (.unformattable number) text)
  noMessage : ∀ {r fault}, lookup.messagePattern r = .error fault → C (placeholder fault r.toText)
  noTerm : ∀ {r fault}, lookup.termPattern r = .error fault → C (placeholder fault r.toTermText)

end Rendering

/-- An argument has the property, or the pattern that a reference leads to is entered with it. -/
def Inline.Admits (C : ∀ {α : Type}, Rendering α → Prop) (lookup : Lookup) (enter : Enter)
    (args : Arguments) : Inline → Prop
  | .argument name => C (Rendering.argument args name)
  | .message r => ∀ q, lookup.messagePattern r = .ok q → C (enter r.toText q args)
  | .term r => ∀ q, lookup.termPattern r = .ok q → C (enter r.toTermText q [])
  | _ => True

namespace Rendering

namespace Compositional

variable {lookup : Lookup} {C : ∀ {α : Type}, Rendering α → Prop} (hC : Compositional lookup C)
include hC

/-! ## Inline expressions and selectors -/

theorem literal (l : Locale) (n : NumberLiteral) : C (n.render l) := by
  unfold NumberLiteral.render
  split
  · exact hC.pure _
  · exact hC.unformattable _ _

theorem value (l : Locale) (v : Value) : C (v.render l) := by
  unfold Value.render
  split
  · exact hC.pure _
  · split
    · exact hC.pure _
    · exact hC.unformattable _ _

variable {l : Locale} {enter : Enter} {args : Arguments}

theorem inline {i : Inline} (h : i.Admits C lookup enter args) :
    C (i.render l lookup enter args) := by
  cases i with
  | text value => exact hC.pure value
  | number literal => exact hC.literal l literal
  | argument name => exact hC.bind h fun v => hC.value l v
  | message r =>
    simp only [Inline.render]
    split
    · next q hq => exact h q hq
    · next fault hfault => exact hC.noMessage hfault
  | term r =>
    simp only [Inline.render]
    split
    · next q hq => exact h q hq
    · next fault hfault => exact hC.noTerm hfault

theorem select {i : Inline} (h : i.Admits C lookup enter args) :
    C (i.select l lookup enter args) := by
  cases i with
  | text value => exact hC.pure _
  | number literal => exact hC.pure _
  | argument name =>
    refine hC.bind h fun v => ?_
    cases v <;> exact hC.pure _
  | message r => exact hC.bind (hC.inline h) fun text => hC.pure _
  | term r => exact hC.bind (hC.inline h) fun text => hC.pure _

/-! ## Patterns -/

mutual

theorem expression : ∀ e : Expression,
    (∀ i ∈ Pattern.inlines [.placeable e], i.Admits C lookup enter args) →
      C (e.render l lookup enter args)
  | .inline i, h => by
    rw [Expression.render]
    apply hC.inline
    exact h i (Pattern.mem_inlines_of_mem (.head _) rfl)
  | .select selector variants default, h => by
    rw [Expression.render]
    have hselector : selector.Admits C lookup enter args := by
      apply h selector
      exact Pattern.mem_inlines_of_mem (.head _) rfl
    refine hC.bind (hC.select hselector) fun value => variant variants _ ?_
    intro v hv i hi
    exact h i (Pattern.mem_inlines_of_variant hv hi (.head _))
termination_by structural e => e

theorem variant : ∀ (variants : List (Variant Pattern)) (index : Nat),
    (∀ v ∈ variants, ∀ i ∈ v.value.inlines, i.Admits C lookup enter args) →
      C (renderVariant l lookup enter args variants index)
  | [], _, _ => by
    rw [renderVariant]
    exact hC.pure ""
  | ⟨key, value⟩ :: variants, 0, h => by
    rw [renderVariant]
    exact elements value (h ⟨key, value⟩ (.head _))
  | _ :: variants, index + 1, h => by
    rw [renderVariant]
    exact variant variants index fun v hv => h v (.tail _ hv)
termination_by structural variants => variants

theorem elements : ∀ p : List (Element Expression),
    (∀ i ∈ Pattern.inlines p, i.Admits C lookup enter args) →
      C (renderElements l lookup enter args p)
  | [], _ => by
    rw [renderElements]
    exact hC.pure ""
  | .text t :: p, h => by
    rw [renderElements]
    have hp := elements p fun i hi => h i (Pattern.inlines_subset (by simp) hi)
    exact hC.bind hp fun rest => hC.pure _
  | .placeable e :: p, h => by
    rw [renderElements]
    have he := expression e fun i hi => h i (Pattern.inlines_subset (by simp) hi)
    have hp := elements p fun i hi => h i (Pattern.inlines_subset (by simp) hi)
    exact hC.bind he fun first => hC.bind hp fun rest => hC.pure _
termination_by structural p => p

end

end Compositional

/-! ## Properties of every step -/

/-- The steps of a rendering with the lookup have the property `C`, and what is composed of
renderings with that property has it. -/
structure Closed (lookup : Lookup) (C : ∀ {α : Type}, Rendering α → Prop) : Prop where
  pure : ∀ {α : Type} (a : α), C (pure a : Rendering α)
  bind : ∀ {α β : Type} {x : Rendering α} {f : α → Rendering β},
    C x → (∀ a, C (f a)) → C (x >>= f)
  argument : ∀ args name, C (argument args name)
  stack : C Rendering.stack
  faulty : ∀ {fault} (text), lookup.Founded fault → C (faulty fault text)
  within : ∀ {α : Type} {x : Rendering α} (key), C x → C (x.within key)

namespace Closed

variable {lookup : Lookup} {C : ∀ {α : Type}, Rendering α → Prop} (hC : Closed lookup C)
include hC

theorem compositional : Compositional lookup C where
  pure := hC.pure
  bind := hC.bind
  unformattable number text := hC.faulty text (.unformattable number)
  noMessage h := hC.faulty _ (.message h)
  noTerm h := hC.faulty _ (.term h)

theorem admits {enter : Enter} (henter : ∀ key p args, C (enter key p args)) (args : Arguments)
    (i : Inline) : i.Admits C lookup enter args := by
  cases i with
  | argument name => exact hC.argument args name
  | message r => exact fun q _ => henter _ q args
  | term r => exact fun q _ => henter _ q []
  | _ => trivial

theorem literal (l : Locale) (n : NumberLiteral) : C (n.render l) :=
  hC.compositional.literal l n

theorem value (l : Locale) (v : Value) : C (v.render l) :=
  hC.compositional.value l v

section

variable {l : Locale} {enter : Enter} {args : Arguments}
  (henter : ∀ key p args, C (enter key p args))
include henter

theorem inline (e : Inline) : C (e.render l lookup enter args) :=
  hC.compositional.inline (hC.admits henter args e)

theorem select (e : Inline) : C (e.select l lookup enter args) :=
  hC.compositional.select (hC.admits henter args e)

theorem expression (e : Expression) : C (e.render l lookup enter args) :=
  hC.compositional.expression e fun i _ => hC.admits henter args i

theorem variant (variants : List (Variant Pattern)) (index : Nat) :
    C (renderVariant l lookup enter args variants index) :=
  hC.compositional.variant variants index fun _ _ i _ => hC.admits henter args i

theorem elements (p : Pattern) : C (renderElements l lookup enter args p) :=
  hC.compositional.elements p fun i _ => hC.admits henter args i

end

/-- By induction on the levels that are left, entering a reference has the property, too. -/
theorem enter (l : Locale) (maxDepth levels : Nat) (key : String) (p : Pattern)
    (args : Arguments) : C (Phrasebook.enter l lookup maxDepth levels key p args) := by
  induction levels generalizing key p args with
  | zero =>
    refine hC.bind hC.stack fun stack => hC.faulty _ ?_
    cases h : refusal? maxDepth stack key with
    | none => exact .tooDeep
    | some fault => exact lookup.founded_refusal h
  | succ levels ih =>
    refine hC.bind hC.stack fun stack => ?_
    split
    · next fault h => exact hC.faulty _ (lookup.founded_refusal h)
    · exact hC.within key (hC.elements ih p)

end Closed

end Rendering

end Phrasebook
