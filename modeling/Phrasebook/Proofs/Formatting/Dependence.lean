import Mathlib
import Phrasebook.Formatting.Scope
import Phrasebook.Locale.Builtin
import Phrasebook.Proofs.Resource.Occurrence

/-!
# What a rendering depends on

A pattern is rendered with the arguments that it mentions, and with those that are mentioned
where message references lead from it. No other argument has any influence on the text, on
the argument that is found missing, or on the faults. A term reference leads away from the
arguments: whatever the term mentions, and the messages that it refers to, is rendered
without them.

## Main definitions

* `Lookup.Reaches`: the patterns that message references lead to from a pattern.
* `Lookup.Needs`: the names of the arguments that a pattern may be rendered with.
-/

namespace Phrasebook

/-! ## Reach -/

/-- The pattern itself, and those that message references lead to. Term references are not
followed. -/
inductive Lookup.Reaches (lookup : Lookup) (p : Pattern) : Pattern → Prop
  | refl : Reaches lookup p p
  | message {q q' : Pattern} {r : Reference} : Reaches lookup p q → .message r ∈ q.inlines →
      lookup.messagePattern r = .ok q' → Reaches lookup p q'

/-- The argument is mentioned somewhere in reach. -/
def Lookup.Needs (lookup : Lookup) (p : Pattern) (name : String) : Prop :=
  ∃ q, lookup.Reaches p q ∧ .argument name ∈ q.inlines

variable {lookup : Lookup} {p q : Pattern} {r : Reference} {name : String}

theorem Lookup.Reaches.after {q' : Pattern} (hr : .message r ∈ p.inlines)
    (hq : lookup.messagePattern r = .ok q) (h : lookup.Reaches q q') : lookup.Reaches p q' := by
  induction h with
  | refl => exact .message .refl hr hq
  | message _ hmentions hpattern ih => exact .message ih hmentions hpattern

theorem Lookup.Needs.of_mentions (h : .argument name ∈ p.inlines) : lookup.Needs p name :=
  ⟨p, .refl, h⟩

theorem Lookup.Needs.of_message (hr : .message r ∈ p.inlines)
    (hq : lookup.messagePattern r = .ok q) (h : lookup.Needs q name) : lookup.Needs p name := by
  obtain ⟨q', hreach, hname⟩ := h
  exact ⟨q', .after hr hq hreach, hname⟩

/-! ## Two lists of arguments -/

/-- It makes no difference to an inline expression which of two lists of arguments is given. -/
def Inline.Indifferent (lookup : Lookup) (enter : Enter) (args args' : Arguments) : Inline → Prop
  | .argument name => args.get? name = args'.get? name
  | .message r =>
    ∀ q, lookup.messagePattern r = .ok q → enter r.toText q args = enter r.toText q args'
  | _ => True

section

variable {l : Locale} {enter : Enter} {args args' : Arguments} {i : Inline}

theorem Rendering.argument_congr (h : args.get? name = args'.get? name) :
    Rendering.argument args name = Rendering.argument args' name := by
  unfold Rendering.argument
  rw [h]

theorem Inline.Indifferent.render (h : i.Indifferent lookup enter args args') :
    i.render l lookup enter args = i.render l lookup enter args' := by
  cases i with
  | argument name =>
    simp only [Inline.render]
    rw [Rendering.argument_congr h]
  | message r =>
    simp only [Inline.render]
    split
    · next q hq => exact h q hq
    · rfl
  | _ => rfl

theorem Inline.Indifferent.select (h : i.Indifferent lookup enter args args') :
    i.select l lookup enter args = i.select l lookup enter args' := by
  cases i with
  | argument name =>
    simp only [Inline.select]
    rw [Rendering.argument_congr h]
  | message r =>
    simp only [Inline.select]
    rw [h.render]
  | _ => rfl

mutual

theorem Expression.render_congr : ∀ e : Expression,
    (∀ i ∈ Pattern.inlines [.placeable e], i.Indifferent lookup enter args args') →
      e.render l lookup enter args = e.render l lookup enter args'
  | .inline i, h => by
    rw [Expression.render, Expression.render]
    apply Inline.Indifferent.render
    exact h i (Pattern.mem_inlines_of_mem (.head _) rfl)
  | .select selector variants default, h => by
    have hselector : selector.Indifferent lookup enter args args' := by
      apply h selector
      exact Pattern.mem_inlines_of_mem (.head _) rfl
    rw [Expression.render, Expression.render, hselector.select]
    refine bind_congr fun value => renderVariant_congr variants _ ?_
    intro v hv i hi
    exact h i (Pattern.mem_inlines_of_variant hv hi (.head _))
termination_by structural e => e

theorem renderVariant_congr : ∀ (variants : List (Variant Pattern)) (index : Nat),
    (∀ v ∈ variants, ∀ i ∈ v.value.inlines, i.Indifferent lookup enter args args') →
      renderVariant l lookup enter args variants index =
        renderVariant l lookup enter args' variants index
  | [], _, _ => by rw [renderVariant, renderVariant]
  | ⟨key, value⟩ :: variants, 0, h => by
    rw [renderVariant, renderVariant]
    exact renderElements_congr value (h ⟨key, value⟩ (.head _))
  | _ :: variants, index + 1, h => by
    rw [renderVariant, renderVariant]
    exact renderVariant_congr variants index fun v hv => h v (.tail _ hv)
termination_by structural variants => variants

theorem renderElements_congr : ∀ p : List (Element Expression),
    (∀ i ∈ Pattern.inlines p, i.Indifferent lookup enter args args') →
      renderElements l lookup enter args p = renderElements l lookup enter args' p
  | [], _ => by rw [renderElements, renderElements]
  | .text t :: p, h => by
    have hp := renderElements_congr p fun i hi => h i (Pattern.inlines_subset (by simp) hi)
    rw [renderElements, renderElements, hp]
  | .placeable e :: p, h => by
    have he := Expression.render_congr e fun i hi => h i (Pattern.inlines_subset (by simp) hi)
    have hp := renderElements_congr p fun i hi => h i (Pattern.inlines_subset (by simp) hi)
    rw [renderElements, renderElements, he, hp]
termination_by structural p => p

end

end

/-! ## References -/

/-- Two lists of arguments have the same values for all that a pattern needs. -/
def Lookup.AgreeOn (lookup : Lookup) (p : Pattern) (args args' : Arguments) : Prop :=
  ∀ name, lookup.Needs p name → args.get? name = args'.get? name

variable {args args' : Arguments}

/-- What a pattern mentions makes no difference between lists that agree on it, if entering
makes none. -/
theorem Lookup.AgreeOn.indifferent {enter : Enter} (h : lookup.AgreeOn p args args')
    (henter : ∀ key q, lookup.AgreeOn q args args' → enter key q args = enter key q args')
    (i : Inline) (hi : i ∈ p.inlines) : i.Indifferent lookup enter args args' := by
  cases i with
  | argument name => exact h name (.of_mentions hi)
  | message r =>
    intro q hq
    apply henter
    intro name hname
    exact h name (.of_message hi hq hname)
  | _ => trivial

theorem enter_congr (l : Locale) (maxDepth levels : Nat) (key : String) (p : Pattern)
    (h : lookup.AgreeOn p args args') :
    enter l lookup maxDepth levels key p args = enter l lookup maxDepth levels key p args' := by
  induction levels generalizing key p with
  | zero => rfl
  | succ levels ih =>
    simp only [enter]
    refine bind_congr fun stack => ?_
    split
    · rfl
    · rw [renderElements_congr p (h.indifferent ih)]

/-- Where neither arguments nor messages are mentioned, no argument is needed: terms do not
count. -/
theorem Lookup.agreeOn_of_terms (hargument : ∀ name, .argument name ∉ p.inlines)
    (hmessage : ∀ r, .message r ∉ p.inlines) : lookup.AgreeOn p args args' := by
  have hself : ∀ q, lookup.Reaches p q → q = p := by
    intro q hreach
    induction hreach with
    | refl => rfl
    | message _ hr _ ih =>
      subst ih
      exact absurd hr (hmessage _)
  rintro name ⟨q, hreach, hname⟩
  rw [hself q hreach] at hname
  exact absurd hname (hargument name)

section

variable [LocaleData]

theorem Scope.format_congr (s : Scope) (h : s.lookup.AgreeOn p args args') :
    s.format p args = s.format p args' := by
  have henter : ∀ key q, s.lookup.AgreeOn q args args' → s.enter key q args = s.enter key q args' :=
    enter_congr (Locale.ofTag s.locale) s.maxDepth s.maxDepth
  rw [Scope.format, Scope.format, renderElements_congr p (h.indifferent henter)]

/-- Lists of arguments that agree on what a pattern needs give the same text or the same
missing argument, and leave the same report. A pattern that mentions neither arguments nor
messages, but any terms, gives them with all lists of arguments. -/
theorem Scope.format_of_agreeOn (s : Scope) (p : Pattern) (args args' : Arguments) :
    (s.lookup.AgreeOn p args args' → s.format p args = s.format p args') ∧
      ((∀ name, .argument name ∉ p.inlines) → (∀ r, .message r ∉ p.inlines) →
        s.format p args = s.format p args') :=
  ⟨s.format_congr, fun hargument hmessage =>
    s.format_congr (Lookup.agreeOn_of_terms hargument hmessage)⟩

end

/-- A greeting with an argument, and a term that refers to a message with another one. -/
def imprint : Lookup where
  message id :=
    if id = "greeting" then some (.make id (some [.placeable (.inline (.argument "who"))]) [] none)
    else if id = "about" then
      some (.make id (some [.placeable (.inline (.argument "secret"))]) [] none)
    else none
  term id :=
    if id = "brand" then
      some (.make id [.placeable (.inline (.message ⟨"about", none⟩))] [] none)
    else none

open Builtin

/-- Only the argument of the greeting is needed. The other one is missing to the term even
if it is given, also when the term stands alone. -/
theorem Scope.format_of_agreeOn_imprint :
    let brand : Pattern := [.placeable (.inline (.term ⟨"brand", none⟩))]
    let p : Pattern := .placeable (.inline (.message ⟨"greeting", none⟩)) :: brand
    let args : Arguments := [⟨"who", .text "Ann"⟩]
    let args' : Arguments := [⟨"who", .text "Ann"⟩, ⟨"secret", .text "x"⟩]
    let s : Scope := { locale := "en", lookup := imprint }
    imprint.AgreeOn p args args' ∧ s.format p args = s.format p args' ∧
      s.format brand args = s.format brand args' ∧
      (s.format brand args').1 = .error ⟨"secret"⟩ := by
  intro brand p args args' s
  have hp : p.inlines = [.message ⟨"greeting", none⟩, .term ⟨"brand", none⟩] := rfl
  have hgreeting : Pattern.inlines [.placeable (.inline (.argument "who"))] = [.argument "who"] :=
    rfl
  have hbrand : brand.inlines = [.term ⟨"brand", none⟩] := rfl
  have hreach : ∀ q, imprint.Reaches p q →
      q = p ∨ q = [.placeable (.inline (.argument "who"))] := by
    intro q h
    induction h with
    | refl => exact .inl rfl
    | @message q q' r _ hr hq ih =>
      rcases ih with rfl | rfl
      · obtain rfl : r = ⟨"greeting", none⟩ := by simpa [hp] using hr
        exact .inr (Except.ok.inj hq).symm
      · simp [hgreeting] at hr
  have hagree : imprint.AgreeOn p args args' := by
    rintro name ⟨q, h, hname⟩
    rcases hreach q h with rfl | rfl
    · simp [hp] at hname
    · obtain rfl : name = "who" := by simpa [hgreeting] using hname
      rfl
  refine ⟨hagree, (Scope.format_of_agreeOn s p args args').1 hagree, ?_, by cbv⟩
  apply (Scope.format_of_agreeOn s brand args args').2
  · simp [hbrand]
  · simp [hbrand]

end Phrasebook
