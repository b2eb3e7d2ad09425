import Mathlib
import Phrasebook.Proofs.Formatting.Adequacy

/-!
# The order of variants

A selector is compared with the keys of the variants in several rounds: a number by its value
first and then by its plural category, a text by its name only. Each round takes the first key
that matches. If no two keys can be matched in the same round, there is only one to take, and
the order of the variants has no influence on which variant is chosen, wherever the selection
stands.

## Main definitions

* `VariantKey.Distinct`: two keys that no selector matches in the same round.
* `Pattern.Reordered`: the variants of one selection in a pattern are in another order.
-/

namespace Phrasebook

/-! ## Distinct keys -/

/-- Two different names, or two numbers of different value; a name is always different from a
number. -/
def VariantKey.Distinct : VariantKey → VariantKey → Prop
  | .name a, .name b => a ≠ b
  | .number m, .number n => m.value.sameValue n.value = false
  | _, _ => True

/-- Values that equal a third one are equal, "not a number" included. -/
theorem Binary.sameValue_of_sameValue {x y z : Binary} (hx : x.sameValue z = true)
    (hy : y.sameValue z = true) : x.sameValue y = true := by
  cases z with
  | nan => cases x <;> simp [sameValue] at hx
  | infinite s => cases x <;> cases y <;> simp_all [sameValue]
  | finite s m e =>
    cases x <;> cases y <;> simp_all only [sameValue, Bool.or_eq_true, Bool.and_eq_true, beq_iff_eq]
    all_goals grind

namespace VariantKey.Distinct

variable {k k' : VariantKey} (h : k.Distinct k')
include h

theorem isName (name : String) : ¬ (k.isName name = true ∧ k'.isName name = true) := by
  rintro ⟨hk, hk'⟩
  cases k <;> cases k' <;> simp_all [VariantKey.isName, VariantKey.Distinct]

theorem isNumber (x : Binary) : ¬ (k.isNumber x = true ∧ k'.isNumber x = true) := by
  rintro ⟨hk, hk'⟩
  cases k with
  | name a => simp [VariantKey.isNumber] at hk
  | number m =>
    cases k' with
    | name a => simp [VariantKey.isNumber] at hk'
    | number n =>
      have hsame : m.value.sameValue n.value = true := Binary.sameValue_of_sameValue hk hk'
      simp [VariantKey.Distinct, hsame] at h

end VariantKey.Distinct

/-! ## The matching variant -/

section Find

variable {α : Type} {p : α → Bool} {xs ys : List α}

theorem getElem?_findIdx?_or (xs : List α) (p : α → Bool) (other : Option Nat) (default : Nat) :
    xs[((xs.findIdx? p).or other).getD default]? = (xs.find? p).or xs[other.getD default]? := by
  cases h : xs.findIdx? p with
  | none =>
    have hnone : xs.find? p = none := by simpa [List.findIdx?_eq_none_iff] using h
    simp [hnone]
  | some i =>
    obtain ⟨hi, hp, hbefore⟩ := List.findIdx?_eq_some_iff_getElem.mp h
    have hfind : xs.find? p = some xs[i] :=
      List.find?_eq_some_iff_getElem.mpr ⟨hp, i, hi, rfl, by simpa using hbefore⟩
    simp [hfind, hi]

/-- Where at most one element fits, every order leads to it. -/
theorem find?_eq_of_perm (hperm : xs.Perm ys)
    (hone : xs.Pairwise fun x y => ¬ (p x = true ∧ p y = true)) : xs.find? p = ys.find? p := by
  cases hx : xs.find? p with
  | none =>
    have hys : ∀ y ∈ ys, ¬ p y = true := fun y hy =>
      List.find?_eq_none.mp hx y (hperm.mem_iff.mpr hy)
    exact (List.find?_eq_none.mpr hys).symm
  | some x =>
    have hxs : x ∈ xs := List.mem_of_find?_eq_some hx
    have hpx : p x = true := List.find?_some hx
    obtain ⟨y, hy⟩ : ∃ y, ys.find? p = some y :=
      Option.isSome_iff_exists.mp (List.find?_isSome.mpr ⟨x, hperm.mem_iff.mp hxs, hpx⟩)
    have hys : y ∈ xs := hperm.mem_iff.mpr (List.mem_of_find?_eq_some hy)
    have hpy : p y = true := List.find?_some hy
    have hsymm : Std.Symm fun x y => ¬ (p x = true ∧ p y = true) := ⟨fun _ _ h hyx => h hyx.symm⟩
    have hxy : x = y := by
      by_contra hne
      exact hone.forall hxs hys hne ⟨hpx, hpy⟩
    rw [hy, hxy]

end Find

section Matching

variable {l : Locale} {variants variants' : List (Variant Pattern)} {default default' : Nat}

/-- The variant with the key that a selector matches. -/
def SelectorValue.match? (l : Locale) (variants : List (Variant Pattern)) :
    SelectorValue → Option (Variant Pattern)
  | .text value => variants.find? (·.key.isName value)
  | .number x decimal =>
    let category := match decimal with
      | some d => l.pluralCategory d
      | none => .other
    (variants.find? (·.key.isNumber x)).or (variants.find? (·.key.isName category.name))

theorem SelectorValue.getElem?_choose? (value : SelectorValue) (default : Nat) :
    variants[(value.choose? l (variants.map Variant.key)).getD default]? =
      (value.match? l variants).or variants[default]? := by
  cases value with
  | text t =>
    rw [choose?, match?, List.findIdx?_map, ← Option.or_none (o := List.findIdx? _ _)]
    exact getElem?_findIdx?_or variants _ none default
  | number x decimal =>
    simp only [choose?, match?, List.findIdx?_map, Option.or_assoc]
    rw [getElem?_findIdx?_or, ← Option.or_none (o := List.findIdx? _ _)]
    rw [getElem?_findIdx?_or]
    rfl

theorem SelectorValue.match?_eq_of_perm (hperm : variants.Perm variants')
    (hkeys : (variants.map Variant.key).Pairwise VariantKey.Distinct) (value : SelectorValue) :
    value.match? l variants = value.match? l variants' := by
  have hvariants := List.pairwise_map.mp hkeys
  have hname : ∀ name, variants.find? (·.key.isName name) = variants'.find? (·.key.isName name) :=
    fun name => find?_eq_of_perm hperm (hvariants.imp fun h => h.isName name)
  have hnumber : ∀ x, variants.find? (·.key.isNumber x) = variants'.find? (·.key.isNumber x) :=
    fun x => find?_eq_of_perm hperm (hvariants.imp fun h => h.isNumber x)
  cases value with
  | text t => exact hname t
  | number x decimal => simp only [match?, hname, hnumber]

/-- The default variant is the same one, and so is the one that is chosen. -/
theorem SelectorValue.chosen_eq_of_perm (hperm : variants.Perm variants')
    (hkeys : (variants.map Variant.key).Pairwise VariantKey.Distinct)
    (hdefault : variants'[default']? = variants[default]?) (value : SelectorValue) :
    value.chosen l variants default = value.chosen l variants' default' := by
  simp only [chosen, variantAt, getElem?_choose?, hdefault, match?_eq_of_perm hperm hkeys]

end Matching

/-! ## Reordered patterns -/

/-- The variants of a selection with distinct keys are permuted, and the index of the default
moves along. The selection is the expression itself or stands inside one of its variants. -/
inductive Expression.Reordered : Expression → Expression → Prop
  | variants {selector : Inline} {variants variants' : List (Variant Pattern)}
      {default default' : Nat} :
      (variants.map Variant.key).Pairwise VariantKey.Distinct → variants.Perm variants' →
      variants'[default']? = variants[default]? →
      Reordered (.select selector variants default) (.select selector variants' default')
  | inside {selector : Inline} {before after : List (Variant Pattern)} {key : VariantKey}
      {front back : Pattern} {default : Nat} {e e' : Expression} :
      Reordered e e' →
      Reordered
        (.select selector (before ++ ⟨key, front ++ .placeable e :: back⟩ :: after) default)
        (.select selector (before ++ ⟨key, front ++ .placeable e' :: back⟩ :: after) default)

/-- One selection somewhere in a pattern has its variants in another order. -/
inductive Pattern.Reordered : Pattern → Pattern → Prop
  | mk {front back : Pattern} {e e' : Expression} : e.Reordered e' →
      Reordered (front ++ .placeable e :: back) (front ++ .placeable e' :: back)

section Rendering

variable {l : Locale} {lookup : Lookup} {enter : Enter} {args : Arguments}

theorem renderElements_replace {e e' : Expression}
    (h : e.render l lookup enter args = e'.render l lookup enter args) (front back : Pattern) :
    renderElements l lookup enter args (front ++ .placeable e :: back) =
      renderElements l lookup enter args (front ++ .placeable e' :: back) := by
  induction front with
  | nil => simp only [List.nil_append, renderElements, h]
  | cons x front ih =>
    cases x with
    | text t => simp only [List.cons_append, renderElements, ih]
    | placeable _ => simp only [List.cons_append, renderElements, ih]

theorem variantAt_replace {p q : Pattern} (h : renderElements l lookup enter args p =
      renderElements l lookup enter args q)
    (before after : List (Variant Pattern)) (key : VariantKey) (index : Nat) :
    renderElements l lookup enter args (variantAt (before ++ ⟨key, p⟩ :: after) index) =
      renderElements l lookup enter args (variantAt (before ++ ⟨key, q⟩ :: after) index) := by
  induction before generalizing index with
  | nil =>
    cases index with
    | zero => simpa [variantAt] using h
    | succ index => rfl
  | cons v before ih =>
    cases index with
    | zero => rfl
    | succ index => simpa [variantAt] using ih index

/-- By induction on where the selection stands. -/
theorem Expression.Reordered.render {e e' : Expression} (h : e.Reordered e') :
    e.render l lookup enter args = e'.render l lookup enter args := by
  induction h with
  | variants hkeys hperm hdefault =>
    simp only [Expression.render, renderVariant_eq]
    refine bind_congr fun value => ?_
    exact congrArg _ (value.chosen_eq_of_perm hperm hkeys hdefault)
  | @inside selector before after key front back default e e' _ ih =>
    simp only [Expression.render, renderVariant_eq, List.map_append, List.map_cons]
    exact bind_congr fun value => variantAt_replace (renderElements_replace ih front back) _ _ _ _

theorem Pattern.Reordered.renderElements {p q : Pattern} (h : p.Reordered q) :
    Phrasebook.renderElements l lookup enter args p =
      Phrasebook.renderElements l lookup enter args q := by
  obtain ⟨h⟩ := h
  exact renderElements_replace h.render _ _

end Rendering

/-- Patterns that differ in the order of the variants of any number of selections, all with
distinct keys, are formatted alike: with the same text or the same missing argument, and with the
same report. -/
theorem Scope.format_reordered [LocaleData] (s : Scope) {p q : Pattern} (args : Arguments)
    (h : Relation.ReflTransGen Pattern.Reordered p q) : s.format p args = s.format q args := by
  induction h with
  | refl => rfl
  | tail _ hstep ih => rw [ih, Scope.format, Scope.format, hstep.renderElements]

open Builtin

/-- Letters by their number, in two orders and inside another selection. The integer is matched
by a key of its value and by its plural category, the text by a name. -/
theorem Scope.format_reordered_letters :
    let one : Variant Pattern := ⟨.name "one", [.text "one letter"]⟩
    let exact : Variant Pattern := ⟨.number ⟨"1.0"⟩, [.text "exactly one"]⟩
    let other : Variant Pattern := ⟨.name "other", [.placeable (.inline (.argument "n"))]⟩
    let outer (e : Expression) : Pattern :=
      [.text "You have ", .placeable (.select (.text "x") [⟨.name "x", [.placeable e]⟩] 0)]
    let p := outer (.select (.argument "n") [one, exact, other] 2)
    let q := outer (.select (.argument "n") [other, one, exact] 0)
    let s : Scope := { locale := "en", lookup := ⟨fun _ => none, fun _ => none⟩ }
    p.Reordered q ∧ s.format p [⟨"n", .integer 1⟩] = s.format q [⟨"n", .integer 1⟩] ∧
      s.format p [⟨"n", .text "one"⟩] = s.format q [⟨"n", .text "one"⟩] ∧
      (s.format q [⟨"n", .text "one"⟩]).1 = .ok "You have one letter" := by
  intro one exact other outer p q s
  have hkeys : ([one, exact, other].map Variant.key).Pairwise VariantKey.Distinct := by
    simp [one, exact, other, VariantKey.Distinct]
  have hperm : [one, exact, other].Perm [other, one, exact] :=
    show ([one, exact] ++ [other]).Perm ([other] ++ [one, exact]) from List.perm_append_comm
  have hselect : Expression.Reordered (.select (.argument "n") [one, exact, other] 2)
      (.select (.argument "n") [other, one, exact] 0) := .variants hkeys hperm rfl
  have hstep : p.Reordered q :=
    show Pattern.Reordered ([.text "You have "] ++ .placeable
        (.select (.text "x") ([] ++ ⟨.name "x", [] ++ .placeable _ :: []⟩ :: []) 0) :: []) _
      from .mk (.inside hselect)
  refine ⟨hstep, ?_, ?_, by cbv⟩
  · exact Scope.format_reordered s _ (.single hstep)
  · exact Scope.format_reordered s _ (.single hstep)

end Phrasebook
