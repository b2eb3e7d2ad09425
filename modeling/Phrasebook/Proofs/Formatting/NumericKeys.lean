import Mathlib
import Phrasebook.Formatting.Scope
import Phrasebook.Proofs.Formatting.Stepwise
import Phrasebook.Proofs.Number.Written

/-!
# Numeric keys

An integer that selects a variant is compared with the numeric keys as doubles. So it matches the
first key that is rounded to the same double, and this is the first key that is equal to it unless
another number comes in between. Where integer and keys together have few digits there is none.

## Main definitions

* `VariantKey.Near`: the key is rounded to the same double as an integer.
* `VariantKey.Equals`: the key is the integer, however it is written.
* `ExactChoice`: a numeric key is chosen if and only if it is the first one equal to the integer.
-/

namespace Phrasebook

/-! ## Keys and integers -/

namespace VariantKey

variable {n : ℤ} {key : VariantKey}

/-- The key is a number that is rounded to the same double as the integer. -/
def Near (n : ℤ) : VariantKey → Prop
  | .name _ => False
  | .number literal => ∃ x, literal.rational? = some x ∧ SameDouble x n

/-- The key is the integer, however it is written. -/
def Equals (n : ℤ) : VariantKey → Prop
  | .name _ => False
  | .number literal => literal.rational? = some (n : ℚ)

/-- A numeric key has so many digits behind the point at most. -/
def HasPlaces (places : ℕ) : VariantKey → Prop
  | .name _ => True
  | .number literal => ∀ x, literal.rational? = some x → Phrasebook.HasPlaces places x

theorem isNumber_ofInt (hn : Value.inRange n = true) (key : VariantKey) :
    key.isNumber (.ofInt n) = true ↔ key.Near n := by
  cases key with
  | name value => simp [isNumber, Near]
  | number literal => exact literal.sameValue_ofInt hn

theorem Near.exists_literal (h : key.Near n) : ∃ literal, key = .number literal := by
  cases key with
  | name value => cases h
  | number literal => exact ⟨literal, rfl⟩

theorem Equals.near (hn : Value.inRange n = true) (h : key.Equals n) : key.Near n := by
  have hint := Binary.ofInt_nearest hn
  cases key with
  | name value => cases h
  | number literal => exact ⟨n, h, _, _, hint, hint, rfl⟩

theorem Near.equals {places : ℕ} (hplaces : places ≤ 15) (hn : n.natAbs * 10 ^ places < 2 ^ 53)
    (hkey : key.HasPlaces places) (h : key.Near n) : key.Equals n := by
  cases key with
  | name value => cases h
  | number literal =>
    obtain ⟨x, hx, hsame⟩ := h
    obtain rfl := hsame.eq hplaces hn (hkey x hx)
    exact hx

end VariantKey

/-! ## The first key -/

/-- The first key of a kind stands at an index. -/
structure IsFirst (p : VariantKey → Prop) (keys : List VariantKey) (i : ℕ) : Prop where
  holds : ∃ key, keys[i]? = some key ∧ p key
  before : ∀ j < i, ∀ key, keys[j]? = some key → ¬ p key

section First

variable {p q : VariantKey → Prop} {keys : List VariantKey} {i j : ℕ}

theorem IsFirst.unique (hi : IsFirst p keys i) (hj : IsFirst p keys j) : i = j := by
  obtain ⟨key, hkey, hp⟩ := hi.holds
  obtain ⟨key', hkey', hp'⟩ := hj.holds
  rcases lt_trichotomy i j with hlt | heq | hgt
  · exact absurd hp (hj.before i hlt key hkey)
  · exact heq
  · exact absurd hp' (hi.before j hgt key' hkey')

/-- If all keys of one kind are of another, so is the first one, before which there is none of
either kind. -/
theorem IsFirst.of_imp (h : IsFirst p keys i) (hkey : ∀ key ∈ keys, p key → q key)
    (hback : ∀ key, q key → p key) : IsFirst q keys i := by
  obtain ⟨key, hget, hp⟩ := h.holds
  refine ⟨⟨key, hget, hkey key (List.mem_of_getElem? hget) hp⟩, fun j hj key' hget' hq => ?_⟩
  exact h.before j hj key' hget' (hback key' hq)

theorem findIdx?_eq_some_iff_isFirst {b : VariantKey → Bool} (hb : ∀ key, b key = true ↔ p key) :
    keys.findIdx? b = some i ↔ IsFirst p keys i := by
  rw [List.findIdx?_eq_some_iff_getElem]
  constructor
  · rintro ⟨hi, hholds, hbefore⟩
    refine ⟨⟨keys[i], by simp, (hb _).mp hholds⟩, fun j hj key hget hp => ?_⟩
    obtain ⟨hj', rfl⟩ := List.getElem?_eq_some_iff.mp hget
    exact hbefore j hj ((hb _).mpr hp)
  · rintro ⟨⟨key, hget, hp⟩, hbefore⟩
    obtain ⟨hi, rfl⟩ := List.getElem?_eq_some_iff.mp hget
    exact ⟨hi, (hb _).mpr hp, fun j hj hbj =>
      hbefore j hj _ (List.getElem?_eq_getElem (by omega)) ((hb _).mp hbj)⟩

end First

/-! ## The choice -/

section Choice

variable {l : Locale} {n : ℤ} {keys : List VariantKey}

/-- A numeric key that is chosen is equal to the integer, and the first key that is equal to the
integer is chosen. -/
structure ExactChoice (keys : List VariantKey) (n : ℤ) (choice : Option ℕ) : Prop where
  equal : ∀ i literal, choice = some i → keys[i]? = some (.number literal) →
    literal.rational? = some (n : ℚ)
  first : ∀ i, IsFirst (VariantKey.Equals n) keys i → choice = some i

theorem choose?_of_isFirst (hn : Value.inRange n = true) {i : ℕ}
    (h : IsFirst (VariantKey.Near n) keys i) :
    (Value.integer n).selector.choose? l keys = some i := by
  have hfind := (findIdx?_eq_some_iff_isFirst (VariantKey.isNumber_ofInt hn)).mpr h
  simp only [Value.selector, SelectorValue.choose?, hfind, Option.some_or]

/-- A numeric key is chosen by its value only, never as the name of a plural category. -/
theorem isFirst_of_choose? (hn : Value.inRange n = true) {i : ℕ} {literal : NumberLiteral}
    (hkey : keys[i]? = some (.number literal))
    (h : (Value.integer n).selector.choose? l keys = some i) :
    IsFirst (VariantKey.Near n) keys i := by
  simp only [Value.selector, SelectorValue.choose?, Option.or_eq_some_iff] at h
  rcases h with hnumber | ⟨-, hname⟩
  · exact (findIdx?_eq_some_iff_isFirst (VariantKey.isNumber_ofInt hn)).mp hnumber
  · obtain ⟨hi, hisName, -⟩ := List.findIdx?_eq_some_iff_getElem.mp hname
    rw [List.getElem?_eq_getElem hi, Option.some_inj] at hkey
    simp [hkey, VariantKey.isName] at hisName

/-- The choice is exact if and only if no other number comes before the integer. -/
theorem exactChoice_iff (hn : Value.inRange n = true) :
    ExactChoice keys n ((Value.integer n).selector.choose? l keys) ↔
      ∀ i, IsFirst (VariantKey.Near n) keys i → IsFirst (VariantKey.Equals n) keys i := by
  constructor
  · intro hexact i hfirst
    obtain ⟨key, hget, hnear⟩ := hfirst.holds
    obtain ⟨literal, rfl⟩ := hnear.exists_literal
    refine ⟨⟨_, hget, hexact.equal i literal (choose?_of_isFirst hn hfirst) hget⟩, ?_⟩
    exact fun j hj key hget' hequal => hfirst.before j hj key hget' (hequal.near hn)
  · intro h
    constructor
    · intro i literal hchoice hget
      obtain ⟨key, hget', hequal⟩ := (h i (isFirst_of_choose? hn hget hchoice)).holds
      obtain rfl := Option.some.inj (hget.symm.trans hget')
      exact hequal
    · -- Some key is near, and the first one of these is the first equal one.
      intro i hfirst
      obtain ⟨key, hget, hequal⟩ := hfirst.holds
      obtain ⟨j, hj⟩ : ∃ j, keys.findIdx? (·.isNumber (.ofInt n)) = some j := by
        rw [← Option.isSome_iff_exists, List.findIdx?_isSome, List.any_eq_true]
        exact ⟨key, List.mem_of_getElem? hget,
          (VariantKey.isNumber_ofInt hn key).mpr (hequal.near hn)⟩
      have hnear := (findIdx?_eq_some_iff_isFirst (VariantKey.isNumber_ofInt hn)).mp hj
      rw [hfirst.unique (h j hnear)]
      exact choose?_of_isFirst hn hnear

end Choice

/-- What is rendered for an integer is the chosen variant, or the default if none is. A numeric
key is chosen if and only if it is the first one with the double of the integer. The choice is
exact if and only if this key is the first one equal to the integer. That is so if all keys have
few digits behind the point and the integer has few digits before it, fifteen together. -/
theorem Expression.render_select_integer (l : Locale) (lookup : Lookup) (enter : Enter)
    (args : Arguments) {name : String} {n : ℤ} (hget : args.get? name = some (.integer n))
    (hn : Value.inRange n = true) (variants : List (Variant Pattern)) (default : ℕ) :
    let keys := variants.map Variant.key
    let choice := (Value.integer n).selector.choose? l keys
    (Expression.select (.argument name) variants default).render l lookup enter args =
        renderElements l lookup enter args (variantAt variants (choice.getD default)) ∧
      (∀ i literal, keys[i]? = some (.number literal) →
        (choice = some i ↔ IsFirst (VariantKey.Near n) keys i)) ∧
      (ExactChoice keys n choice ↔
        ∀ i, IsFirst (VariantKey.Near n) keys i → IsFirst (VariantKey.Equals n) keys i) ∧
      (∀ places ≤ 15, n.natAbs * 10 ^ places < 2 ^ 53 → (∀ key ∈ keys, key.HasPlaces places) →
        ExactChoice keys n choice) := by
  intro keys choice
  have hdirect : (Inline.argument name).direct? args = some (Value.integer n).selector := by
    rw [Inline.direct?, hget, Option.map_some]
  refine ⟨?_, fun i literal hkey => ⟨isFirst_of_choose? hn hkey, choose?_of_isFirst hn⟩,
    exactChoice_iff hn, fun places hplaces hsmall hkeys => ?_⟩
  · rw [Expression.render, select_of_direct hdirect, pure_bind, renderVariant_eq]
  · refine (exactChoice_iff hn).mpr fun i hfirst => ?_
    exact hfirst.of_imp (fun key hkey hnear => hnear.equals hplaces hsmall (hkeys key hkey))
      fun key hequal => hequal.near hn

open Builtin

/-- One letter is exactly one, whatever the plural category says. -/
theorem Expression.render_select_integer_letters :
    let args : Arguments := [⟨"n", .integer 1⟩]
    let variants : List (Variant Pattern) := [⟨.name "one", [.text "one letter"]⟩,
      ⟨.number ⟨"1.0"⟩, [.text "exactly one"]⟩, ⟨.name "other", [.text "letters"]⟩]
    let lookup : Lookup := ⟨fun _ => none, fun _ => none⟩
    let enter : Enter := fun _ _ _ => pure ""
    let keys := variants.map Variant.key
    let choice := (Value.integer 1).selector.choose? (.ofTag "en") keys
    args.get? "n" = some (.integer 1) ∧ Value.inRange 1 = true ∧
      (Expression.select (.argument "n") variants 2).render (.ofTag "en") lookup enter args =
        renderElements (.ofTag "en") lookup enter args [.text "exactly one"] ∧
      ExactChoice keys 1 choice := by
  intro args variants lookup enter keys choice
  obtain ⟨hrender, -, -, hexact⟩ := Expression.render_select_integer (.ofTag "en") lookup enter args
    (show args.get? "n" = some (.integer 1) by decide) (show Value.inRange 1 = true by decide)
    variants 2
  have hchoice : choice = some 1 := by decide +kernel
  have hone : (⟨"1.0"⟩ : NumberLiteral).rational? = some (1 : ℤ) := by decide +kernel
  refine ⟨by decide, by decide, hrender.trans ?_, hexact 1 (by norm_num) (by norm_num) ?_⟩
  · change renderElements _ _ _ _ (variantAt variants (choice.getD 2)) = _
    rw [hchoice]
    rfl
  · have hplaces : ∀ x, (⟨"1.0"⟩ : NumberLiteral).rational? = some x → HasPlaces 1 x := by
      rintro x hx
      obtain rfl := Option.some.inj (hone.symm.trans hx)
      exact ⟨10, by norm_num⟩
    simpa [keys, variants, VariantKey.HasPlaces] using hplaces

/-- Two numbers with the same double: the second one is never chosen, not even by itself. -/
theorem Expression.render_select_integer_neighbours :
    let n : ℤ := 9007199254740993
    let variants : List (Variant Pattern) := [⟨.number ⟨"9007199254740992"⟩, [.text "even"]⟩,
      ⟨.number ⟨"9007199254740993"⟩, [.text "odd"]⟩, ⟨.name "other", [.text "other"]⟩]
    let keys := variants.map Variant.key
    let choice := (Value.integer n).selector.choose? (.ofTag "en") keys
    Value.inRange n = true ∧ IsFirst (VariantKey.Equals n) keys 1 ∧ choice = some 0 ∧
      ¬ ExactChoice keys n choice ∧
      Pattern.format [.placeable (.select (.argument "n") variants 2)] "en"
        ⟨fun _ => none, fun _ => none⟩ [⟨"n", .integer n⟩] = .ok ⟨"even", []⟩ := by
  intro n variants keys choice
  have hchoice : choice = some 0 := by decide +kernel
  have heven : (⟨"9007199254740992"⟩ : NumberLiteral).rational? ≠ some (n : ℚ) := by decide +kernel
  have hodd : (⟨"9007199254740993"⟩ : NumberLiteral).rational? = some (n : ℚ) := by decide +kernel
  have hfirst : IsFirst (VariantKey.Equals n) keys 1 := by
    refine ⟨⟨_, rfl, hodd⟩, fun j hj key hget => ?_⟩
    obtain rfl : j = 0 := by omega
    obtain rfl := Option.some.inj hget
    exact heven
  refine ⟨by decide, hfirst, hchoice, fun hexact => ?_, by decide +kernel⟩
  simpa [hchoice] using hexact.first 1 hfirst

end Phrasebook
