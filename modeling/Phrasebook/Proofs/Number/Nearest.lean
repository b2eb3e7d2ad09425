import Mathlib
import Phrasebook.Number.Binary

/-!
# Nearest floats

A fraction is rounded to a float of a format. The float is the nearest one: any other float of
the format is farther away from the fraction, or as far away with an odd mantissa, where the
mantissa of the result is even. So a fraction has only one nearest float, up to the sign of zero,
and two fractions are rounded to the same float if and only if they have one in common.

## Main definitions

* `Binary.exact`: the number that a finite float stands for.
* `Binary.InFormat`: the finite floats of a format.
* `Binary.Nearest`: a float of a format is the nearest one to a number.
-/

namespace Phrasebook

namespace Binary

variable {format : BinaryFormat} {m m' : ℕ} {e e' : ℤ}

/-! ## Floats as numbers -/

def signed (negative : Bool) (x : ℚ) : ℚ := if negative then -x else x

/-- The number that a finite float stands for. -/
def exact : Binary → ℚ
  | .finite negative m e => signed negative (m * 2 ^ e)
  | _ => 0

/-- The mantissa is as great as the format admits: only with the least exponent it may be
shorter. -/
structure Canonical (format : BinaryFormat) (m : ℕ) (e : ℤ) : Prop where
  lt : m < 2 ^ format.precision
  least : format.minExponent ≤ e
  full : 2 ^ (format.precision - 1) ≤ m ∨ e = format.minExponent

def InFormat (format : BinaryFormat) : Binary → Prop
  | .finite _ m e => Canonical format m e ∧ e ≤ format.maxExponent
  | _ => False

/-- The mantissa is even. -/
def IsEven : Binary → Prop
  | .finite _ m _ => m % 2 = 0
  | _ => False

/-- All other floats of the format are farther away, or as far away with an odd mantissa beside
an even one. -/
structure Nearest (format : BinaryFormat) (x : ℚ) (d : Binary) : Prop where
  inFormat : d.InFormat format
  nearer : ∀ other : Binary, other.InFormat format → other.exact ≠ d.exact →
    |x - d.exact| < |x - other.exact| ∨
      (|x - d.exact| = |x - other.exact| ∧ d.IsEven ∧ ¬ other.IsEven)

theorem Nearest.exact_unique {x : ℚ} {d d' : Binary} (h : Nearest format x d)
    (h' : Nearest format x d') : d.exact = d'.exact := by
  by_contra hne
  rcases h.nearer d' h'.inFormat (Ne.symm hne) with hlt | ⟨heq, -, hodd⟩
  · rcases h'.nearer d h.inFormat hne with hlt' | ⟨heq', -, -⟩ <;> linarith
  · rcases h'.nearer d h.inFormat hne with hlt' | ⟨-, heven, -⟩
    · linarith
    · exact hodd heven

/-! ## Signs -/

section Signed

variable {s s' : Bool} {x y : ℚ}

@[simp] theorem signed_zero (s : Bool) : signed s 0 = 0 := by cases s <;> simp [signed]

theorem signed_mul (s : Bool) (x y : ℚ) : signed s (x * y) = signed s x * y := by
  cases s <;> simp [signed]

theorem abs_signed (s : Bool) (x : ℚ) : |signed s x| = |x| := by cases s <;> simp [signed]

theorem signed_natAbs (n : ℤ) : signed (n < 0) n.natAbs = n := by
  rw [signed, Nat.cast_natAbs]
  split
  · next hneg =>
    rw [abs_of_neg (by simpa using hneg)]
    simp
  · next hneg =>
    rw [abs_of_nonneg (by simpa using hneg)]

theorem signed_inj : signed s x = signed s y ↔ x = y := by cases s <;> simp [signed]

theorem abs_signed_sub (s : Bool) (x y : ℚ) : |signed s x - signed s y| = |x - y| := by
  cases s with
  | false => rfl
  | true =>
    simp only [signed, if_true]
    rw [← abs_neg]
    ring_nf

theorem abs_signed_sub_of_ne (h : s ≠ s') (hx : 0 ≤ x) (hy : 0 ≤ y) :
    |signed s x - signed s' y| = x + y := by
  cases s <;> cases s' <;> simp [signed] at h ⊢
  · exact add_nonneg hx hy
  · rw [abs_of_nonpos (by linarith)]
    ring

theorem eq_zero_of_signed (h : s ≠ s') (hx : 0 ≤ x) (hy : 0 ≤ y) (heq : signed s x = signed s' y) :
    x = 0 ∧ y = 0 := by
  have hsum := abs_signed_sub_of_ne h hx hy
  rw [heq, sub_self, abs_zero] at hsum
  constructor <;> linarith

end Signed

/-! ## One float for each number -/

theorem two_zpow_pos (e : ℤ) : (0 : ℚ) < 2 ^ e := by positivity

theorem Canonical.exponent_le (hp : 0 < format.precision) (h : Canonical format m e)
    (h' : Canonical format m' e') (heq : (m : ℚ) * 2 ^ e = m' * 2 ^ e') : e' ≤ e := by
  by_contra hlt
  obtain ⟨k, rfl⟩ : ∃ k : ℕ, e' = e + (k + 1) := ⟨(e' - e - 1).toNat, by omega⟩
  -- The mantissa with the greater exponent is of full length, so the other one is too long.
  have hfull : 2 ^ (format.precision - 1) ≤ m' := by
    rcases h'.full with hfull | hleast
    · exact hfull
    · have := h.least
      omega
  have hm : m = m' * 2 ^ (k + 1) := by
    have hpow : (2 : ℚ) ^ (e + ((k : ℤ) + 1)) = 2 ^ e * 2 ^ (k + 1) := by
      rw [zpow_add₀ (by norm_num)]
      norm_cast
    rw [hpow, mul_comm (2 ^ e : ℚ), ← mul_assoc] at heq
    exact_mod_cast mul_right_cancel₀ (two_zpow_pos e).ne' heq
  have hlong : 2 ^ (format.precision - 1) * 2 ≤ m := by
    rw [hm]
    exact Nat.mul_le_mul hfull (Nat.le_self_pow (by omega) 2)
  have hlt := h.lt
  rw [← Nat.pow_succ, Nat.succ_eq_add_one, Nat.sub_add_cancel hp] at hlong
  omega

theorem Canonical.unique (hp : 0 < format.precision) (h : Canonical format m e)
    (h' : Canonical format m' e') (heq : (m : ℚ) * 2 ^ e = m' * 2 ^ e') : m = m' ∧ e = e' := by
  obtain rfl : e = e' :=
    le_antisymm (h'.exponent_le hp h heq.symm) (h.exponent_le hp h' heq)
  exact ⟨by exact_mod_cast mul_right_cancel₀ (two_zpow_pos e).ne' heq, rfl⟩

/-- Floats of a format have the same value if and only if they stand for the same number. -/
theorem sameValue_iff_exact (hp : 0 < format.precision) {x y : Binary} (hx : x.InFormat format)
    (hy : y.InFormat format) : x.sameValue y = true ↔ x.exact = y.exact := by
  match x, y with
  | .nan, _ => cases hx
  | .infinite _, _ => cases hx
  | .finite _ _ _, .nan => cases hy
  | .finite _ _ _, .infinite _ => cases hy
  | .finite s m e, .finite s' m' e' =>
    simp only [sameValue, exact, Bool.or_eq_true, Bool.and_eq_true, beq_iff_eq]
    constructor
    · rintro (⟨rfl, rfl⟩ | ⟨⟨rfl, rfl⟩, rfl⟩)
      · simp
      · rfl
    · intro heq
      by_cases hs : s = s'
      · subst hs
        obtain ⟨rfl, rfl⟩ := hx.1.unique hp hy.1 (signed_inj.mp heq)
        simp
      · -- With different signs both are zero.
        obtain ⟨hzero, hzero'⟩ := eq_zero_of_signed hs (by positivity) (by positivity) heq
        left
        exact ⟨by simpa [(two_zpow_pos e).ne'] using hzero,
          by simpa [(two_zpow_pos e').ne'] using hzero'⟩

/-! ## Rounded quotients -/

/-- A quotient is rounded by half at most, and to an even number if by half. -/
theorem roundDiv_close (num : ℕ) {den : ℕ} (hden : 0 < den) :
    |(num / den : ℚ) - roundDiv num den| ≤ 1 / 2 ∧
      (|(num / den : ℚ) - roundDiv num den| = 1 / 2 → roundDiv num den % 2 = 0) := by
  have hden' : (0 : ℚ) < den := by exact_mod_cast hden
  -- The quotient is an integer and a part of one.
  obtain ⟨q, part, hq, hpart, hquotient⟩ : ∃ (q : ℕ) (part : ℚ), q = num / den ∧
      part = ((num % den : ℕ) : ℚ) / den ∧ (num / den : ℚ) = q + part := by
    refine ⟨_, _, rfl, rfl, ?_⟩
    have hsplit : (num : ℚ) = den * (num / den : ℕ) + (num % den : ℕ) := by
      exact_mod_cast (Nat.div_add_mod num den).symm
    field_simp
    linarith
  have hnonneg : 0 ≤ part := by
    rw [hpart]
    positivity
  have hlt : part < 1 := by
    rw [hpart, div_lt_one hden']
    exact_mod_cast Nat.mod_lt num hden
  have hdown : 2 * (num % den) < den ↔ part < 1 / 2 := by
    rw [hpart, div_lt_div_iff₀ hden' two_pos]
    norm_cast
    omega
  have hup : den < 2 * (num % den) ↔ 1 / 2 < part := by
    rw [hpart, div_lt_div_iff₀ two_pos hden']
    norm_cast
    omega
  rw [hquotient]
  simp only [roundDiv, ← hq, hdown, hup]
  split
  · next h =>
    rw [add_sub_cancel_left, abs_of_nonneg hnonneg]
    exact ⟨h.le, fun heq => absurd heq h.ne⟩
  · split
    · next h =>
      have habs : |(q + part : ℚ) - (q + 1 : ℕ)| = 1 - part := by
        rw [abs_of_neg (by push_cast; linarith)]
        push_cast
        ring
      rw [habs]
      exact ⟨by linarith, fun heq => by linarith⟩
    · next h h' =>
      obtain rfl : part = 1 / 2 := le_antisymm (not_lt.mp h') (not_lt.mp h)
      rcases Nat.mod_two_eq_zero_or_one q with heven | hodd
      · simp [heven, abs_of_pos]
      · have habs : |(q + 1 / 2 : ℚ) - (q + 1 : ℕ)| = 1 / 2 := by
          rw [abs_of_neg (by push_cast; linarith)]
          push_cast
          ring
        rw [hodd, habs]
        exact ⟨le_rfl, fun _ => by omega⟩

/-- Another integer is farther away from the quotient, or as far away and odd. -/
theorem roundDiv_nearer (num : ℕ) {den : ℕ} (hden : 0 < den) {k : ℕ}
    (hk : k ≠ roundDiv num den) :
    |(num / den : ℚ) - roundDiv num den| < |(num / den : ℚ) - k| ∨
      (|(num / den : ℚ) - roundDiv num den| = |(num / den : ℚ) - k| ∧
        roundDiv num den % 2 = 0 ∧ k % 2 = 1) := by
  obtain ⟨hclose, htie⟩ := roundDiv_close num hden
  generalize roundDiv num den = r at *
  generalize (num / den : ℚ) = x at *
  -- Two integers are one apart at least, so one of them is at least half away.
  have hapart : (1 : ℚ) ≤ |(r : ℚ) - k| := by
    have hint : (1 : ℤ) ≤ |(r : ℤ) - k| := Int.one_le_abs (by omega)
    exact_mod_cast hint
  have htriangle : |(r : ℚ) - k| ≤ |x - r| + |x - k| := by
    rw [abs_sub_comm x r]
    exact abs_sub_le (r : ℚ) x k
  rcases hclose.lt_or_eq with hlt | heq
  · left
    linarith
  · rcases lt_or_ge |x - r| |x - k| with hlt | hge
    · exact .inl hlt
    · have hsame : |x - k| = 1 / 2 := by linarith
      have hnext : |(r : ℤ) - k| ≤ 1 := by
        have hle : |(r : ℚ) - k| ≤ 1 := by linarith
        exact_mod_cast hle
      have heven := htie heq
      refine .inr ⟨heq.trans hsame.symm, heven, ?_⟩
      rw [abs_le] at hnext
      omega

/-! ## The exponent of a fraction -/

theorem unscale_spec (num : ℕ) {den : ℕ} (hden : 0 < den) (e : ℤ) :
    0 < (unscale num den e).2 ∧
      ((unscale num den e).1 / (unscale num den e).2 : ℚ) = num / den / 2 ^ e := by
  have hpow : ∀ k : ℕ, (powerOfTwo k : ℚ) = 2 ^ (k : ℤ) := by
    intro k
    rw [powerOfTwo, zpow_natCast]
    exact_mod_cast rfl
  unfold unscale
  split
  · next h =>
    refine ⟨Nat.mul_pos hden (Nat.two_pow_pos _), ?_⟩
    push_cast
    rw [hpow, Int.natAbs_of_nonneg h, div_div]
  · next h =>
    refine ⟨hden, ?_⟩
    push_cast
    rw [hpow, show (e.natAbs : ℤ) = -e by omega, zpow_neg]
    field_simp

theorem log2_bounds {n : ℕ} (hn : 0 < n) :
    (2 : ℚ) ^ (n.log2 : ℤ) ≤ n ∧ (n : ℚ) < 2 ^ ((n.log2 : ℤ) + 1) := by
  constructor
  · rw [zpow_natCast]
    exact_mod_cast Nat.log2_self_le hn.ne'
  · have hlt := Nat.lt_log2_self (n := n)
    rw [← Nat.cast_one, ← Nat.cast_add, zpow_natCast]
    exact_mod_cast hlt

theorem two_pow_mul_zpow (k : ℕ) (e : ℤ) : (2 : ℚ) ^ k * 2 ^ e = 2 ^ (k + e) := by
  rw [zpow_add₀ two_ne_zero, zpow_natCast]

/-- The logarithms of numerator and denominator give the size of a fraction up to a factor. -/
theorem log2_fraction {num den : ℕ} (hnum : 0 < num) (hden : 0 < den) :
    (2 : ℚ) ^ ((num.log2 : ℤ) - den.log2 - 1) ≤ num / den ∧
      (num / den : ℚ) < 2 ^ ((num.log2 : ℤ) - den.log2 + 1) := by
  have hden' : (0 : ℚ) < den := by exact_mod_cast hden
  obtain ⟨hnum_ge, hnum_lt⟩ := log2_bounds hnum
  obtain ⟨hden_ge, hden_lt⟩ := log2_bounds hden
  have hpos := two_zpow_pos ((num.log2 : ℤ) - den.log2)
  constructor
  · rw [le_div_iff₀ hden']
    calc (2 : ℚ) ^ ((num.log2 : ℤ) - den.log2 - 1) * den
        ≤ 2 ^ ((num.log2 : ℤ) - den.log2 - 1) * 2 ^ ((den.log2 : ℤ) + 1) := by gcongr
      _ = 2 ^ (num.log2 : ℤ) := by rw [← zpow_add₀ two_ne_zero]; ring_nf
      _ ≤ num := hnum_ge
  · rw [div_lt_iff₀ hden']
    calc (num : ℚ) < 2 ^ ((num.log2 : ℤ) + 1) := hnum_lt
      _ = 2 ^ ((num.log2 : ℤ) - den.log2 + 1) * 2 ^ (den.log2 : ℤ) := by
        rw [← zpow_add₀ two_ne_zero]; ring_nf
      _ ≤ 2 ^ ((num.log2 : ℤ) - den.log2 + 1) * den := by gcongr

/-- The fraction in units of the exponent has no more digits than the mantissa may have, and as
many unless the exponent is the least one. -/
theorem exponentFor_spec (format : BinaryFormat) (hp : 0 < format.precision) {num den : ℕ}
    (hnum : 0 < num) (hden : 0 < den) :
    let e := exponentFor format num den
    format.minExponent ≤ e ∧ (num / den : ℚ) < 2 ^ format.precision * 2 ^ e ∧
      (e = format.minExponent ∨ 2 ^ (format.precision - 1) * 2 ^ e ≤ (num / den : ℚ)) := by
  obtain ⟨p, hprecision⟩ : ∃ p, format.precision = p + 1 := ⟨format.precision - 1, by omega⟩
  obtain ⟨hge, hlt⟩ := log2_fraction hnum hden
  let low : ℤ := (num.log2 : ℤ) - den.log2 - format.precision
  obtain ⟨hd, hn⟩ := unscale_spec num hden low
  have hlong : powerOfTwo format.precision ≤ (unscale num den low).1 / (unscale num den low).2 ↔
      (2 : ℚ) ^ format.precision * 2 ^ low ≤ num / den := by
    have hd' : (0 : ℚ) < (unscale num den low).2 := by exact_mod_cast hd
    rw [Nat.le_div_iff_mul_le hd, ← le_div_iff₀ (two_zpow_pos low), ← hn, le_div_iff₀ hd']
    exact_mod_cast Iff.rfl
  -- The exponent for a mantissa of full length.
  obtain ⟨full, hfull, hfull_lt, hfull_ge⟩ : ∃ full : ℤ,
      exponentFor format num den = max format.minExponent full ∧
      (num / den : ℚ) < 2 ^ format.precision * 2 ^ full ∧
      2 ^ (format.precision - 1) * 2 ^ full ≤ (num / den : ℚ) := by
    refine ⟨_, rfl, ?_⟩
    simp only [two_pow_mul_zpow] at hlong ⊢
    split
    · next h =>
      have hwide := hlong.mp h
      constructor
      · refine hlt.trans_le (zpow_le_zpow_right₀ one_le_two ?_)
        omega
      · refine (zpow_le_zpow_right₀ one_le_two ?_).trans hwide
        omega
    · next h =>
      constructor
      · exact not_le.mp (mt hlong.mpr h)
      · refine (zpow_le_zpow_right₀ one_le_two ?_).trans hge
        omega
  intro e
  have he : e = max format.minExponent full := hfull
  refine ⟨by omega, ?_, ?_⟩
  · refine hfull_lt.trans_le ?_
    gcongr
    · exact one_le_two
    · omega
  · rcases le_total full format.minExponent with hle | hle
    · left
      omega
    · right
      rwa [show e = full by omega]

/-! ## Nearest magnitudes -/

/-- The float without its sign is the nearest one to a number that is not negative. -/
structure NearestMagnitude (format : BinaryFormat) (x : ℚ) (m : ℕ) (e : ℤ) : Prop where
  canonical : Canonical format m e
  nearer : ∀ m' e', Canonical format m' e' → (m' : ℚ) * 2 ^ e' ≠ m * 2 ^ e →
    |x - m * 2 ^ e| < |x - m' * 2 ^ e'| ∨
      (|x - m * 2 ^ e| = |x - m' * 2 ^ e'| ∧ m % 2 = 0 ∧ m' % 2 = 1)

theorem canonical_zero (format : BinaryFormat) : Canonical format 0 format.minExponent :=
  ⟨Nat.two_pow_pos _, le_rfl, .inr rfl⟩

/-- A float is a multiple of a power of two, or it is less than all floats with a mantissa of
full length and that exponent. -/
theorem Canonical.multiple_or_lt (hp : 0 < format.precision) (h : Canonical format m e) (g : ℤ) :
    (∃ k : ℕ, (m : ℚ) * 2 ^ e = k * 2 ^ g ∧ (k % 2 = 1 → m % 2 = 1)) ∨
      (e < g ∧ (m : ℚ) * 2 ^ e < 2 ^ (format.precision - 1) * 2 ^ g) := by
  rcases le_or_gt g e with hge | hlt
  · obtain ⟨k, rfl⟩ : ∃ k : ℕ, e = k + g := ⟨(e - g).toNat, by omega⟩
    refine .inl ⟨m * 2 ^ k, ?_, fun hodd => ?_⟩
    · push_cast
      rw [mul_assoc, two_pow_mul_zpow]
    · rw [← Nat.odd_iff] at hodd ⊢
      exact (Nat.odd_mul.mp hodd).1
  · refine .inr ⟨hlt, ?_⟩
    have hm : (m : ℚ) < 2 ^ format.precision := by exact_mod_cast h.lt
    calc (m : ℚ) * 2 ^ e < 2 ^ format.precision * 2 ^ e := by gcongr
      _ ≤ 2 ^ (format.precision - 1) * 2 ^ g := by
        rw [two_pow_mul_zpow, two_pow_mul_zpow]
        apply zpow_le_zpow_right₀ one_le_two
        omega

theorem abs_sub_mul_zpow (x c : ℚ) (e : ℤ) : |x - c * 2 ^ e| = |x / 2 ^ e - c| * 2 ^ e := by
  have hpos := two_zpow_pos e
  rw [← abs_of_pos hpos, ← abs_mul, abs_of_pos hpos, sub_mul, div_mul_cancel₀ _ hpos.ne']

/-- The mantissa that a fraction is rounded to before a carry. -/
def roundedMantissa (format : BinaryFormat) (num den : ℕ) : ℕ :=
  let (n, d) := unscale num den (exponentFor format num den)
  roundDiv n d

section Fraction

variable {num den : ℕ} (hp : 2 ≤ format.precision) (hnum : 0 < num) (hden : 0 < den)
include hp hnum hden

theorem roundedMantissa_nearer {m : ℕ} {e : ℤ} (h : Canonical format m e)
    (hne : (m : ℚ) * 2 ^ e ≠
      roundedMantissa format num den * 2 ^ exponentFor format num den) :
    let rounded : ℚ := roundedMantissa format num den * 2 ^ exponentFor format num den
    |(num / den : ℚ) - rounded| < |(num / den : ℚ) - m * 2 ^ e| ∨
      (|(num / den : ℚ) - rounded| = |(num / den : ℚ) - m * 2 ^ e| ∧
        roundedMantissa format num den % 2 = 0 ∧ m % 2 = 1) := by
  intro rounded
  obtain ⟨hleast, -, hfull⟩ := exponentFor_spec format (by omega) hnum hden
  set g := exponentFor format num den
  obtain ⟨hd, hscaled⟩ := unscale_spec num hden g
  set x : ℚ := num / den
  have hpos := two_zpow_pos g
  -- Among the multiples of the power of two it is the nearest one.
  have hmultiple : ∀ k : ℕ, k ≠ roundedMantissa format num den →
      |x - rounded| < |x - k * 2 ^ g| ∨ (|x - rounded| = |x - k * 2 ^ g| ∧
        roundedMantissa format num den % 2 = 0 ∧ k % 2 = 1) := by
    intro k hk
    have hnearer := roundDiv_nearer (unscale num den g).1 hd hk
    rw [hscaled] at hnearer
    rw [abs_sub_mul_zpow, abs_sub_mul_zpow]
    rcases hnearer with hlt | ⟨heq, hparity⟩
    · exact .inl (mul_lt_mul_of_pos_right hlt hpos)
    · exact .inr ⟨by rw [← heq]; rfl, hparity⟩
  rcases h.multiple_or_lt (by omega) g with ⟨k, hk, hodd⟩ | ⟨hlow, hsmall⟩
  · rw [hk] at hne ⊢
    have hkne : k ≠ roundedMantissa format num den := by
      rintro rfl
      exact hne rfl
    rcases hmultiple k hkne with hlt | ⟨heq, heven, hkodd⟩
    · exact .inl hlt
    · exact .inr ⟨heq, heven, hodd hkodd⟩
  · -- A float below the fraction and all these multiples is farther away than the least of them.
    left
    have hle : (2 : ℚ) ^ (format.precision - 1) * 2 ^ g ≤ x := by
      rcases hfull with hmin | hfull
      · have := h.least
        omega
      · exact hfull
    have hbound : |x - rounded| ≤ |x - 2 ^ (format.precision - 1) * 2 ^ g| := by
      by_cases hk : 2 ^ (format.precision - 1) = roundedMantissa format num den
      · simp only [rounded, ← hk]
        push_cast
        exact le_rfl
      · have hother := hmultiple _ hk
        push_cast at hother
        rcases hother with hlt | ⟨heq, -⟩
        · exact hlt.le
        · exact heq.le
    rw [abs_of_nonneg (by linarith : (0 : ℚ) ≤ x - 2 ^ (format.precision - 1) * 2 ^ g)] at hbound
    rw [abs_of_pos (by linarith : (0 : ℚ) < x - m * 2 ^ e)]
    linarith

theorem roundedMantissa_bounds :
    roundedMantissa format num den ≤ 2 ^ format.precision ∧
      (exponentFor format num den = format.minExponent ∨
        2 ^ (format.precision - 1) ≤ roundedMantissa format num den) := by
  obtain ⟨-, hlt, hfull⟩ := exponentFor_spec format (by omega) hnum hden
  set g := exponentFor format num den
  obtain ⟨hd, hscaled⟩ := unscale_spec num hden g
  have hclose := (roundDiv_close (unscale num den g).1 hd).1
  rw [hscaled] at hclose
  change |_ - (roundedMantissa format num den : ℚ)| ≤ _ at hclose
  rw [abs_le] at hclose
  -- An integer that is at most half away from a number does not pass an integer bound of it.
  have hround : ∀ a b : ℕ, (a : ℚ) < b + 1 → a ≤ b := fun a b h => by
    have : a < b + 1 := by exact_mod_cast h
    omega
  constructor
  · rw [← div_lt_iff₀ (two_zpow_pos g)] at hlt
    apply hround
    push_cast
    linarith
  · refine hfull.imp id fun hfull => ?_
    rw [← le_div_iff₀ (two_zpow_pos g)] at hfull
    apply hround
    push_cast
    linarith

/-- A mantissa that became too long by rounding is halved. -/
theorem ofFraction_spec (negative : Bool) :
    ∃ m e, NearestMagnitude format (num / den) m e ∧
      (format.minExponent + 1 < e →
        (2 : ℚ) ^ (format.precision - 1) * 2 ^ (e - 1) ≤ num / den) ∧
      ofFraction format negative num den =
        if format.maxExponent < e then .infinite negative else .finite negative m e := by
  obtain ⟨hleast, -, hfull⟩ := exponentFor_spec format (by omega) hnum hden
  obtain ⟨hlong, hshort⟩ := roundedMantissa_bounds hp hnum hden
  have hnearer := fun m e => roundedMantissa_nearer (m := m) (e := e) hp hnum hden
  have hresult : ofFraction format negative num den =
      let rounded := if roundedMantissa format num den = powerOfTwo format.precision
        then (roundedMantissa format num den / 2, exponentFor format num den + 1)
        else (roundedMantissa format num den, exponentFor format num den)
      if format.maxExponent < rounded.2 then .infinite negative
      else .finite negative rounded.1 rounded.2 := by
    rw [ofFraction, if_neg hnum.ne']
    rfl
  have hsize : ∀ e ≤ exponentFor format num den + 1, format.minExponent + 1 < e →
      (2 : ℚ) ^ (format.precision - 1) * 2 ^ (e - 1) ≤ num / den := by
    intro e he hmin
    rcases hfull with hmin' | hfull
    · omega
    · refine le_trans ?_ hfull
      rw [two_pow_mul_zpow, two_pow_mul_zpow]
      exact zpow_le_zpow_right₀ one_le_two (by omega)
  rw [hresult]
  generalize roundedMantissa format num den = r at *
  generalize exponentFor format num den = g at *
  have hhalf : 2 ^ format.precision = 2 ^ (format.precision - 1) * 2 := by
    rw [← pow_succ, Nat.sub_add_cancel (by omega)]
  have heven : 2 ^ (format.precision - 1) % 2 = 0 := by
    obtain ⟨p, hprecision⟩ : ∃ p, format.precision - 1 = p + 1 := ⟨format.precision - 2, by omega⟩
    rw [hprecision, pow_succ, Nat.mul_mod_left]
  by_cases hcarry : r = powerOfTwo format.precision
  · have hr : r = 2 ^ (format.precision - 1) * 2 := hcarry.trans hhalf
    have hdiv : r / 2 = 2 ^ (format.precision - 1) := by omega
    have hvalue : ((2 ^ (format.precision - 1) : ℕ) : ℚ) * 2 ^ (g + 1) = r * 2 ^ g := by
      rw [hr, zpow_add_one₀ two_ne_zero]
      push_cast
      ring
    refine ⟨2 ^ (format.precision - 1), g + 1, ⟨⟨?_, ?_, ?_⟩, ?_⟩, ?_, ?_⟩
    · rw [hhalf]
      have := Nat.two_pow_pos (format.precision - 1)
      omega
    · omega
    · exact .inl le_rfl
    · intro m e hm hne
      rw [hvalue] at hne ⊢
      rcases hnearer m e hm hne with hlt | ⟨heq, -, hodd⟩
      · exact .inl hlt
      · exact .inr ⟨heq, heven, hodd⟩
    · exact hsize _ le_rfl
    · rw [if_pos hcarry, hdiv]
  · have hr : r ≠ 2 ^ format.precision := hcarry
    refine ⟨r, g, ⟨⟨by omega, hleast, hshort.symm⟩, hnearer⟩, hsize g (by omega), ?_⟩
    rw [if_neg hcarry]

end Fraction

theorem NearestMagnitude.abs_sub_le {x : ℚ} (hx : 0 ≤ x) (h : NearestMagnitude format x m e) :
    |x - m * 2 ^ e| ≤ x := by
  by_cases hzero : (0 : ℚ) = m * 2 ^ e
  · rw [← hzero, sub_zero, abs_of_nonneg hx]
  · have hother := h.nearer 0 format.minExponent (canonical_zero format)
    simp only [Nat.cast_zero, zero_mul, sub_zero, abs_of_nonneg hx] at hother
    rcases hother hzero with hlt | ⟨heq, -⟩
    · exact hlt.le
    · exact heq.le

/-- On the other side of zero there is only what is farther away. -/
theorem NearestMagnitude.nearest {x : ℚ} (hx : 0 ≤ x) (h : NearestMagnitude format x m e)
    (hmax : e ≤ format.maxExponent) (negative : Bool) :
    Nearest format (signed negative x) (.finite negative m e) := by
  refine ⟨⟨h.canonical, hmax⟩, ?_⟩
  rintro (_ | _ | ⟨negative', m', e'⟩) hother hne
  · cases hother
  · cases hother
  · simp only [exact, IsEven] at hne ⊢
    rw [abs_signed_sub]
    by_cases hside : negative = negative' ∨ (m' : ℚ) * 2 ^ e' = 0
    · have hsame : signed negative' (m' * 2 ^ e') = signed negative (m' * 2 ^ e') := by
        rcases hside with rfl | hzero
        · rfl
        · rw [hzero, signed_zero, signed_zero]
      rw [hsame] at hne ⊢
      rw [abs_signed_sub]
      rcases h.nearer m' e' hother.1 (mt signed_inj.mpr hne) with hlt | ⟨heq, heven, hodd⟩
      · exact .inl hlt
      · exact .inr ⟨heq, heven, by omega⟩
    · left
      obtain ⟨hsign, hzero⟩ := not_or.mp hside
      have hpos : 0 < (m' : ℚ) * 2 ^ e' := lt_of_le_of_ne (by positivity) (Ne.symm hzero)
      rw [abs_signed_sub_of_ne hsign hx hpos.le]
      have := h.abs_sub_le hx
      linarith

/-- What is rounded to zero, because it is less than half of the least float. -/
theorem nearestMagnitude_zero {x : ℚ} (hx : 0 ≤ x) (hsmall : 2 * x < 2 ^ format.minExponent) :
    NearestMagnitude format x 0 format.minExponent := by
  refine ⟨canonical_zero format, fun m' e' h hne => .inl ?_⟩
  have hleast : (2 : ℚ) ^ format.minExponent ≤ m' * 2 ^ e' := by
    have hm : 1 ≤ m' := by
      by_contra hm
      exact hne (by simp [show m' = 0 by omega])
    calc (2 : ℚ) ^ format.minExponent ≤ 2 ^ e' := zpow_le_zpow_right₀ one_le_two h.least
      _ ≤ m' * 2 ^ e' := le_mul_of_one_le_left (two_zpow_pos e').le (by exact_mod_cast hm)
  rw [Nat.cast_zero, zero_mul, sub_zero, abs_of_nonneg hx, abs_of_neg (by linarith)]
  linarith

/-- A fraction is rounded to the nearest float of the format, or it is greater than all of them
nearly. -/
theorem ofFraction_nearest (hp : 2 ≤ format.precision)
    (hrange : format.minExponent + 1 ≤ format.maxExponent) (negative : Bool) (num : ℕ) {den : ℕ}
    (hden : 0 < den) :
    Nearest format (signed negative (num / den)) (ofFraction format negative num den) ∨
      (ofFraction format negative num den = .infinite negative ∧
        (2 : ℚ) ^ (format.precision - 1) * 2 ^ format.maxExponent ≤ num / den) := by
  have hx : (0 : ℚ) ≤ num / den := by positivity
  rcases Nat.eq_zero_or_pos num with rfl | hnum
  · left
    rw [ofFraction, if_pos rfl]
    refine NearestMagnitude.nearest hx ?_ (by omega) negative
    apply nearestMagnitude_zero hx
    simpa using two_zpow_pos format.minExponent
  · obtain ⟨m, e, hnearest, hsize, hresult⟩ := ofFraction_spec hp hnum hden negative
    rw [hresult]
    by_cases hmax : format.maxExponent < e
    · rw [if_pos hmax]
      refine .inr ⟨rfl, le_trans ?_ (hsize (by omega))⟩
      rw [two_pow_mul_zpow, two_pow_mul_zpow]
      exact zpow_le_zpow_right₀ one_le_two (by omega)
    · rw [if_neg hmax]
      exact .inl (hnearest.nearest hx (by omega) negative)

/-! ## Bounds -/

/-- Rounding does not pass a float. -/
theorem Nearest.le_exact {x : ℚ} {d bound : Binary} (h : Nearest format x d)
    (hbound : bound.InFormat format) (hle : bound.exact ≤ x) : bound.exact ≤ d.exact := by
  by_contra hlt
  rw [not_le] at hlt
  rcases h.nearer bound hbound hlt.ne' with hnear | ⟨hnear, -⟩ <;>
    rw [abs_of_nonneg (by linarith), abs_of_nonneg (by linarith)] at hnear <;> linarith

theorem Nearest.exact_le {x : ℚ} {d bound : Binary} (h : Nearest format x d)
    (hbound : bound.InFormat format) (hle : x ≤ bound.exact) : d.exact ≤ bound.exact := by
  by_contra hlt
  rw [not_le] at hlt
  rcases h.nearer bound hbound hlt.ne with hnear | ⟨hnear, -⟩ <;>
    rw [abs_of_nonpos (by linarith), abs_of_nonpos (by linarith)] at hnear <;> linarith

/-- A float is its own nearest one. -/
theorem Nearest.exact_eq {d float : Binary} (hfloat : float.InFormat format)
    (h : Nearest format float.exact d) : d.exact = float.exact :=
  le_antisymm (h.exact_le hfloat le_rfl) (h.le_exact hfloat le_rfl)

/-! ## Exact numbers -/

/-- The mantissa is doubled until it is of full length or the exponent is the least one. -/
theorem Canonical.exists_of_lt (hp : 0 < format.precision) {k : ℕ} (hk : k < 2 ^ format.precision)
    (e : ℤ) (he : format.minExponent ≤ e) :
    ∃ m e', Canonical format m e' ∧ e' ≤ e ∧ (m : ℚ) * 2 ^ e' = k * 2 ^ e := by
  obtain ⟨t, rfl⟩ : ∃ t : ℕ, e = format.minExponent + t :=
    ⟨(e - format.minExponent).toNat, by omega⟩
  induction t generalizing k with
  | zero => exact ⟨k, _, ⟨hk, by omega, .inr (by simp)⟩, le_rfl, rfl⟩
  | succ t ih =>
    by_cases hfull : 2 ^ (format.precision - 1) ≤ k
    · exact ⟨k, _, ⟨hk, by omega, .inl hfull⟩, le_rfl, rfl⟩
    · have hdouble : 2 * k < 2 ^ format.precision := by
        have hpow : 2 ^ format.precision = 2 * 2 ^ (format.precision - 1) := by
          rw [← pow_succ', Nat.sub_add_cancel hp]
        omega
      obtain ⟨m, e', hcanonical, hle, hvalue⟩ := ih hdouble (by omega)
      refine ⟨m, e', hcanonical, by push_cast; omega, hvalue.trans ?_⟩
      push_cast
      rw [← add_assoc, zpow_add_one₀ two_ne_zero]
      ring

/-- An integer that the mantissa has room for is a float in units of any power of two that is in
the range. -/
theorem exists_exact (hp : 0 < format.precision) {k : ℤ} (hk : k.natAbs ≤ 2 ^ format.precision)
    {e : ℤ} (hmin : format.minExponent ≤ e) (hmax : e < format.maxExponent) :
    ∃ float : Binary, float.InFormat format ∧ float.exact = k * 2 ^ e := by
  have hsigned : signed (k < 0) (k.natAbs * 2 ^ e) = k * 2 ^ e := by
    rw [signed_mul, signed_natAbs]
  rcases hk.lt_or_eq with hlt | heq
  · obtain ⟨m, e', hcanonical, hle, hvalue⟩ := Canonical.exists_of_lt hp hlt e hmin
    refine ⟨.finite (k < 0) m e', ⟨hcanonical, by omega⟩, ?_⟩
    rw [exact, hvalue, hsigned]
  · refine ⟨.finite (k < 0) (2 ^ (format.precision - 1)) (e + 1), ⟨⟨?_, by omega, .inl le_rfl⟩,
      by omega⟩, ?_⟩
    · exact Nat.pow_lt_pow_right one_lt_two (by omega)
    · have hpow : (2 : ℚ) ^ format.precision = 2 ^ (format.precision - 1) * 2 := by
        rw [← pow_succ, Nat.sub_add_cancel hp]
      rw [exact, ← hsigned, heq, zpow_add_one₀ two_ne_zero]
      push_cast
      rw [hpow]
      ring_nf

/-- Rounding does not pass a power of two. -/
theorem Nearest.two_zpow_bounds (hp : 0 < format.precision) {x : ℚ} {d : Binary}
    (h : Nearest format x d) {k : ℤ} (hmin : format.minExponent ≤ k)
    (hmax : k < format.maxExponent) :
    ((2 : ℚ) ^ k ≤ |x| → 2 ^ k ≤ |d.exact|) ∧ (|x| ≤ 2 ^ k → |d.exact| ≤ 2 ^ k) := by
  obtain ⟨high, hhigh, hpos⟩ := exists_exact hp (k := 1) Nat.one_le_two_pow hmin hmax
  obtain ⟨low, hlow, hneg⟩ := exists_exact hp (k := -1) Nat.one_le_two_pow hmin hmax
  rw [Int.cast_one, one_mul] at hpos
  rw [Int.cast_neg, Int.cast_one, neg_one_mul] at hneg
  rw [← hpos]
  constructor
  · intro hle
    rcases le_abs.mp hle with hx | hx
    · exact (h.le_exact hhigh hx).trans (le_abs_self _)
    · have hbound := h.exact_le hlow (by linarith)
      exact le_abs.mpr (.inr (by linarith))
  · intro hle
    rw [abs_le] at hle ⊢
    have hbound := h.le_exact hlow (by linarith)
    exact ⟨by linarith, h.exact_le hhigh hle.2⟩

end Binary

end Phrasebook
