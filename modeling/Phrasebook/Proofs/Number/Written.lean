import Mathlib
import Phrasebook.Formatting.Value
import Phrasebook.Number.Literal
import Phrasebook.Proofs.Number.Nearest

/-!
# Numbers as they are written

A text of digits with an optional sign, point and exponent stands for one rational number,
however long it is. The double that is read from the text is the nearest one to this number, or
it is infinite because the number is too great. So the double of a literal equals the double of
an integer if and only if the two numbers have the nearest double in common, which is more than
being equal only if one of them has too many digits.

## Main definitions

* `NumberLiteral.rational?`: the number that a literal stands for.
* `SameDouble`: two numbers that are rounded to the same double.
* `HasPlaces`: a number with so many digits behind the point at most.
-/

namespace Phrasebook

/-! ## Rows of digits -/

namespace Digit

theorem value_append_singleton (ds : List Digit) (d : Digit) :
    value (ds ++ [d]) = 10 * value ds + d.val := by
  simp [value]

theorem value_append (ds es : List Digit) :
    value (ds ++ es) = value ds * 10 ^ es.length + value es := by
  induction es using List.reverseRecOn with
  | nil => simp [value]
  | append_singleton es d ih =>
    rw [← List.append_assoc, value_append_singleton, ih, value_append_singleton]
    simp only [List.length_append, List.length_singleton, pow_succ]
    ring

theorem toLower_of_ofChar? {c : Char} {d : Digit} (h : ofChar? c = some d) :
    c.toLower = c ∧ c ≤ '9' := by
  obtain ⟨⟨-, hnine⟩, -⟩ := Option.ite_none_right_eq_some.mp h
  refine ⟨?_, hnine⟩
  rw [Char.toLower, dif_neg]
  rintro ⟨hletter, -⟩
  exact absurd (UInt32.le_trans hletter hnine) (by decide)

theorem length_ofNat_pos (n : ℕ) : 0 < (ofNat n).length := by
  simpa [ofNat] using Nat.length_toDigits_pos

/-- The number of digits gives the size of a number. -/
theorem length_ofNat_bounds {n : ℕ} (hn : 0 < n) :
    10 ^ ((ofNat n).length - 1) ≤ n ∧ n < 10 ^ (ofNat n).length := by
  have hlength : (ofNat n).length = (Nat.toDigits 10 n).length := by simp [ofNat]
  have hpos := length_ofNat_pos n
  constructor
  · by_contra hlt
    rw [not_le] at hlt
    rcases Nat.eq_zero_or_pos ((ofNat n).length - 1) with hzero | hk
    · rw [hzero] at hlt
      omega
    · have := (Nat.length_toDigits_le_iff (by norm_num) hk).mpr hlt
      omega
  · exact (Nat.length_toDigits_le_iff (by norm_num) hpos).mp hlength.ge

end Digit

/-! ## The number that is written -/

/-- Digits before and behind the point, and the exponent of a power of ten. -/
structure Written where
  whole : List Digit
  fraction : List Digit
  shift : ℤ

namespace Written

def read? (cs : List Char) : Option Written := do
  let (mantissa, exponent) := Decimal.splitAt (fun c => c == 'e' || c == 'E') cs
  let (whole, fraction) := Decimal.splitAt (· == '.') mantissa
  let whole ← Digit.ofChars? whole
  let fraction ← Digit.ofChars? (fraction.getD [])
  guard (!(whole.isEmpty && fraction.isEmpty))
  let shift ← match exponent with
    | none => some 0
    | some cs => Binary.readExponent? cs
  return ⟨whole, fraction, shift⟩

/-- The number without a sign. -/
def magnitude (w : Written) : ℚ :=
  (Digit.value w.whole + Digit.value w.fraction / 10 ^ w.fraction.length) * 10 ^ w.shift

theorem magnitude_eq (w : Written) :
    w.magnitude =
      Digit.value (w.whole ++ w.fraction) * 10 ^ (w.shift - (w.fraction.length : ℤ)) := by
  rw [magnitude, Digit.value_append, zpow_sub₀ (by norm_num), zpow_natCast]
  push_cast
  field_simp

/-- A number starts with a digit or a mark, so its first character is no letter of a word. -/
theorem toLower_of_read? {c : Char} {cs : List Char} {w : Written} (h : read? (c :: cs) = some w) :
    c.toLower = c ∧ c ≤ '9' ∨ c.toLower = 'e' := by
  by_cases hmark : c = 'e' ∨ c = 'E' ∨ c = '.'
  · rcases hmark with rfl | rfl | rfl <;> decide
  · obtain ⟨hlower, hupper, hpoint⟩ : c ≠ 'e' ∧ c ≠ 'E' ∧ c ≠ '.' := by simpa using hmark
    cases hdigit : Digit.ofChar? c with
    | none => simp [read?, Decimal.splitAt, Digit.ofChars?, *] at h
    | some d => exact .inl (Digit.toLower_of_ofChar? hdigit)

end Written

namespace Binary

theorem readMagnitude?_eq (format : BinaryFormat) (negative : Bool) (cs : List Char) :
    readMagnitude? format negative cs = (Written.read? cs).map fun w =>
      ofScaled format negative (Digit.value (w.whole ++ w.fraction))
        (w.shift - w.fraction.length) := by
  simp only [readMagnitude?, Written.read?, Option.bind_eq_bind, Option.map_bind,
    Function.comp_def, Option.pure_def]
  cases (Decimal.splitAt (fun c => c == 'e' || c == 'E') cs).2 <;>
    simp [Option.map_bind]

/-- The words for special values start with letters, so no number is among them. -/
theorem read?_of_written {format : BinaryFormat} {text : String} {sign : SignMark}
    {body : List Char} {w : Written} (hsplit : SignMark.split text.toList = (sign, body))
    (hw : Written.read? body = some w) :
    read? format text = some (ofScaled format (sign = .minus)
      (Digit.value (w.whole ++ w.fraction)) (w.shift - w.fraction.length)) := by
  have hword : ∀ word : String, (∃ c ∈ word.toList.head?, '9' < c ∧ c ≠ 'e') →
      String.ofList (body.map Char.toLower) ≠ word := by
    rintro word ⟨first, hfirst, hletter, hexponent⟩ rfl
    cases body with
    | nil => simp at hfirst
    | cons c cs =>
      obtain rfl : first = c.toLower := by simpa using hfirst.symm
      rcases Written.toLower_of_read? hw with ⟨hc, hnine⟩ | he
      · rw [hc] at hletter
        exact absurd hnine (not_le.mpr hletter)
      · exact hexponent he
  have hnan := hword "nan" ⟨'n', rfl, by decide, by decide⟩
  have hinf := hword "inf" ⟨'i', rfl, by decide, by decide⟩
  have hinfinity := hword "infinity" ⟨'i', rfl, by decide, by decide⟩
  simp only [read?, hsplit, readMagnitude?_eq, hw]
  rw [if_neg hnan, if_neg (by simp [hinf, hinfinity])]
  rfl

/-- A text that is no number is read as a special value or not at all. -/
theorem isFinite_of_unwritten {format : BinaryFormat} {text : String}
    (hw : Written.read? (SignMark.split text.toList).2 = none) :
    ((read? format text).getD .nan).isFinite = false := by
  simp only [read?, readMagnitude?_eq, hw]
  split_ifs <;> rfl

/-! ## The double of a literal -/

theorem ten_zpow_pos (e : ℤ) : (0 : ℚ) < 10 ^ e := by positivity

/-- A number of so many digits lies between two powers of ten. -/
theorem scaled_bounds {n : ℕ} (hn : 0 < n) (e : ℤ) :
    (10 : ℚ) ^ (((Digit.ofNat n).length : ℤ) + e - 1) ≤ n * 10 ^ e ∧
      (n * 10 ^ e : ℚ) < 10 ^ (((Digit.ofNat n).length : ℤ) + e) := by
  obtain ⟨hge, hlt⟩ := Digit.length_ofNat_bounds hn
  have hpos := Digit.length_ofNat_pos n
  have hten := ten_zpow_pos e
  constructor
  · calc (10 : ℚ) ^ (((Digit.ofNat n).length : ℤ) + e - 1)
        = ((10 ^ ((Digit.ofNat n).length - 1) : ℕ) : ℚ) * 10 ^ e := by
          push_cast
          rw [← zpow_natCast, ← zpow_add₀ (by norm_num)]
          congr 1
          omega
      _ ≤ n * 10 ^ e := by gcongr
  · calc (n * 10 ^ e : ℚ) < ((10 ^ (Digit.ofNat n).length : ℕ) : ℚ) * 10 ^ e := by gcongr
      _ = 10 ^ (((Digit.ofNat n).length : ℤ) + e) := by
        push_cast
        rw [zpow_add₀ (by norm_num), zpow_natCast]

theorem two_pow_le_ten_pow (k : ℕ) : (2 : ℚ) ^ (3 * k) ≤ 10 ^ k := by
  rw [pow_mul]
  gcongr
  norm_num

theorem two_pow_le_decimalRange : (2 : ℚ) ^ 1023 ≤ 10 ^ decimalRange :=
  calc (2 : ℚ) ^ 1023 ≤ 2 ^ (3 * decimalRange) := pow_le_pow_right₀ one_le_two (by decide)
    _ ≤ 10 ^ decimalRange := two_pow_le_ten_pow decimalRange

theorem decimalRange_lt_minExponent :
    2 * (10 : ℚ) ^ (-decimalRange : ℤ) < 2 ^ BinaryFormat.double.minExponent :=
  calc 2 * (10 : ℚ) ^ (-decimalRange : ℤ) ≤ 2 * 2 ^ (-(3 * decimalRange : ℕ) : ℤ) := by
        rw [zpow_neg, zpow_neg, zpow_natCast, zpow_natCast]
        gcongr
        exact two_pow_le_ten_pow decimalRange
    _ < 2 ^ BinaryFormat.double.minExponent := by
        rw [← zpow_one_add₀ two_ne_zero]
        exact zpow_lt_zpow_right₀ one_lt_two (by decide)

theorem ofFraction_double (negative : Bool) (num : ℕ) {den : ℕ} (hden : 0 < den) :
    Nearest .double (signed negative (num / den)) (ofFraction .double negative num den) ∨
      (ofFraction .double negative num den = .infinite negative ∧ (2 : ℚ) ^ 1023 ≤ num / den) := by
  have h := @ofFraction_nearest .double (by decide) (by decide) negative num den hden
  rwa [two_pow_mul_zpow] at h

/-- The number is rounded to the nearest double, unless it is too great. -/
theorem ofScaled_nearest (negative : Bool) (n : ℕ) (e : ℤ) :
    Nearest .double (signed negative (n * 10 ^ e)) (ofScaled .double negative n e) ∨
      (ofScaled .double negative n e = .infinite negative ∧ (2 : ℚ) ^ 1023 ≤ n * 10 ^ e) := by
  have hx : (0 : ℚ) ≤ n * 10 ^ e := by positivity
  have hpower : ∀ k : ℕ, (Digit.powerOfTen k : ℚ) = 10 ^ (k : ℤ) := by
    intro k
    rw [Digit.powerOfTen, zpow_natCast]
    exact_mod_cast rfl
  simp only [ofScaled, Bool.or_eq_true, decide_eq_true_eq]
  split_ifs with hsmall hgreat hexponent
  · left
    refine NearestMagnitude.nearest hx (nearestMagnitude_zero hx ?_) (by decide) negative
    rcases Nat.eq_zero_or_pos n with rfl | hn
    · simpa using two_zpow_pos _
    · have hmagnitude : ((Digit.ofNat n).length : ℤ) + e < -decimalRange :=
        hsmall.resolve_left hn.ne'
      calc 2 * (n * 10 ^ e : ℚ) ≤ 2 * 10 ^ (((Digit.ofNat n).length : ℤ) + e) := by
            gcongr
            exact (scaled_bounds hn e).2.le
        _ ≤ 2 * 10 ^ (-decimalRange : ℤ) := by
            gcongr
            norm_num
        _ < 2 ^ BinaryFormat.double.minExponent := decimalRange_lt_minExponent
  · refine .inr ⟨rfl, ?_⟩
    have hn : 0 < n := Nat.pos_of_ne_zero fun hzero => hsmall (.inl hzero)
    calc (2 : ℚ) ^ 1023 ≤ 10 ^ (decimalRange : ℤ) := by
          rw [zpow_natCast]
          exact two_pow_le_decimalRange
      _ ≤ 10 ^ (((Digit.ofNat n).length : ℤ) + e - 1) := by
          apply zpow_le_zpow_right₀ (by norm_num)
          omega
      _ ≤ n * 10 ^ e := (scaled_bounds hn e).1
  · have h := ofFraction_double negative (n * Digit.powerOfTen e.natAbs) one_pos
    push_cast at h
    rwa [hpower, Int.natAbs_of_nonneg hexponent, div_one] at h
  · have hden : 0 < Digit.powerOfTen e.natAbs := Nat.pow_pos (by norm_num)
    have h := ofFraction_double negative n hden
    rwa [hpower, show (e.natAbs : ℤ) = -e by omega, zpow_neg, div_inv_eq_mul] at h

theorem natAbs_le_of_inRange {n : ℤ} (hn : Value.inRange n = true) : n.natAbs ≤ 2 ^ 63 := by
  simp only [Value.inRange, Bool.and_eq_true, decide_eq_true_eq] at hn
  have hbound : Value.bound = 2 ^ 63 := rfl
  omega

/-- An integer of 64 bits is rounded to the nearest double. -/
theorem ofInt_nearest {n : ℤ} (hn : Value.inRange n = true) : Nearest .double n (ofInt n) := by
  have h := ofFraction_double (n < 0) n.natAbs one_pos
  rw [Nat.cast_one, div_one, signed_natAbs] at h
  refine h.resolve_right fun ⟨_, hgreat⟩ => ?_
  have hsmall : (n.natAbs : ℚ) ≤ 2 ^ 63 := by exact_mod_cast natAbs_le_of_inRange hn
  have hpow : (2 : ℚ) ^ 63 < 2 ^ 1023 := pow_lt_pow_right₀ one_lt_two (by norm_num)
  exact absurd (hgreat.trans hsmall) (not_le.mpr hpow)

theorem isFinite_of_sameValue {x y : Binary} (hsame : x.sameValue y = true)
    (hy : y.InFormat .double) : x.isFinite = true := by
  cases y with
  | finite s m e => cases x <;> first | rfl | cases hsame
  | _ => cases hy

end Binary

/-- The nearest doubles are the same, the two zeros taken for one. -/
def SameDouble (x y : ℚ) : Prop :=
  ∃ d d', Binary.Nearest .double x d ∧ Binary.Nearest .double y d' ∧ d.exact = d'.exact

namespace NumberLiteral

open Binary

/-- The number that a literal stands for. -/
def rational? (literal : NumberLiteral) : Option ℚ :=
  let (sign, body) := SignMark.split literal.raw.toList
  (Written.read? body).map fun w => signed (sign = .minus) w.magnitude

variable {literal : NumberLiteral}

theorem value_nearest {x : ℚ} (hx : literal.rational? = some x) :
    Nearest .double x literal.value ∨ (literal.value.isFinite = false ∧ (2 : ℚ) ^ 1023 ≤ |x|) := by
  rcases hsplit : SignMark.split literal.raw.toList with ⟨sign, body⟩
  simp only [rational?, hsplit] at hx
  obtain ⟨w, hw, rfl⟩ := Option.map_eq_some_iff.mp hx
  rw [value, read?_of_written hsplit hw, w.magnitude_eq, Option.getD_some]
  rcases ofScaled_nearest (sign = .minus) (Digit.value (w.whole ++ w.fraction))
      (w.shift - w.fraction.length) with h | ⟨h, hgreat⟩
  · exact .inl h
  · rw [h, abs_signed]
    exact .inr ⟨rfl, hgreat.trans (le_abs_self _)⟩

theorem isFinite_value (hx : literal.rational? = none) : literal.value.isFinite = false :=
  isFinite_of_unwritten (Option.map_eq_none_iff.mp hx)

/-- A literal has the value of an integer if and only if both are rounded to the same double. -/
theorem sameValue_ofInt (literal : NumberLiteral) {n : ℤ} (hn : Value.inRange n = true) :
    literal.value.sameValue (.ofInt n) = true ↔
      ∃ x, literal.rational? = some x ∧ SameDouble x n := by
  have hint := ofInt_nearest hn
  constructor
  · intro hsame
    have hfinite := isFinite_of_sameValue hsame hint.inFormat
    cases hx : literal.rational? with
    | none => simp [isFinite_value hx] at hfinite
    | some x =>
      rcases value_nearest hx with hnear | ⟨hinfinite, -⟩
      · exact ⟨x, rfl, _, _, hnear, hint,
          (sameValue_iff_exact (by decide) hnear.inFormat hint.inFormat).mp hsame⟩
      · simp [hinfinite] at hfinite
  · rintro ⟨x, hx, d, d', hd, hd', heq⟩
    rcases value_nearest hx with hnear | ⟨-, hgreat⟩
    · rw [sameValue_iff_exact (by decide) hnear.inFormat hint.inFormat]
      exact (hnear.exact_unique hd).trans (heq.trans (hd'.exact_unique hint))
    · -- The double of a number that is too great is far from all integers of 64 bits.
      exfalso
      have hx' : (2 : ℚ) ^ (64 : ℤ) ≤ |x| :=
        (pow_le_pow_right₀ one_le_two (by norm_num : 64 ≤ 1023)).trans hgreat
      have hn' : |(n : ℚ)| ≤ 2 ^ (63 : ℤ) := by
        rw [← Int.cast_abs, Int.abs_eq_natAbs]
        exact_mod_cast natAbs_le_of_inRange hn
      have hlow := (hd.two_zpow_bounds (by decide) (by decide) (by decide)).1 hx'
      have hhigh := (hd'.two_zpow_bounds (by decide) (by decide) (by decide)).2 hn'
      rw [heq] at hlow
      norm_num at hlow hhigh
      linarith

end NumberLiteral

/-! ## Few digits -/

/-- The number has so many digits behind the point at most. -/
def HasPlaces (places : ℕ) (x : ℚ) : Prop := ∃ k : ℤ, x * 10 ^ places = k

/-- Two different numbers with so many digits behind the point are at least a unit of the last
one apart. -/
theorem HasPlaces.one_le_abs_sub {places : ℕ} {x : ℚ} (hx : HasPlaces places x) {n : ℤ}
    (hne : x ≠ n) : 1 ≤ |x - n| * 10 ^ places := by
  obtain ⟨k, hk⟩ := hx
  have hpos : (0 : ℚ) < 10 ^ places := by positivity
  have hdiff : (x - n) * 10 ^ places = ((k - n * 10 ^ places : ℤ) : ℚ) := by
    push_cast
    rw [← hk]
    ring
  have hint : (1 : ℤ) ≤ |k - n * 10 ^ places| := by
    apply Int.one_le_abs
    intro hzero
    rw [hzero, Int.cast_zero] at hdiff
    exact hne (sub_eq_zero.mp ((mul_eq_zero.mp hdiff).resolve_right hpos.ne'))
  rw [← abs_of_pos hpos, ← abs_mul, hdiff]
  exact_mod_cast hint

/-- A small integer is a double, and it has neighbours among the doubles that are near. -/
theorem exists_double_neighbours {n : ℤ} {scale : ℕ} (hpos : 0 < scale) (hscale : scale < 2 ^ 53)
    (hn : n.natAbs * scale < 2 ^ 53) :
    ∃ unit : ℚ, 0 < unit ∧ unit * scale < 2 ∧
      ∀ k : ℤ, k.natAbs ≤ 1 →
        ∃ float : Binary, float.InFormat .double ∧ float.exact = n + k * unit := by
  obtain ⟨size, hsize⟩ : ∃ size, size = max n.natAbs 1 := ⟨_, rfl⟩
  have hbits : size.log2 < 53 := by
    rw [Nat.log2_lt (by omega)]
    have := Nat.le_mul_of_pos_right n.natAbs hpos
    omega
  -- In this unit the integer has a mantissa of full length.
  obtain ⟨j, hj⟩ : ∃ j, size.log2 + j = 52 := ⟨52 - size.log2, by omega⟩
  refine ⟨2 ^ (-j : ℤ), Binary.two_zpow_pos _, ?_, fun k hk => ?_⟩
  · have hsmall : 2 ^ size.log2 * scale < 2 ^ 53 := by
      refine lt_of_le_of_lt (Nat.mul_le_mul_right scale (Nat.log2_self_le (by omega))) ?_
      rcases le_total n.natAbs 1 with hone | hone
      · rwa [show size = 1 by omega, one_mul]
      · rwa [show size = n.natAbs by omega]
    have hsmall' : (2 : ℚ) ^ size.log2 * scale < 2 ^ 53 := by exact_mod_cast hsmall
    calc (2 : ℚ) ^ (-j : ℤ) * scale = 2 ^ size.log2 * 2 ^ (-52 : ℤ) * scale := by
          rw [Binary.two_pow_mul_zpow, show (size.log2 : ℤ) + -52 = -j by omega]
      _ = 2 ^ size.log2 * scale * 2 ^ (-52 : ℤ) := by ring
      _ < 2 ^ 53 * 2 ^ (-52 : ℤ) := by gcongr
      _ = 2 := by norm_num
  · have hmantissa : (n * 2 ^ j + k).natAbs ≤ 2 ^ 53 := by
      have hlt : n.natAbs < 2 ^ (size.log2 + 1) := lt_of_le_of_lt (by omega) Nat.lt_log2_self
      have hmul : n.natAbs * 2 ^ j < 2 ^ (size.log2 + 1) * 2 ^ j :=
        Nat.mul_lt_mul_of_pos_right hlt (Nat.two_pow_pos j)
      rw [← pow_add, show size.log2 + 1 + j = 53 by omega] at hmul
      have hadd := Int.natAbs_add_le (n * 2 ^ j) k
      rw [Int.natAbs_mul, Int.natAbs_pow] at hadd
      change _ ≤ n.natAbs * 2 ^ j + k.natAbs at hadd
      omega
    obtain ⟨float, hformat, hexact⟩ := @Binary.exists_exact .double (by decide) _ hmantissa (-j)
      (by simp only [BinaryFormat.double]; omega) (by simp only [BinaryFormat.double]; omega)
    refine ⟨float, hformat, hexact.trans ?_⟩
    push_cast
    rw [add_mul, mul_assoc, Binary.two_pow_mul_zpow, add_neg_cancel, zpow_zero, mul_one]

/-- With few digits no other number is rounded to the double of an integer. -/
theorem SameDouble.eq {places : ℕ} (hplaces : places ≤ 15) {n : ℤ}
    (hn : n.natAbs * 10 ^ places < 2 ^ 53) {x : ℚ} (hx : HasPlaces places x)
    (h : SameDouble x n) : x = n := by
  have hscale : 10 ^ places < 2 ^ 53 :=
    lt_of_le_of_lt (Nat.pow_le_pow_right (by norm_num) hplaces) (by norm_num)
  obtain ⟨unit, hunit, hnear, hfloats⟩ :=
    exists_double_neighbours (Nat.pow_pos (by norm_num)) hscale hn
  obtain ⟨d, d', hd, hd', heq⟩ := h
  -- The integer is its own double.
  have hexact : d.exact = n := by
    obtain ⟨float, hformat, hfloat⟩ := hfloats 0 (by norm_num)
    rw [Int.cast_zero, zero_mul, add_zero] at hfloat
    rw [← hfloat] at hd' ⊢
    exact heq.trans (hd'.exact_eq hformat)
  by_contra hne
  have hapart := hx.one_le_abs_sub hne
  have hclose : unit < 2 * |x - n| := by
    have hpower : (0 : ℚ) < 10 ^ places := by positivity
    refine lt_of_mul_lt_mul_right ?_ hpower.le
    push_cast at hnear
    linarith
  -- The neighbour on the side of the other number is nearer to it.
  obtain ⟨k, hk, hside⟩ : ∃ k : ℤ, k.natAbs = 1 ∧ |x - (n + k * unit)| < |x - n| := by
    rcases lt_or_gt_of_ne (sub_ne_zero.mpr hne) with hneg | hpos
    · refine ⟨-1, rfl, ?_⟩
      rw [abs_of_neg hneg] at hclose ⊢
      push_cast
      rw [abs_lt]
      constructor <;> linarith
    · refine ⟨1, rfl, ?_⟩
      rw [abs_of_pos hpos] at hclose ⊢
      push_cast
      rw [abs_lt]
      constructor <;> linarith
  obtain ⟨float, hformat, hfloat⟩ := hfloats k hk.le
  have hother := hd.nearer float hformat
  rw [hexact, hfloat] at hother
  have hkne : (k : ℚ) ≠ 0 := by
    intro hzero
    rw [Int.cast_eq_zero] at hzero
    rw [hzero] at hk
    cases hk
  rcases hother (by simp [hkne, hunit.ne']) with hlt | ⟨hsame, -⟩ <;> linarith

end Phrasebook
