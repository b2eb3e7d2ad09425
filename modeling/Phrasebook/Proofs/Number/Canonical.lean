import Mathlib
import Phrasebook.Proofs.Number.Written
import Phrasebook.Proofs.Position
import Phrasebook.Proofs.Resource.WellFormed

/-!
# Canonical number literals

A number literal is the text of a decimal that has no plus sign and some digit in front of the
point. To normalize it is to take redundant zeros from the digits in front of the point. Rows of
digits with the same value differ only in such zeros. So two literals have the same normalized
text exactly if they stand for the same number, with the same sign and equally many digits behind
the point.

## Main definitions

* `Digit.trim`, `Decimal.trimmed`: redundant zeros are taken away.
* `Decimal.exact`: the number that is written.
* `NumberLiteral.Shows`: a literal is the text of a decimal.
* `NumberLiteral.sign`, `NumberLiteral.whole`: parts of a literal.
-/

namespace Phrasebook

/-! ## Rows of digits -/

namespace Digit

/-- Rows of the same length with the same value are the same. -/
theorem eq_of_value_eq {ds es : List Digit} (hlength : ds.length = es.length)
    (hvalue : value ds = value es) : ds = es := by
  induction ds using List.reverseRecOn generalizing es with
  | nil => exact (List.length_eq_zero_iff.mp hlength.symm).symm
  | append_singleton ds d ih =>
    obtain rfl | ⟨es, e, rfl⟩ := List.eq_nil_or_concat' es
    · simp at hlength
    · rw [value_append_singleton, value_append_singleton] at hvalue
      have hlast : d = e := Fin.ext (by omega)
      have hfront : ds = es := ih (by simpa using hlength) (by omega)
      rw [hlast, hfront]

/-- Take redundant zeros from the front of a row. -/
def trim (ds : List Digit) : List Digit :=
  match ds.dropWhile (· == zero) with
  | [] => [zero]
  | rest => rest

theorem trim_zero_cons (ds : List Digit) : trim (zero :: ds) = trim ds := by
  simp [trim]

theorem trim_cons_of_ne {d : Digit} (hd : d ≠ zero) (ds : List Digit) :
    trim (d :: ds) = d :: ds := by
  simp [trim, hd]

theorem value_zero_cons (ds : List Digit) : value (zero :: ds) = value ds := by
  simp [value, zero]

theorem value_trim (ds : List Digit) : value (trim ds) = value ds := by
  induction ds with
  | nil => rfl
  | cons d ds ih =>
    by_cases hd : d = zero
    · rw [hd, trim_zero_cons, ih, value_zero_cons]
    · rw [trim_cons_of_ne hd]

/-- A trimmed row does not begin with a zero, unless this is all of it. -/
theorem trim_cases (ds : List Digit) :
    trim ds = [zero] ∨ ∃ d es, trim ds = d :: es ∧ d ≠ zero := by
  induction ds with
  | nil => exact .inl rfl
  | cons d ds ih =>
    by_cases hd : d = zero
    · rwa [hd, trim_zero_cons]
    · exact .inr ⟨d, ds, trim_cons_of_ne hd ds, hd⟩

theorem trim_ne_nil (ds : List Digit) : trim ds ≠ [] := by
  obtain h | ⟨d, es, h, -⟩ := trim_cases ds <;> simp [h]

theorem trim_trim (ds : List Digit) : trim (trim ds) = trim ds := by
  obtain h | ⟨d, es, h, hd⟩ := trim_cases ds
  · rw [h, trim_zero_cons]
    rfl
  · rw [h, trim_cons_of_ne hd]

/-- Zeros in front of a row can be taken away again. -/
theorem exists_padded (ds : List Digit) (k : ℕ) :
    ∃ es, es.length = k + ds.length ∧ trim es = trim ds ∧
      ∀ fs, value (es ++ fs) = value (ds ++ fs) := by
  induction k with
  | zero => exact ⟨ds, by simp, rfl, fun _ => rfl⟩
  | succ k ih =>
    obtain ⟨es, hlength, htrim, hvalue⟩ := ih
    refine ⟨zero :: es, by simp; omega, (trim_zero_cons es).trans htrim, fun fs => ?_⟩
    rw [List.cons_append, value_zero_cons, hvalue]

/-- Rows with the same value and equally many digits behind the point differ in zeros in front. -/
theorem trim_eq_of_value_append_eq {ds es fs gs : List Digit} (hlength : fs.length = gs.length)
    (hvalue : value (ds ++ fs) = value (es ++ gs)) : trim ds = trim es ∧ fs = gs := by
  wlog hle : ds.length ≤ es.length generalizing ds es fs gs
  · obtain ⟨htrim, hfraction⟩ := this hlength.symm hvalue.symm (by omega)
    exact ⟨htrim.symm, hfraction.symm⟩
  obtain ⟨padded, hpadded, htrim, hpad⟩ := exists_padded ds (es.length - ds.length)
  have hrow : padded ++ fs = es ++ gs := by
    apply eq_of_value_eq
    · simp only [List.length_append]
      omega
    · rw [hpad, hvalue]
  obtain ⟨rfl, hfraction⟩ := List.append_inj' hrow hlength
  exact ⟨htrim.symm, hfraction⟩

/-! ## Digits as characters -/

theorem ofChar?_toChar (d : Digit) : ofChar? d.toChar = some d := by
  revert d
  decide

theorem isDigit_toChar (d : Digit) : Alphabet.isDigit d.toChar = true := by
  revert d
  decide

theorem toNat_toChar_lt (d : Digit) : d.toChar.toNat < 128 := by
  revert d
  decide

theorem toChar_eq_zero_iff {d : Digit} : d.toChar = '0' ↔ d = zero := by
  revert d
  decide

theorem isDigit_of_mem {ds : List Digit} {c : Char} (h : c ∈ ds.map toChar) :
    Alphabet.isDigit c = true := by
  obtain ⟨d, -, rfl⟩ := List.mem_map.mp h
  exact d.isDigit_toChar

theorem ne_of_isDigit {c e : Char} (hc : Alphabet.isDigit c = true)
    (he : Alphabet.isDigit e = false) : c ≠ e := by
  rintro rfl
  rw [hc] at he
  cases he

theorem exists_toChar {c : Char} (h : Alphabet.isDigit c = true) : ∃ d : Digit, d.toChar = c := by
  simp only [Alphabet.isDigit, Bool.and_eq_true, decide_eq_true_eq] at h
  obtain ⟨hlow, hhigh⟩ : '0'.toNat ≤ c.toNat ∧ c.toNat ≤ '9'.toNat := h
  refine ⟨⟨c.toNat - '0'.toNat, ?_⟩, ?_⟩
  · have : '9'.toNat = '0'.toNat + 9 := rfl
    omega
  · rw [toChar, Nat.add_sub_cancel' hlow, Char.ofNat_toNat]

theorem ofChars?_map_toChar (ds : List Digit) : ofChars? (ds.map toChar) = some ds := by
  induction ds with
  | nil => rfl
  | cons d ds ih =>
    rw [ofChars?] at ih ⊢
    simp [List.mapM_cons, ofChar?_toChar, ih]

end Digit

theorem isDigits_iff {cs : List Char} :
    IsDigits cs ↔ ∃ ds : List Digit, ds ≠ [] ∧ ds.map Digit.toChar = cs := by
  constructor
  · rintro ⟨hne, hdigits⟩
    have hread : ∃ ds : List Digit, ds.map Digit.toChar = cs := by
      clear hne
      induction cs with
      | nil => exact ⟨[], rfl⟩
      | cons c cs ih =>
        obtain ⟨hc, hcs⟩ := List.forall_mem_cons.mp hdigits
        obtain ⟨d, rfl⟩ := Digit.exists_toChar hc
        obtain ⟨ds, rfl⟩ := ih hcs
        exact ⟨d :: ds, rfl⟩
    obtain ⟨ds, rfl⟩ := hread
    exact ⟨ds, by simpa using hne, rfl⟩
  · rintro ⟨ds, hne, rfl⟩
    exact ⟨by simpa using hne, fun c hc => Digit.isDigit_of_mem hc⟩

/-! ## Texts of decimals -/

namespace Decimal

theorem splitAt_of_forall {p : Char → Bool} {u : List Char} (h : ∀ c ∈ u, p c = false) :
    splitAt p u = (u, none) := by
  induction u with
  | nil => rfl
  | cons c u ih =>
    obtain ⟨hc, hu⟩ := List.forall_mem_cons.mp h
    simp [splitAt, hc, ih hu]

theorem splitAt_append {p : Char → Bool} {u : List Char} (h : ∀ c ∈ u, p c = false) {c : Char}
    (hc : p c = true) (v : List Char) : splitAt p (u ++ c :: v) = (u, some v) := by
  induction u with
  | nil => simp [splitAt, hc]
  | cons d u ih =>
    obtain ⟨hd, hu⟩ := List.forall_mem_cons.mp h
    simp [splitAt, hd, ih hu]

/-- No plus, and a digit in front of the point. -/
structure IsLiteral (d : Decimal) : Prop where
  sign_ne : d.sign ≠ .plus
  whole_ne_nil : d.whole ≠ []

def trimmed (d : Decimal) : Decimal :=
  { d with whole := Digit.trim d.whole }

/-- The point and the digits behind it. -/
def fractionChars (d : Decimal) : List Char :=
  if d.fraction.isEmpty then [] else '.' :: d.fraction.map Digit.toChar

/-- The text behind the sign. -/
def unsignedChars (d : Decimal) : List Char :=
  d.whole.map Digit.toChar ++ d.fractionChars

theorem toList_toText (d : Decimal) :
    d.toText.toList = d.sign.toText.toList ++ d.unsignedChars := by
  simp [toText, unsignedChars, fractionChars]

variable {d : Decimal}

theorem isDigit_or_point {c : Char} (hc : c ∈ d.unsignedChars) :
    Alphabet.isDigit c = true ∨ c = '.' := by
  rw [unsignedChars, fractionChars] at hc
  rcases List.mem_append.mp hc with hc | hc
  · exact .inl (Digit.isDigit_of_mem hc)
  · split at hc
    · cases hc
    · exact (List.mem_cons.mp hc).symm.imp_left Digit.isDigit_of_mem

theorem exists_unsignedChars_cons (h : d.IsLiteral) :
    ∃ (first : Digit) (others : List Char), d.unsignedChars = first.toChar :: others := by
  obtain ⟨first, others, hwhole⟩ := List.exists_cons_of_ne_nil h.whole_ne_nil
  rw [unsignedChars, hwhole]
  exact ⟨first, _, rfl⟩

/-- The first point is the one behind the whole part. -/
theorem splitAt_append_unsignedChars (d : Decimal) {u : List Char} (hu : '.' ∉ u) :
    splitAt (· == '.') (u ++ d.unsignedChars) = (u ++ d.whole.map Digit.toChar,
      if d.fraction.isEmpty then none else some (d.fraction.map Digit.toChar)) := by
  have hfront : ∀ c ∈ u ++ d.whole.map Digit.toChar, (c == '.') = false := by
    intro c hc
    rw [beq_eq_false_iff_ne]
    rcases List.mem_append.mp hc with hc | hc
    · rintro rfl
      exact hu hc
    · exact Digit.ne_of_isDigit (Digit.isDigit_of_mem hc) rfl
  rw [unsignedChars, ← List.append_assoc, fractionChars]
  split
  · rw [List.append_nil, splitAt_of_forall hfront]
  · rw [splitAt_append hfront rfl]

theorem splitAt_unsignedChars (d : Decimal) :
    splitAt (· == '.') d.unsignedChars = (d.whole.map Digit.toChar,
      if d.fraction.isEmpty then none else some (d.fraction.map Digit.toChar)) :=
  splitAt_append_unsignedChars d (u := []) List.not_mem_nil

theorem split_toText (h : d.IsLiteral) :
    SignMark.split d.toText.toList = (d.sign, d.unsignedChars) := by
  obtain ⟨first, others, hfirst⟩ := exists_unsignedChars_cons h
  have hminus : first.toChar ≠ '-' := Digit.ne_of_isDigit first.isDigit_toChar rfl
  have hplus : first.toChar ≠ '+' := Digit.ne_of_isDigit first.isDigit_toChar rfl
  rw [toList_toText]
  cases hs : d.sign with
  | none => simp [SignMark.toText, SignMark.split, hfirst, hminus, hplus]
  | minus => rfl
  | plus => exact absurd hs h.sign_ne

/-! ## Normalized texts -/

theorem trimZeros_map_toChar (ds : List Digit) :
    NumberLiteral.trimZeros (ds.map Digit.toChar) = (Digit.trim ds).map Digit.toChar := by
  have hzero : ((· == '0') ∘ Digit.toChar) = (· == Digit.zero) := by
    funext digit
    revert digit
    decide
  rw [NumberLiteral.trimZeros, List.dropWhile_map, hzero, Digit.trim]
  cases ds.dropWhile (· == Digit.zero) <;> rfl

theorem normalizedChars_unsignedChars (h : d.IsLiteral) :
    NumberLiteral.normalizedChars d.unsignedChars = d.trimmed.unsignedChars := by
  obtain ⟨first, others, hfirst⟩ := exists_unsignedChars_cons h
  have hminus : first.toChar ≠ '-' := Digit.ne_of_isDigit first.isDigit_toChar rfl
  rw [NumberLiteral.normalizedChars, splitAt_unsignedChars, unsignedChars, trimmed, fractionChars,
    ← trimZeros_map_toChar]
  · split_ifs <;> simp
  · simp [hfirst, hminus]

theorem normalizedChars_minus (d : Decimal) :
    NumberLiteral.normalizedChars ('-' :: d.unsignedChars) = '-' :: d.trimmed.unsignedChars := by
  rw [NumberLiteral.normalizedChars, splitAt_unsignedChars, unsignedChars, trimmed, fractionChars,
    ← trimZeros_map_toChar]
  split_ifs <;> simp

/-- Normalization takes zeros from the digits in front of the point and leaves all else. -/
theorem normalizedChars_toText (h : d.IsLiteral) :
    NumberLiteral.normalizedChars d.toText.toList = d.trimmed.toText.toList := by
  have hsign : d.trimmed.sign = d.sign := rfl
  rw [toList_toText, toList_toText, hsign]
  cases hs : d.sign with
  | none => exact normalizedChars_unsignedChars h
  | minus => exact normalizedChars_minus d
  | plus => exact absurd hs h.sign_ne

/-! ## The number that is written -/

/-- There is no exponent. -/
theorem read?_unsignedChars (h : d.IsLiteral) :
    Written.read? d.unsignedChars = some ⟨d.whole, d.fraction, 0⟩ := by
  have hexponent : ∀ c ∈ d.unsignedChars, (c == 'e' || c == 'E') = false := by
    intro c hc
    rcases isDigit_or_point hc with hdigit | rfl
    · rw [Bool.or_eq_false_iff, beq_eq_false_iff_ne, beq_eq_false_iff_ne]
      exact ⟨Digit.ne_of_isDigit hdigit rfl, Digit.ne_of_isDigit hdigit rfl⟩
    · rfl
  have hfraction : Digit.ofChars? ((if d.fraction.isEmpty then none
      else some (d.fraction.map Digit.toChar)).getD []) = some d.fraction := by
    split_ifs with hempty
    · rw [List.isEmpty_iff.mp hempty]
      rfl
    · exact Digit.ofChars?_map_toChar d.fraction
  simp only [Written.read?, splitAt_of_forall hexponent, splitAt_unsignedChars,
    Digit.ofChars?_map_toChar, hfraction]
  simp [h.whole_ne_nil]

/-- The number that is written. -/
def exact (d : Decimal) : ℚ :=
  Binary.signed (d.sign = .minus) (Written.magnitude ⟨d.whole, d.fraction, 0⟩)

theorem exact_trimmed (d : Decimal) : d.trimmed.exact = d.exact := by
  have hmagnitude : Written.magnitude ⟨d.trimmed.whole, d.fraction, 0⟩ =
      Written.magnitude ⟨d.whole, d.fraction, 0⟩ := by
    simp only [Written.magnitude, trimmed, Digit.value_trim]
  exact congrArg (Binary.signed _) hmagnitude

/-- The sign, the number and the digits behind the point leave open only zeros in front. -/
theorem trimmed_eq {d e : Decimal} (hsign : d.sign = e.sign) (hexact : d.exact = e.exact)
    (hlength : d.fraction.length = e.fraction.length) : d.trimmed = e.trimmed := by
  rw [exact, exact, hsign, Binary.signed_inj, Written.magnitude_eq, Written.magnitude_eq,
    hlength] at hexact
  have hvalue : Digit.value (d.whole ++ d.fraction) = Digit.value (e.whole ++ e.fraction) := by
    exact_mod_cast mul_right_cancel₀ (Binary.ten_zpow_pos _).ne' hexact
  obtain ⟨hwhole, hfraction⟩ := Digit.trim_eq_of_value_append_eq hlength hvalue
  rw [trimmed, trimmed, hsign, hwhole, hfraction]

end Decimal

/-! ## Literals -/

namespace NumberLiteral

/-- The mark in front of the digits. -/
def sign (n : NumberLiteral) : SignMark := (SignMark.split n.raw.toList).1

/-- What stands between the sign and the point. -/
def whole (n : NumberLiteral) : List Char :=
  (Decimal.splitAt (· == '.') (SignMark.split n.raw.toList).2).1

/-- The literal is a decimal as it is written. -/
structure Shows (n : NumberLiteral) (d : Decimal) : Prop where
  isLiteral : d.IsLiteral
  raw_eq : n.raw = d.toText

variable {n : NumberLiteral} {d : Decimal}

theorem wellFormed_iff_shows : n.WellFormed ↔ ∃ d, n.Shows d := by
  constructor
  · rintro ⟨sign, whole, fraction, hraw, hsign, hwhole, hfraction⟩
    obtain ⟨ds, hds, rfl⟩ := isDigits_iff.mp hwhole
    obtain ⟨es, hes⟩ : ∃ es : List Digit,
        fraction = if es.isEmpty then [] else '.' :: es.map Digit.toChar := by
      obtain rfl | ⟨digits, rfl, hdigits⟩ := hfraction
      · exact ⟨[], rfl⟩
      · obtain ⟨es, hes, rfl⟩ := isDigits_iff.mp hdigits
        exact ⟨es, by simp [hes]⟩
    obtain ⟨mark, hmark, hplus⟩ : ∃ mark : SignMark, sign = mark.toText.toList ∧ mark ≠ .plus := by
      obtain rfl | rfl := hsign
      · exact ⟨.none, rfl, by decide⟩
      · exact ⟨.minus, rfl, by decide⟩
    refine ⟨⟨mark, ds, es⟩, ⟨hplus, hds⟩, String.toList_inj.mp ?_⟩
    rw [Decimal.toList_toText, hraw, hes, hmark]
    rfl
  · rintro ⟨d, ⟨hplus, hwhole⟩, hraw⟩
    refine ⟨d.sign.toText.toList, d.whole.map Digit.toChar, d.fractionChars, ?_, ?_,
      isDigits_iff.mpr ⟨_, hwhole, rfl⟩, ?_⟩
    · rw [hraw, d.toList_toText, Decimal.unsignedChars]
    · cases hs : d.sign with
      | none => exact .inl rfl
      | minus => exact .inr rfl
      | plus => exact absurd hs hplus
    · rw [Decimal.fractionChars]
      split
      · exact .inl rfl
      · next hne => exact .inr ⟨_, rfl, isDigits_iff.mpr ⟨_, by simpa using hne, rfl⟩⟩

namespace Shows

theorem sign (h : n.Shows d) : n.sign = d.sign := by
  rw [NumberLiteral.sign, h.raw_eq, Decimal.split_toText h.isLiteral]

theorem whole (h : n.Shows d) : n.whole = d.whole.map Digit.toChar := by
  rw [NumberLiteral.whole, h.raw_eq, Decimal.split_toText h.isLiteral,
    Decimal.splitAt_unsignedChars]

theorem fractionDigits (h : n.Shows d) : n.fractionDigits = d.fraction.length := by
  have hsign : '.' ∉ d.sign.toText.toList := by cases d.sign <;> decide
  rw [NumberLiteral.fractionDigits, h.raw_eq, Decimal.toList_toText,
    Decimal.splitAt_append_unsignedChars d hsign]
  split_ifs with hempty
  · simp [List.isEmpty_iff.mp hempty]
  · have hascii : ∀ c ∈ (String.ofList (d.fraction.map Digit.toChar)).toList, c.toNat < 128 := by
      simpa using fun digit _ => Digit.toNat_toChar_lt digit
    refine (Position.utf8ByteSize_of_ascii hascii).trans ?_
    rw [String.length_ofList, List.length_map]

theorem rational? (h : n.Shows d) : n.rational? = some d.exact := by
  rw [NumberLiteral.rational?, h.raw_eq, Decimal.split_toText h.isLiteral]
  simp only [Decimal.read?_unsignedChars h.isLiteral]
  rfl

theorem normalized_eq (h : n.Shows d) : n.normalized = d.trimmed.toText := by
  rw [NumberLiteral.normalized, h.raw_eq, Decimal.normalizedChars_toText h.isLiteral,
    String.ofList_toList]

theorem normalized (h : n.Shows d) : Shows ⟨n.normalized⟩ d.trimmed :=
  ⟨⟨h.isLiteral.sign_ne, Digit.trim_ne_nil _⟩, h.normalized_eq⟩

theorem normalized_normalized (h : n.Shows d) :
    NumberLiteral.normalized ⟨n.normalized⟩ = n.normalized := by
  have htrimmed : d.trimmed.trimmed = d.trimmed := by
    rw [Decimal.trimmed, Decimal.trimmed, Digit.trim_trim]
  rw [h.normalized.normalized_eq, htrimmed, h.normalized_eq]

theorem whole_normalized (h : n.Shows d)
    (hzero : (NumberLiteral.whole ⟨n.normalized⟩).head? = some '0') :
    NumberLiteral.whole ⟨n.normalized⟩ = ['0'] := by
  rw [h.normalized.whole, Decimal.trimmed] at hzero ⊢
  obtain htrim | ⟨first, others, htrim, hfirst⟩ := Digit.trim_cases d.whole
  · rw [htrim]
    rfl
  · rw [htrim, List.map_cons, List.head?_cons, Option.some.injEq] at hzero
    exact absurd (Digit.toChar_eq_zero_iff.mp hzero) hfirst

theorem normalized_eq_iff {n' : NumberLiteral} {d' : Decimal} (h : n.Shows d) (h' : n'.Shows d') :
    n.normalized = n'.normalized ↔
      n.sign = n'.sign ∧ n.rational? = n'.rational? ∧ n.fractionDigits = n'.fractionDigits := by
  rw [h.sign, h'.sign, h.rational?, h'.rational?, h.fractionDigits, h'.fractionDigits,
    Option.some.injEq]
  constructor
  · intro hsame
    -- One literal shows both decimals without their redundant zeros.
    have hm := h.normalized
    have hm' := h'.normalized
    rw [← hsame] at hm'
    have hexact := Option.some.inj (hm.rational?.symm.trans hm'.rational?)
    rw [d.exact_trimmed, d'.exact_trimmed] at hexact
    exact ⟨hm.sign.symm.trans hm'.sign, hexact, hm.fractionDigits.symm.trans hm'.fractionDigits⟩
  · rintro ⟨hsign, hexact, hlength⟩
    rw [h.normalized_eq, h'.normalized_eq, Decimal.trimmed_eq hsign hexact hlength]

end Shows

/-- The normalized text is a literal with the same sign, number and digits behind the point, and
without redundant zeros. Normalizing it again changes nothing, and two literals have the same
normalized text if and only if they have the same sign, number and number of digits behind the
point. -/
theorem normalized_canonical (hn : n.WellFormed) :
    let m : NumberLiteral := ⟨n.normalized⟩
    m.WellFormed ∧ m.sign = n.sign ∧ (∃ x, n.rational? = some x ∧ m.rational? = some x) ∧
      m.fractionDigits = n.fractionDigits ∧ (m.whole.head? = some '0' → m.whole = ['0']) ∧
      m.normalized = n.normalized ∧
      ∀ n' : NumberLiteral, n'.WellFormed → (n.normalized = n'.normalized ↔
        n.sign = n'.sign ∧ n.rational? = n'.rational? ∧ n.fractionDigits = n'.fractionDigits) := by
  obtain ⟨d, hd⟩ := wellFormed_iff_shows.mp hn
  have hm := hd.normalized
  refine ⟨wellFormed_iff_shows.mpr ⟨_, hm⟩, hm.sign.trans hd.sign.symm,
    ⟨d.exact, hd.rational?, ?_⟩, hm.fractionDigits.trans hd.fractionDigits.symm,
    hd.whole_normalized, hd.normalized_normalized, fun n' hn' => ?_⟩
  · rw [hm.rational?, d.exact_trimmed]
  · obtain ⟨d', hd'⟩ := wellFormed_iff_shows.mp hn'
    exact hd.normalized_eq_iff hd'

/-- One half with redundant zeros on both sides; those behind the point stay. -/
theorem normalized_canonical_half :
    NumberLiteral.normalized ⟨"-00.50"⟩ = "-0.50" ∧
      NumberLiteral.sign ⟨"-0.50"⟩ = .minus ∧
      NumberLiteral.normalized ⟨"-00.50"⟩ ≠ NumberLiteral.normalized ⟨"-0.5"⟩ := by
  have hn : NumberLiteral.WellFormed ⟨"-00.50"⟩ :=
    wellFormed_iff_shows.mpr ⟨⟨.minus, [0, 0], [5, 0]⟩, ⟨by decide, by decide⟩, by decide⟩
  have hn' : NumberLiteral.WellFormed ⟨"-0.5"⟩ :=
    wellFormed_iff_shows.mpr ⟨⟨.minus, [0], [5]⟩, ⟨by decide, by decide⟩, by decide⟩
  have hnormal : NumberLiteral.normalized ⟨"-00.50"⟩ = "-0.50" := by decide
  obtain ⟨-, hsign, -, -, -, -, hiff⟩ := normalized_canonical hn
  rw [hnormal] at hsign
  refine ⟨hnormal, hsign.trans (by decide), fun hsame => ?_⟩
  have hdigits := ((hiff _ hn').mp hsame).2.2
  revert hdigits
  decide

end NumberLiteral

end Phrasebook
