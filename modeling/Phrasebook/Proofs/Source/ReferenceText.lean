import Mathlib.Computability.Language
import Phrasebook.Proofs.Formatting.Meaning
import Phrasebook.Proofs.Source.Reading
import Phrasebook.Proofs.Source.Soundness

/-!
# The texts of references

The texts that name a message or one of its attributes form a regular language. The reader
accepts exactly the words of this language, and a reference is written the way it was read.
So the written forms of references tell them apart, and those of messages and terms have
none in common.

## Main definitions

* `Source.identifiers`: the language `[A-Za-z_][A-Za-z0-9_-]*`.
* `Source.references`: an identifier, and possibly a dot and another identifier.
* `Reference.Valid`: a reference whose names are identifiers.
-/

namespace Phrasebook

namespace Source

open Alphabet Phrasebook.Source.Parser
open scoped Computability

/-! ## The language -/

/-- One character of a class. -/
def oneOf (members : Set Char) : Language Char :=
  {s | ∃ c ∈ members, s = [c]}

/-- `[A-Za-z_]` -/
def nameStarts : Set Char :=
  Set.Icc 'A' 'Z' ∪ Set.Icc 'a' 'z' ∪ {'_'}

/-- `[A-Za-z0-9_-]` -/
def nameParts : Set Char :=
  Set.Icc 'A' 'Z' ∪ Set.Icc 'a' 'z' ∪ Set.Icc '0' '9' ∪ {'_', '-'}

/-- `[A-Za-z_][A-Za-z0-9_-]*` -/
def identifiers : Language Char :=
  oneOf nameStarts * (oneOf nameParts)∗

/-- An identifier that may have a dot and another identifier behind it. -/
def references : Language Char :=
  identifiers * (1 + oneOf {'.'} * identifiers)

theorem mem_oneOf {members : Set Char} {s : List Char} :
    s ∈ oneOf members ↔ ∃ c ∈ members, s = [c] := Iff.rfl

theorem mem_nameStarts {c : Char} : c ∈ nameStarts ↔ isNameStart c = true := by
  simp [nameStarts, isNameStart, isLetter]
  tauto

theorem mem_nameParts {c : Char} : c ∈ nameParts ↔ isNamePart c = true := by
  simp [nameParts, isNamePart, isLetter, isDigit]
  tauto

theorem mem_kstar_oneOf {members : Set Char} {s : List Char} :
    s ∈ (oneOf members)∗ ↔ ∀ c ∈ s, c ∈ members := by
  rw [Language.mem_kstar]
  constructor
  · rintro ⟨words, rfl, hwords⟩ c hc
    obtain ⟨word, hword, hc⟩ := List.mem_flatten.mp hc
    obtain ⟨d, hd, rfl⟩ := hwords word hword
    obtain rfl := List.mem_singleton.mp hc
    exact hd
  · intro h
    refine ⟨s.map fun c => [c], ?_, fun word hword => ?_⟩
    · rw [← List.flatMap_def, List.flatMap_singleton']
    obtain ⟨c, hc, rfl⟩ := List.mem_map.mp hword
    exact ⟨c, h c hc, rfl⟩

theorem mem_oneOf_mul {members : Set Char} {language : Language Char} {s : List Char} :
    s ∈ oneOf members * language ↔ ∃ c ∈ members, ∃ t ∈ language, s = c :: t := by
  simp only [Language.mem_mul, mem_oneOf]
  constructor
  · rintro ⟨_, ⟨c, hc, rfl⟩, t, ht, rfl⟩
    exact ⟨c, hc, t, ht, rfl⟩
  · rintro ⟨c, hc, t, ht, rfl⟩
    exact ⟨[c], ⟨c, hc, rfl⟩, t, ht, rfl⟩

theorem mem_identifiers {name : String} : name.toList ∈ identifiers ↔ IsName name := by
  simp only [identifiers, mem_oneOf_mul, mem_kstar_oneOf, mem_nameStarts, mem_nameParts, IsName]
  constructor
  · rintro ⟨c, hc, cs, hcs, htext⟩
    exact ⟨c, cs, htext, hc, hcs⟩
  · rintro ⟨c, cs, htext, hc, hcs⟩
    exact ⟨c, hc, cs, hcs, htext⟩

end Source

open Alphabet Source

/-- Every name in the reference is an identifier. -/
def Reference.Valid (r : Reference) : Prop :=
  r.id.toList ∈ identifiers ∧ ∀ name ∈ r.attr, name.toList ∈ identifiers

theorem Reference.valid_iff_wellFormed {r : Reference} : r.Valid ↔ r.WellFormed := by
  simp only [Reference.Valid, Reference.WellFormed, mem_identifiers, Option.mem_def]

/-- The words of the language are the written forms of valid references. -/
theorem Source.mem_references {text : String} :
    text.toList ∈ references ↔ ∃ r : Reference, r.Valid ∧ r.toText = text := by
  simp only [references, Language.mem_mul, Language.mem_add, Language.mem_one]
  constructor
  · rintro ⟨id, hid, tail, htail, htext⟩
    rw [← String.toList_ofList (l := id)] at hid
    obtain rfl | htail := htail
    · refine ⟨⟨String.ofList id, none⟩, ⟨hid, by simp⟩, ?_⟩
      rw [List.append_nil] at htext
      simp [Reference.toText, htext]
    · obtain ⟨_, rfl, name, hname, rfl⟩ := mem_oneOf_mul.mp htail
      rw [← String.toList_ofList (l := name)] at hname
      refine ⟨⟨String.ofList id, some (String.ofList name)⟩, ⟨hid, by simpa using hname⟩, ?_⟩
      apply String.toList_injective
      simp [Reference.toText, ← htext]
  · rintro ⟨⟨id, attr⟩, ⟨hid, hattr⟩, rfl⟩
    refine ⟨id.toList, hid, ?_⟩
    cases attr with
    | none => exact ⟨[], .inl rfl, by simp [Reference.toText]⟩
    | some name =>
      have hname := hattr name rfl
      exact ⟨'.' :: name.toList, .inr (mem_oneOf_mul.mpr ⟨'.', rfl, _, hname, rfl⟩),
        by simp [Reference.toText]⟩

/-! ## Reading -/

namespace Source

open Phrasebook.Source.Parser

theorem eq_append_of_identifier {s rest : List Char} {name : String}
    (h : identifier s = .done name rest) : s = name.toList ++ rest := by
  obtain ⟨c, after, hfirst, hothers⟩ := bind_eq_done.mp h
  obtain ⟨rfl, -⟩ := satisfy_eq_done.mp hfirst
  cases hothers
  simp [List.takeWhile_append_dropWhile]

/-- What is read of a reference is its written form. -/
theorem eq_append_of_reference {s rest : List Char} {r : Reference}
    (h : reference s = .done r rest) : s = r.toText.toList ++ rest := by
  obtain ⟨id, after, hid, htail⟩ := bind_eq_done.mp h
  obtain rfl := eq_append_of_identifier hid
  obtain ⟨attr, _, hattr, hvalue⟩ := bind_eq_done.mp htail
  cases hvalue
  obtain ⟨name, rfl, hname⟩ | ⟨rfl, rfl, -⟩ := optional_eq_done.mp hattr
  · obtain ⟨_, behind, hdot, hname⟩ := bind_eq_done.mp hname
    obtain rfl := char_eq_done.mp hdot
    obtain rfl := eq_append_of_identifier hname
    simp [Reference.toText]
  · rfl

end Source

namespace Reference

theorem parse_eq_ok_iff {text : String} {r : Reference} :
    Reference.parse text = .ok r ↔ r.Valid ∧ r.toText = text := by
  rw [Reference.parse, complete_eq_ok]
  constructor
  · rintro ⟨-, hread⟩
    refine ⟨valid_iff_wellFormed.mpr (yields_reference _ _ _ hread), ?_⟩
    apply String.toList_injective
    simpa using (eq_append_of_reference hread).symm
  · rintro ⟨hr, rfl⟩
    have hread : reference (r.toText.toList ++ []) = .done r [] :=
      reference_append (valid_iff_wellFormed.mp hr) (by rintro _ ⟨⟩)
    rw [List.append_nil] at hread
    refine ⟨?_, hread⟩
    intro hempty
    rw [hempty] at hread
    cases hread

/-- Reading accepts the language of references and gives a reference that is written as the
text; whatever has valid names is read back from its written form. So the keys of calls, which
are written forms, differ for different references, and for messages and terms. -/
theorem parse_exact :
    (∀ text, (∃ r, Reference.parse text = .ok r) ↔ text.toList ∈ references) ∧
    (∀ text r, Reference.parse text = .ok r → r.toText = text) ∧
    (∀ r : Reference, r.Valid → Reference.parse r.toText = .ok r) ∧
    ∀ r r' : Reference, r.Valid → r'.Valid →
      (r.toText = r'.toText → r = r') ∧ (r.toTermText = r'.toTermText → r = r') ∧
        r.toText ≠ r'.toTermText := by
  have hback : ∀ r : Reference, r.Valid → Reference.parse r.toText = .ok r :=
    fun r hr => parse_eq_ok_iff.mpr ⟨hr, rfl⟩
  have hinj : ∀ r r' : Reference, r.Valid → r'.Valid → r.toText = r'.toText → r = r' := by
    intro r r' hr hr' heq
    have hread := hback r hr
    rw [heq, hback r' hr'] at hread
    exact (Except.ok.inj hread).symm
  refine ⟨fun text => ?_, fun text r h => (parse_eq_ok_iff.mp h).2, hback,
    fun r r' hr hr' => ⟨hinj r r' hr hr', fun heq => hinj r r' hr hr' ?_, ?_⟩⟩
  · simp only [parse_eq_ok_iff, mem_references]
  · simpa [toTermText, String.ext_iff] using heq
  · exact (valid_iff_wellFormed.mp hr).toText_ne_toTermText

/-- A name with a dash, by itself and in front of an attribute. -/
theorem parse_exact_attribute :
    let r : Reference := ⟨"a-1", some "_b"⟩
    let r' : Reference := ⟨"a-1", none⟩
    r.Valid ∧ r'.Valid ∧ Reference.parse "a-1._b" = .ok r ∧ "a-1._b".toList ∈ references ∧
      (r.toTermText = r'.toTermText → r = r') ∧ r.toText ≠ r'.toTermText := by
  intro r r'
  have hid : IsName "a-1" :=
    ⟨'a', ['-', '1'], rfl, by decide, by simp [isNamePart, isLetter, isDigit]⟩
  have hname : IsName "_b" := ⟨'_', ['b'], rfl, by decide, by simp [isNamePart, isLetter, isDigit]⟩
  have hr : r.Valid := valid_iff_wellFormed.mpr ⟨hid, by rintro _ ⟨⟩; exact hname⟩
  have hr' : r'.Valid := valid_iff_wellFormed.mpr ⟨hid, by rintro _ ⟨⟩⟩
  obtain ⟨hmem, -, hback, hkeys⟩ := parse_exact
  exact ⟨hr, hr', hback r hr, (hmem _).mp ⟨r, hback r hr⟩, (hkeys r r' hr hr').2⟩

end Reference

end Phrasebook
