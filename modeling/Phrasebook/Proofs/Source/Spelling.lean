import Mathlib.Data.List.Forall2
import Phrasebook.Proofs.Resource.WellFormed
import Phrasebook.Proofs.Source.Grammar
import Phrasebook.Source.Writer

/-!
# Spellings of inline expressions

A source text may choose how to write a character between quotes: as it is, behind a
backslash, or by its code point. Names and numbers have one spelling only, but a variant
key may have blanks inside its brackets. The spellings are given here without the reader;
whatever spelling a text chooses, the reader finds the same characters.

## Main definitions

* `CharSpelling`: the ways to write one character between quotes.
* `TextSpelling`: the ways to write a text, a spelling for each of its characters.
* `InlineSpelling`, `KeySpelling`: the ways to write an inline expression and a variant key.
-/

namespace Phrasebook.Source

open Alphabet Phrasebook.Source.Parser

/-- The ways to write a character between quotes. -/
inductive CharSpelling : Char → List Char → Prop
  | plain {c : Char} : c ≠ '"' → c ≠ '\\' → c ≠ '\n' → CharSpelling c [c]
  | mark {c : Char} : c = '"' ∨ c = '\\' → CharSpelling c ['\\', c]
  | code {c mark : Char} {digits : List Char} :
      (mark = 'u' ∧ digits.length = 4) ∨ (mark = 'U' ∧ digits.length = 6) →
      (∀ d ∈ digits, isHexDigit d = true) → codePoint? (hexValue digits) = some c →
      CharSpelling c ('\\' :: mark :: digits)

/-- A text between quotes, with a spelling for each of its characters. -/
def TextSpelling (text : String) (s : List Char) : Prop :=
  ∃ pieces, List.Forall₂ CharSpelling text.toList pieces ∧ s = '"' :: (pieces.flatten ++ ['"'])

/-- The ways to write an inline expression. -/
def InlineSpelling : Inline → List Char → Prop
  | .text value, s => TextSpelling value s
  | e, s => e.WellFormed ∧ s = writeInline e

/-- What stands between the brackets of a variant key. -/
def keyText : VariantKey → List Char
  | .name value => value.toList
  | .number literal => literal.raw.toList

/-- A variant key in its brackets, with blanks around it. -/
def KeySpelling (key : VariantKey) (s : List Char) : Prop :=
  key.WellFormed ∧ ∃ b b', Blank b ∧ Blank b' ∧ s = '[' :: (b ++ (keyText key ++ (b' ++ [']'])))

/-! ## The spelling of the writer -/

theorem charSpelling_writeChar (c : Char) : CharSpelling c (writeChar c) := by
  unfold writeChar
  split
  · next h => exact .mark h
  · next h =>
    obtain ⟨hquote, hback⟩ := not_or.mp h
    split
    · next hline =>
      subst hline
      exact .code (.inl ⟨rfl, rfl⟩) (by simp [isHexDigit, isDigit]) (by decide)
    · next hline => exact .plain hquote hback hline

theorem textSpelling_writeText (text : String) : TextSpelling text (writeText text) := by
  refine ⟨text.toList.map writeChar, ?_, ?_⟩
  · rw [List.forall₂_map_right_iff, List.forall₂_same]
    exact fun c _ => charSpelling_writeChar c
  · rw [writeText, List.flatMap_def, List.cons_append]

theorem inlineSpelling_writeInline {e : Inline} (h : e.WellFormed) :
    InlineSpelling e (writeInline e) := by
  cases e with
  | text value => exact textSpelling_writeText value
  | number | argument | message | term => exact ⟨h, rfl⟩

theorem keySpelling_writeKey {key : VariantKey} (h : key.WellFormed) :
    KeySpelling key (writeKey key) := by
  refine ⟨h, [], [], .nil, .nil, ?_⟩
  cases key <;> rfl

/-! ## Reading a spelling -/

theorem codeEscape_append {c mark : Char} {digits : List Char}
    (hdigits : ∀ d ∈ digits, isHexDigit d = true) (hc : codePoint? (hexValue digits) = some c)
    (rest : List Char) :
    codeEscape mark digits.length (mark :: (digits ++ rest)) = .done c rest :=
  codeEscape_eq_done.mpr ⟨digits, (bind_of_done char_of_head).trans
    (hexDigits_eq_done.mpr ⟨rfl, rfl, hdigits⟩), hc⟩

theorem refuses_codeEscape_of_head {mark : Char} {count : Nat} {s : List Char}
    (h : s.head? ≠ some mark) : Refuses (codeEscape mark count) s :=
  refuses_codeEscape.mpr (.inl (refuses_char.mpr h).bind)

/-- What stands behind a backslash denotes the character that it spells. -/
theorem escape_of_spelling {c : Char} {piece : List Char} (h : CharSpelling c ('\\' :: piece))
    (rest : List Char) : escape (piece ++ rest) = .done c rest := by
  refine label_eq_done.mpr ?_
  generalize hback : '\\' :: piece = s at h
  cases h with
  | plain _ hne _ =>
    obtain ⟨rfl, -⟩ := List.cons.inj hback
    exact absurd rfl hne
  | mark hc =>
    obtain ⟨-, rfl⟩ := List.cons.inj hback
    exact or_of_done (satisfy_eq_done.mpr ⟨rfl, by simpa using hc⟩)
  | @code mark digits hmark hdigits hcode =>
    obtain ⟨-, rfl⟩ := List.cons.inj hback
    have hread : codeEscape mark digits.length (mark :: (digits ++ rest)) = .done c rest :=
      codeEscape_append hdigits hcode rest
    rw [List.cons_append]
    obtain ⟨rfl, hcount⟩ | ⟨rfl, hcount⟩ := hmark <;> rw [hcount] at hread
    · rw [or_of_refuses (refuses_satisfy.mpr (by simp))]
      exact or_of_done hread
    · rw [or_of_refuses (refuses_satisfy.mpr (by simp)),
        or_of_refuses (refuses_codeEscape_of_head (by simp))]
      exact hread

theorem quoted_of_spelling {cs : List Char} {pieces : List (List Char)}
    (h : List.Forall₂ CharSpelling cs pieces) (rest : List Char) :
    quoted (pieces.flatten ++ '"' :: rest) = .done cs rest := by
  induction h with
  | nil => exact quoted_close rest
  | @cons c piece cs pieces hc _ ih =>
    rw [List.flatten_cons, List.append_assoc]
    have hescaped : ∀ s, CharSpelling c ('\\' :: s) →
        quoted ('\\' :: (s ++ (pieces.flatten ++ '"' :: rest))) = .done (c :: cs) rest := by
      intro s hs
      rw [quoted_escape (escape_of_spelling hs _), ih]
      rfl
    cases hc with
    | plain hquote hback hline =>
      rw [List.singleton_append, quoted_cons hquote hline hback, ih]
      rfl
    | mark h => exact hescaped [c] (.mark h)
    | code hmark hdigits hcode => exact hescaped _ (.code hmark hdigits hcode)

theorem stringLiteral_of_spelling {text : String} {s : List Char} (h : TextSpelling text s)
    (rest : List Char) : stringLiteral (s ++ rest) = .done text rest := by
  obtain ⟨pieces, hpieces, rfl⟩ := h
  have hquoted := quoted_of_spelling hpieces rest
  rw [stringLiteral, List.cons_append, bind_of_done char_of_head, List.append_assoc,
    List.singleton_append, bind_of_done hquoted, pure_apply, String.ofList_toList]

end Phrasebook.Source
