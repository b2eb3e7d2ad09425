import Mathlib
import Phrasebook.Proofs.Source.Spelling

/-!
# String literals decode exactly

A string literal is a row of pieces between two quotes, and every piece stands for one
character. The pieces are described here by themselves: digits are looked up in a row of
digits, and an escape stands for the character that has its number. The reader accepts
these texts and no others, and no text divides into pieces in two ways.

## Main definitions

* `Hexadecimal`: the number that hexadecimal digits write.
* `Piece`: a character and a piece that stands for it.
* `Divides`: the literal at the front of a text, divided into pieces.
-/

namespace Phrasebook.Source

open Alphabet Phrasebook.Source.Parser

/-! ## Hexadecimal numbers -/

/-- A digit and its value, which is its place in a row of digits. -/
def IsHexDigit (d : Char) (value : Nat) : Prop :=
  ∃ row ∈ ["0123456789abcdef", "0123456789ABCDEF"], row.toList[value]? = some d

instance (d : Char) (value : Nat) : Decidable (IsHexDigit d value) :=
  inferInstanceAs (Decidable (∃ row ∈ _, _))

/-- The number that digits write, the highest digit first. -/
def Hexadecimal (digits : List Char) (n : Nat) : Prop :=
  ∃ values, List.Forall₂ IsHexDigit digits values ∧ n = Nat.ofDigits 16 values.reverse

theorem isHexDigit_toNat_lt {d : Char} (h : isHexDigit d = true) : d.toNat < 128 := by
  simp [isHexDigit, isDigit, Char.le_def, UInt32.le_iff_toNat_le] at h
  omega

theorem isHexDigit_iff {d : Char} {value : Nat} :
    IsHexDigit d value ↔ isHexDigit d = true ∧ hexDigitValue d = value := by
  have hrows : ∀ row ∈ ["0123456789abcdef", "0123456789ABCDEF"], ∀ v < row.toList.length,
      isHexDigit (row.toList.getD v ' ') = true ∧ hexDigitValue (row.toList.getD v ' ') = v := by
    decide
  have hascii : ∀ n < 128, isHexDigit (Char.ofNat n) = true →
      IsHexDigit (Char.ofNat n) (hexDigitValue (Char.ofNat n)) := by
    decide
  constructor
  · rintro ⟨row, hrow, hd⟩
    have hlt := (List.getElem?_eq_some_iff.mp hd).1
    simpa [hd] using hrows row hrow value hlt
  · rintro ⟨h, rfl⟩
    have hd := hascii d.toNat (isHexDigit_toNat_lt h)
    rw [Char.ofNat_toNat] at hd
    exact hd h

theorem hexadecimal_iff {digits : List Char} {n : Nat} :
    Hexadecimal digits n ↔ (∀ d ∈ digits, isHexDigit d = true) ∧ hexValue digits = n := by
  have hvalue : Nat.ofDigits 16 (digits.map hexDigitValue).reverse = hexValue digits := by
    rw [Nat.ofDigits_eq_foldr, List.foldr_reverse, List.foldl_map, hexValue]
    simp only [Nat.cast_id, Nat.add_comm]
  have hvalues : ∀ values, List.Forall₂ IsHexDigit digits values ↔
      (∀ d ∈ digits, isHexDigit d = true) ∧ digits.map hexDigitValue = values := by
    intro values
    rw [← List.forall₂_eq_eq_eq, List.forall₂_map_left_iff, ← List.forall₂_and_left]
    exact ⟨.imp fun _ _ => isHexDigit_iff.mp, .imp fun _ _ => isHexDigit_iff.mpr⟩
  simp only [Hexadecimal, hvalues]
  constructor
  · rintro ⟨_, ⟨hall, rfl⟩, rfl⟩
    exact ⟨hall, hvalue.symm⟩
  · rintro ⟨hall, rfl⟩
    exact ⟨_, ⟨hall, rfl⟩, hvalue.symm⟩

/-- The numbers of characters are the code points, without the surrogates. -/
theorem codePoint?_eq_some {n : Nat} {c : Char} : codePoint? n = some c ↔ c.toNat = n := by
  unfold codePoint?
  split
  · next hvalid =>
    have hn : (Char.ofNat n).toNat = n := by
      simp [Char.ofNat, hvalid, Char.ofNatAux, Char.toNat]
    rw [Option.some.injEq, ← Char.toNat_inj, hn, eq_comm]
  · next hvalid =>
    simp only [reduceCtorEq, false_iff]
    rintro rfl
    exact hvalid c.valid

/-! ## Pieces -/

/-- The pieces that stand for a character. -/
inductive Piece : Char → List Char → Prop
  | itself {c : Char} : c ≠ '"' → c ≠ '\\' → c ≠ '\n' → Piece c [c]
  | quote : Piece '"' ['\\', '"']
  | backslash : Piece '\\' ['\\', '\\']
  | short {c : Char} {digits : List Char} : digits.length = 4 → Hexadecimal digits c.toNat →
      Piece c ('\\' :: 'u' :: digits)
  | long {c : Char} {digits : List Char} : digits.length = 6 → Hexadecimal digits c.toNat →
      Piece c ('\\' :: 'U' :: digits)

theorem piece_iff_charSpelling {c : Char} {s : List Char} : Piece c s ↔ CharSpelling c s := by
  have hcode : ∀ digits, Hexadecimal digits c.toNat ↔
      (∀ d ∈ digits, isHexDigit d = true) ∧ codePoint? (hexValue digits) = some c := by
    intro digits
    rw [hexadecimal_iff, codePoint?_eq_some, eq_comm]
  constructor
  · rintro (⟨hquote, hback, hline⟩ | _ | _ | ⟨hlength, hn⟩ | ⟨hlength, hn⟩)
    · exact .plain hquote hback hline
    · exact .mark (.inl rfl)
    · exact .mark (.inr rfl)
    · exact .code (.inl ⟨rfl, hlength⟩) ((hcode _).mp hn).1 ((hcode _).mp hn).2
    · exact .code (.inr ⟨rfl, hlength⟩) ((hcode _).mp hn).1 ((hcode _).mp hn).2
  · rintro (⟨hquote, hback, hline⟩ | (rfl | rfl) | ⟨⟨rfl, hlength⟩ | ⟨rfl, hlength⟩, hall, hc⟩)
    · exact .itself hquote hback hline
    · exact .quote
    · exact .backslash
    · exact .short hlength ((hcode _).mpr ⟨hall, hc⟩)
    · exact .long hlength ((hcode _).mpr ⟨hall, hc⟩)

theorem Piece.head_ne_quote {c : Char} {piece : List Char} (h : Piece c piece) (u : List Char) :
    ∃ d s, piece ++ u = d :: s ∧ d ≠ '"' := by
  cases h with
  | itself hquote => exact ⟨c, u, rfl, hquote⟩
  | quote | backslash | short | long => exact ⟨'\\', _, rfl, by decide⟩

/-- The first two characters of a piece tell how long it is, so no piece goes on another. -/
theorem Piece.eq_of_append {c c' : Char} {piece piece' u u' : List Char} (h : Piece c piece)
    (h' : Piece c' piece') (heq : piece ++ u = piece' ++ u') : piece = piece' ∧ u = u' := by
  have hlength : piece.length = piece'.length := by
    cases h <;> cases h' <;> grind
  exact List.append_inj heq hlength

/-! ## What the reader accepts -/

theorem spelling_of_codeEscape {mark c : Char} {count : Nat} {s rest : List Char}
    (hmark : (mark = 'u' ∧ count = 4) ∨ (mark = 'U' ∧ count = 6))
    (h : codeEscape mark count s = .done c rest) :
    ∃ piece, CharSpelling c ('\\' :: piece) ∧ s = piece ++ rest := by
  obtain ⟨digits, hread, hcode⟩ := codeEscape_eq_done.mp h
  obtain ⟨_, after, hchar, hdigits⟩ := bind_eq_done.mp hread
  obtain rfl := char_eq_done.mp hchar
  obtain ⟨rfl, rfl, hall⟩ := hexDigits_eq_done.mp hdigits
  exact ⟨mark :: digits, .code hmark hall hcode, rfl⟩

theorem spelling_of_escape {c : Char} {s rest : List Char} (h : escape s = .done c rest) :
    ∃ piece, CharSpelling c ('\\' :: piece) ∧ s = piece ++ rest := by
  simp only [escape, label_eq_done, or_eq_done, satisfy_eq_done] at h
  obtain ⟨rfl, hc⟩ | ⟨_, _, _, h | ⟨_, _, _, h⟩⟩ := h
  · exact ⟨[c], .mark (by simpa using hc), rfl⟩
  · exact spelling_of_codeEscape (.inl ⟨rfl, rfl⟩) h
  · exact spelling_of_codeEscape (.inr ⟨rfl, rfl⟩) h

/-- Every round of the reader takes one piece. -/
theorem spelling_of_quoted {s cs rest : List Char} (h : quoted s = .done cs rest) :
    ∃ pieces, List.Forall₂ CharSpelling cs pieces ∧ s = pieces.flatten ++ '"' :: rest := by
  fun_induction quoted s generalizing cs with
  | case1 => cases h
  | case2 =>
    cases h
    exact ⟨[], .nil, rfl⟩
  | case3 => cases h
  | case4 s c after hescape _ _ ih =>
    obtain ⟨cs', hafter, rfl⟩ := Outcome.map_eq_done.mp h
    obtain ⟨pieces, hpieces, rfl⟩ := ih hafter
    obtain ⟨piece, hpiece, rfl⟩ := spelling_of_escape hescape
    exact ⟨('\\' :: piece) :: pieces, .cons hpiece hpieces, by simp⟩
  | case5 => cases h
  | case6 c s hquote hline hback ih =>
    obtain ⟨cs', hafter, rfl⟩ := Outcome.map_eq_done.mp h
    obtain ⟨pieces, hpieces, rfl⟩ := ih hafter
    exact ⟨[c] :: pieces, .cons (.plain hquote hback hline) hpieces, rfl⟩

/-! ## The literal at the front of a text -/

/-- A text begins with a literal: its pieces stand for the characters of a text, and then
comes the closing quote with the rest behind it. -/
structure Divides (s : List Char) (pieces : List (List Char)) (text : String)
    (rest : List Char) : Prop where
  spells : List.Forall₂ Piece text.toList pieces
  enclosed : s = '"' :: (pieces.flatten ++ '"' :: rest)

theorem pieces_iff_spellings {cs : List Char} {pieces : List (List Char)} :
    List.Forall₂ Piece cs pieces ↔ List.Forall₂ CharSpelling cs pieces :=
  ⟨.imp fun _ _ => piece_iff_charSpelling.mp, .imp fun _ _ => piece_iff_charSpelling.mpr⟩

theorem exists_divides_of_stringLiteral {s rest : List Char} {text : String}
    (h : stringLiteral s = .done text rest) : ∃ pieces, Divides s pieces text rest := by
  obtain ⟨_, after, hquote, hcontent⟩ := bind_eq_done.mp h
  obtain rfl := char_eq_done.mp hquote
  obtain ⟨cs, _, hquoted, hvalue⟩ := bind_eq_done.mp hcontent
  cases hvalue
  obtain ⟨pieces, hpieces, rfl⟩ := spelling_of_quoted hquoted
  exact ⟨pieces, by rwa [String.toList_ofList, pieces_iff_spellings], rfl⟩

theorem Divides.stringLiteral {s rest : List Char} {pieces : List (List Char)} {text : String}
    (h : Divides s pieces text rest) : stringLiteral s = .done text rest := by
  have hspelling : TextSpelling text ('"' :: (pieces.flatten ++ ['"'])) :=
    ⟨pieces, pieces_iff_spellings.mp h.spells, rfl⟩
  have hread := stringLiteral_of_spelling hspelling rest
  rwa [List.cons_append, List.append_assoc, List.singleton_append, ← h.enclosed] at hread

/-- The closing quote opens no piece, and no piece goes on another one, so the first pieces of
two divisions are the same and so are the others. -/
theorem eq_of_flatten_eq {cs cs' : List Char} {pieces pieces' : List (List Char)}
    {rest rest' : List Char} (h : List.Forall₂ Piece cs pieces)
    (h' : List.Forall₂ Piece cs' pieces')
    (heq : pieces.flatten ++ '"' :: rest = pieces'.flatten ++ '"' :: rest') :
    pieces = pieces' := by
  induction h generalizing cs' pieces' with
  | nil =>
    cases h' with
    | nil => rfl
    | cons hpiece _ =>
      obtain ⟨d, s, hs, hd⟩ := hpiece.head_ne_quote _
      rw [List.flatten_cons, List.append_assoc, hs] at heq
      exact absurd (List.cons.inj heq).1.symm hd
  | cons hpiece _ ih =>
    cases h' with
    | nil =>
      obtain ⟨d, s, hs, hd⟩ := hpiece.head_ne_quote _
      rw [List.flatten_cons, List.append_assoc, hs] at heq
      exact absurd (List.cons.inj heq).1 hd
    | cons hpiece' hpieces' =>
      simp only [List.flatten_cons, List.append_assoc] at heq
      obtain ⟨rfl, hothers⟩ := hpiece.eq_of_append hpiece' heq
      rw [ih hpieces' hothers]

/-- The reader accepts a text if and only if a literal stands at its front, and gives the
characters that its pieces stand for. There is only one way to divide a text, and every text
can be written between quotes, whatever its characters are. -/
theorem stringLiteral_exact :
    (∀ s text rest, stringLiteral s = .done text rest ↔ ∃ pieces, Divides s pieces text rest) ∧
    (∀ s pieces text rest pieces' text' rest', Divides s pieces text rest →
      Divides s pieces' text' rest' → pieces = pieces' ∧ text = text' ∧ rest = rest') ∧
    ∀ text rest, stringLiteral (writeText text ++ rest) = .done text rest := by
  refine ⟨fun s text rest => ?_, fun s pieces text rest pieces' text' rest' h h' => ?_,
    fun text rest => ?_⟩
  · constructor
    · exact exists_divides_of_stringLiteral
    · rintro ⟨pieces, h⟩
      exact h.stringLiteral
  · have hanswer := h.stringLiteral.symm.trans h'.stringLiteral
    obtain ⟨rfl, rfl⟩ := Outcome.done.inj hanswer
    have heq := h.enclosed.symm.trans h'.enclosed
    exact ⟨eq_of_flatten_eq h.spells h'.spells (List.cons.inj heq).2, rfl, rfl⟩
  · exact stringLiteral_of_spelling (textSpelling_writeText text) rest

/-- All kinds of pieces side by side, with more text behind the closing quote. -/
theorem stringLiteral_exact_escapes :
    let s := "\"a\\\"\\\\\\u00e9\\U01F600\" b".toList
    let pieces := [['a'], ['\\', '"'], ['\\', '\\'], ['\\', 'u', '0', '0', 'e', '9'],
      ['\\', 'U', '0', '1', 'F', '6', '0', '0']]
    Divides s pieces "a\"\\é😀" " b".toList ∧
      stringLiteral s = .done "a\"\\é😀" " b".toList ∧
      ∀ pieces' text' rest', Divides s pieces' text' rest' →
        pieces = pieces' ∧ "a\"\\é😀" = text' ∧ " b".toList = rest' := by
  intro s pieces
  have hshort : Hexadecimal ['0', '0', 'e', '9'] 'é'.toNat :=
    hexadecimal_iff.mpr ⟨by simp [isHexDigit, isDigit], rfl⟩
  have hlong : Hexadecimal ['0', '1', 'F', '6', '0', '0'] '😀'.toNat :=
    hexadecimal_iff.mpr ⟨by simp [isHexDigit, isDigit], rfl⟩
  have hspells : List.Forall₂ Piece "a\"\\é😀".toList pieces :=
    .cons (.itself (by decide) (by decide) (by decide)) <| .cons .quote <| .cons .backslash <|
      .cons (.short rfl hshort) <| .cons (.long rfl hlong) .nil
  have h : Divides s pieces "a\"\\é😀" " b".toList := ⟨hspells, by decide⟩
  exact ⟨h, (stringLiteral_exact.1 _ _ _).mpr ⟨pieces, h⟩,
    fun _ _ _ h' => stringLiteral_exact.2.1 _ _ _ _ _ _ _ h h'⟩

end Phrasebook.Source
