import Phrasebook.Proofs.Source.Grammar
import Phrasebook.Source.Entry

/-!
# Reading only goes forward

Whatever a parser does, what it leaves is an ending of the text it was given: the rest
behind what it read, or the place where it failed. Every combinator keeps this, so every
production of the grammar has it.
-/

namespace Phrasebook.Source

open Alphabet

/-- What is left where the reading ended or failed. -/
def Outcome.rest {α : Type} : Outcome α → List Char
  | .done _ r => r
  | .failed e => e.rest

@[simp] theorem Outcome.rest_done {α : Type} (a : α) (r : List Char) :
    (Outcome.done a r).rest = r := rfl

@[simp] theorem Outcome.rest_failed {α : Type} (e : Failure) :
    (Outcome.failed e : Outcome α).rest = e.rest := rfl

@[simp] theorem Outcome.rest_map {α β : Type} (f : α → β) (o : Outcome α) :
    (o.map f).rest = o.rest := by
  cases o <;> rfl

/-- A parser that leaves an ending of its text in every case. -/
def Parser.Advances {α : Type} (p : Parser α) : Prop :=
  ∀ s, (p s).rest <:+ s

namespace Parser

variable {α β : Type} {p q : Parser α} {f : α → Parser β}

theorem Advances.of_done (hp : p.Advances) {s r : List Char} {a : α} (h : p s = .done a r) :
    r <:+ s := by
  simpa [h] using hp s

theorem Advances.of_failed (hp : p.Advances) {s : List Char} {e : Failure}
    (h : p s = .failed e) : e.rest <:+ s := by
  simpa [h] using hp s

/-! ## Combinators -/

theorem Advances.pure (a : α) : Advances (pure a) := fun _ => List.suffix_rfl

theorem Advances.fail : Advances (fail : Parser α) := fun _ => List.suffix_rfl

theorem Advances.bind (hp : p.Advances) (hf : ∀ a, (f a).Advances) : (p >>= f).Advances := by
  intro s
  rw [bind_apply]
  cases h : p s with
  | done a r => exact (hf a r).trans (hp.of_done h)
  | failed e => exact hp.of_failed h

theorem Advances.map (hp : p.Advances) (g : α → β) : (g <$> p).Advances :=
  hp.bind fun a => .pure (g a)

theorem Advances.or (hp : p.Advances) (hq : q.Advances) : (p.or q).Advances := by
  intro s
  obtain ⟨h, -⟩ | ⟨-, h⟩ := or_cases p q s
  · exact h ▸ hp s
  · exact h ▸ hq s

theorem Advances.optional (hp : p.Advances) : p.optional.Advances := by
  intro s
  simp only [Parser.optional]
  split
  · next a r h => exact hp.of_done h
  · next e h =>
    split
    · exact hp.of_failed h
    · exact List.suffix_rfl

theorem Advances.commit (hp : p.Advances) : p.commit.Advances := by
  intro s
  simp only [Parser.commit]
  split
  · next a r h => exact hp.of_done h
  · next e h => simpa using hp.of_failed h

theorem Advances.context (hp : p.Advances) (c : Context) : (p.context c).Advances := by
  intro s
  simp only [Parser.context]
  split
  · next a r h => exact hp.of_done h
  · next e h => simpa using hp.of_failed h

theorem Advances.label (hp : p.Advances) (name : String) : (p.label name).Advances :=
  hp.context _

theorem Advances.expecting (hp : p.Advances) (text : String) : (p.expecting text).Advances :=
  hp.context _

theorem Advances.verify (hp : p.Advances) (wanted : α → Bool) : (p.verify wanted).Advances := by
  intro s
  simp only [Parser.verify]
  split
  · next a r h =>
    split
    · exact hp.of_done h
    · exact List.suffix_rfl
  · next e h => exact hp.of_failed h

theorem Advances.many (hp : p.Advances) : p.many.Advances := by
  intro s
  fun_induction Parser.many p s with
  | case1 s e h he => exact hp.of_failed h
  | case2 s e h he => exact List.suffix_rfl
  | case3 s a r h hlt as r' hm ih =>
    rw [hm] at ih
    exact ih.trans (hp.of_done h)
  | case4 s a r h hlt e hm ih =>
    rw [hm] at ih
    exact ih.trans (hp.of_done h)
  | case5 s a r h hlt => exact List.suffix_rfl

theorem Advances.many1 (hp : p.Advances) : p.many1.Advances :=
  hp.bind fun _ => hp.many.bind fun _ => .pure _

/-! ## Characters -/

theorem advances_satisfy (wanted : Char → Bool) : (satisfy wanted).Advances := by
  intro s
  cases s with
  | nil => exact List.suffix_rfl
  | cons c cs =>
    simp only [satisfy]
    split
    · exact List.suffix_cons c cs
    · exact List.suffix_rfl

theorem advances_char (c : Char) : (char c).Advances := by
  intro s
  cases s with
  | nil => exact List.suffix_rfl
  | cons d cs =>
    simp only [char]
    split
    · exact List.suffix_cons d cs
    · exact List.suffix_rfl

theorem advances_takeWhile (wanted : Char → Bool) : (takeWhile wanted).Advances :=
  fun _ => List.dropWhile_suffix wanted

theorem advances_takeWhile1 (wanted : Char → Bool) : (takeWhile1 wanted).Advances :=
  (advances_satisfy wanted).bind fun _ => (advances_takeWhile wanted).bind fun _ => .pure _

theorem advances_literal (text : List Char) : (literal text).Advances := by
  intro s
  simp only [literal]
  split
  · exact List.drop_suffix _ _
  · exact List.suffix_rfl

theorem advances_endOfInput : endOfInput.Advances := by
  intro s
  cases s <;> exact List.suffix_rfl

end Parser

open Phrasebook.Source.Parser

/-! ## Lexemes -/

theorem advances_spaces : spaces.Advances :=
  (advances_takeWhile isBlank).bind fun _ => .pure _

theorem advances_lineEnd : lineEnd.Advances := by
  intro s
  simp only [lineEnd]
  cases h : lineEnd? s with
  | none => exact List.suffix_rfl
  | some pair =>
    obtain ⟨rfl, -⟩ := lineEnd?_eq_some h
    exact List.suffix_append _ _

theorem advances_lineEndOrEnd : lineEndOrEnd.Advances :=
  advances_lineEnd.or advances_endOfInput

theorem advances_blankBlock : Parser.Advances blankBlock := by
  intro s
  unfold blankBlock
  split
  · exact List.dropWhile_suffix isBlank
  · next text rest hne heq =>
    have h := blankLines_append s
    rw [heq] at h
    exact ⟨text, h⟩

theorem advances_blank : blank.Advances := skipBlank_suffix

theorem advances_identifier : identifier.Advances :=
  (advances_satisfy isNameStart).bind fun _ => (advances_takeWhile isNamePart).bind fun _ =>
    .pure _

theorem advances_numberLiteral : numberLiteral.Advances :=
  (advances_char '-').optional.bind fun _ => (advances_takeWhile1 isDigit).bind fun _ =>
    ((advances_char '.').bind fun _ => advances_takeWhile1 isDigit).optional.bind fun _ =>
      .pure _

theorem advances_hexDigits (count : Nat) : Parser.Advances (hexDigits count) := by
  intro s
  simp only [hexDigits]
  split
  · exact List.drop_suffix _ _
  · exact List.suffix_rfl

theorem advances_codeEscape (mark : Char) (count : Nat) :
    Parser.Advances (codeEscape mark count) := by
  have hp : Parser.Advances (do char mark; hexDigits count) :=
    (advances_char mark).bind fun _ => advances_hexDigits count
  intro s
  unfold codeEscape
  split
  · next digits rest h =>
    split
    · exact hp.of_done h
    · exact List.suffix_rfl
  · next e h => exact hp.of_failed h

theorem advances_escape : escape.Advances :=
  ((advances_satisfy _).or ((advances_codeEscape 'u' 4).or (advances_codeEscape 'U' 6))).label _

theorem advances_quoted : Parser.Advances quoted := by
  intro s
  fun_induction quoted s with
  | case1 => exact List.suffix_rfl
  | case2 rest => exact List.suffix_cons _ _
  | case3 rest => exact List.suffix_cons _ _
  | case4 rest d after h _ _ ih =>
    rw [Outcome.rest_map]
    exact (ih.trans (advances_escape.of_done h)).trans (List.suffix_cons _ _)
  | case5 rest e h _ _ => exact (advances_escape.of_failed h).trans (List.suffix_cons _ _)
  | case6 c rest _ _ _ ih =>
    rw [Outcome.rest_map]
    exact ih.trans (List.suffix_cons _ _)

theorem advances_stringLiteral : stringLiteral.Advances :=
  (advances_char '"').bind fun _ => advances_quoted.bind fun _ => .pure _

/-! ## Inline expressions -/

theorem advances_reference : reference.Advances :=
  advances_identifier.bind fun _ =>
    ((advances_char '.').bind fun _ => advances_identifier).optional.bind fun _ => .pure _

theorem advances_argumentName : argumentName.Advances :=
  (advances_char '$').bind fun _ => advances_identifier.commit.label _

theorem advances_inline : inline.Advances :=
  (advances_stringLiteral.map _).or <| (advances_numberLiteral.map _).or <|
    (advances_reference.map _).or <|
      ((advances_char '-').bind fun _ => advances_reference.map _).or <|
        advances_argumentName.map _

/-! ## Patterns and placeables -/

theorem advances_inlineText : inlineText.Advances :=
  (advances_takeWhile1 isText).bind fun _ => .pure _

theorem advances_blockText : blockText.Advances :=
  advances_blankBlock.bind fun _ => (advances_takeWhile1 isBlank).bind fun _ =>
    (advances_satisfy isLineOpening).bind fun _ => (advances_takeWhile isText).bind fun _ =>
      .pure _

section Nested

variable {inner : Parser Expression} (hinner : inner.Advances)
include hinner

theorem advances_blockPlaceable : (blockPlaceable inner).Advances :=
  advances_blankBlock.bind fun _ => (advances_takeWhile isBlank).bind fun _ =>
    hinner.bind fun _ => .pure _

theorem advances_patternPart : (patternPart inner).Advances :=
  advances_blockText.or <| (advances_blockPlaceable hinner).or <|
    (hinner.bind fun _ => .pure _).or advances_inlineText

theorem advances_patternOf : (patternOf inner).Advances :=
  (advances_patternPart hinner).many1.bind fun _ => .pure _

omit hinner in
theorem advances_variantKey : variantKey.Advances :=
  (advances_char '[').bind fun _ =>
    (advances_blank.bind fun _ =>
      ((advances_numberLiteral.map _).or (advances_identifier.map _)).bind fun _ =>
        advances_blank.bind fun _ => (advances_char ']').bind fun _ => .pure _).commit.label _

theorem advances_variant : (variant inner).Advances :=
  advances_lineEnd.bind fun _ => advances_blank.bind fun _ =>
    (advances_char '*').optional.bind fun _ => advances_variantKey.bind fun _ =>
      advances_spaces.bind fun _ =>
        ((advances_patternOf hinner).commit.label _).bind fun _ => .pure _

theorem advances_selection : (selection inner).Advances :=
  advances_inline.bind fun _ => advances_blank.bind fun _ =>
    (advances_literal _).bind fun _ => advances_spaces.bind fun _ =>
      ((((advances_variant hinner).many.verify _).commit.label _).expecting _).bind fun _ =>
        (advances_lineEnd.commit.expecting _).bind fun _ => .pure _

theorem advances_expression : (expression inner).Advances :=
  (advances_selection hinner).or <| (advances_inline.map _).or hinner

end Nested

theorem advances_placeable (levels : Nat) : (placeable levels).Advances := by
  induction levels with
  | zero =>
    exact (advances_char '{').bind fun _ => (Advances.fail.commit.label _).expecting _
  | succ levels ih =>
    exact (advances_char '{').bind fun _ =>
      ((advances_blank.bind fun _ => (advances_expression ih).bind fun _ =>
        advances_blank.bind fun _ =>
          (advances_char '}').bind fun _ => .pure _).commit.label _).context _

theorem advances_pattern : pattern.Advances :=
  advances_patternOf (advances_placeable maxNesting)

/-! ## Entries -/

theorem advances_entryEnd : entryEnd.Advances :=
  advances_lineEndOrEnd.expecting _

theorem advances_attributeLine : attributeLine.Advances :=
  advances_lineEnd.bind fun _ => advances_blank.bind fun _ => (advances_char '.').bind fun _ =>
    (advances_identifier.bind fun _ => advances_spaces.bind fun _ =>
      (advances_char '=').bind fun _ => advances_spaces.bind fun _ =>
        advances_pattern.bind fun _ => .pure _).commit.label _

theorem advances_message : message.Advances :=
  advances_identifier.bind fun _ => advances_spaces.bind fun _ =>
    (advances_char '=').bind fun _ => advances_spaces.bind fun _ =>
      advances_pattern.optional.bind fun _ => advances_attributeLine.many.bind fun _ => by
        split
        · exact (Advances.fail.commit.label _).expecting _
        · exact advances_entryEnd.bind fun _ => .pure _

theorem advances_term : term.Advances :=
  (advances_char '-').bind fun _ => advances_identifier.bind fun _ =>
    advances_spaces.bind fun _ => (advances_char '=').bind fun _ =>
      advances_spaces.bind fun _ =>
        ((advances_pattern.commit.label _).expecting _).bind fun _ =>
          advances_attributeLine.many.bind fun _ => advances_entryEnd.bind fun _ => .pure _

theorem advances_commentLine (level : CommentLevel) : (commentLine level).Advances :=
  (advances_literal _).bind fun _ =>
    ((advances_char ' ').bind fun _ => advances_takeWhile _).optional.bind fun _ =>
      advances_lineEndOrEnd.bind fun _ => .pure _

theorem advances_comment (level : CommentLevel) : (comment level).Advances :=
  (advances_commentLine level).many1.bind fun _ => .pure _

theorem advances_commented : commented.Advances := by
  intro s
  unfold commented
  split
  · next e hc => exact (advances_comment .entry).of_failed hc
  · next c rest hc =>
    have hrest : rest <:+ s := (advances_comment .entry).of_done hc
    split
    · next t after ht => exact (advances_term.of_done ht).trans hrest
    · split
      · next m after hm => exact (advances_message.of_done hm).trans hrest
      · exact hrest

theorem advances_entry : entry.Advances :=
  ((advances_comment .resource).map _).or <| ((advances_comment .group).map _).or <|
    advances_commented.or <| (advances_term.map _).or <| advances_message.map _

end Phrasebook.Source
