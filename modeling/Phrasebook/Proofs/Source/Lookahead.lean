import Phrasebook.Proofs.Source.Stability

/-!
# Lookahead stops in front of the next entry

Patterns, attributes and selections look across line breaks for a continuation. When a
text ends with a line feed and the text behind it opens an entry, nothing behind the line
feed is a continuation: what is read, and which alternatives refuse, does not depend on
the text that follows.

Productions that stay within a line leave a text that still ends with its line feed
(`Ended`); those that cross a line break may leave nothing (`Closed`). A triple
`Stable next P p Q` keeps track of which is which.

## Main definitions

* `Ended`, `Closed`: a text that ends with a line feed, or is empty.
* `Opens`: a text that starts like an entry.
-/

namespace Phrasebook.Source

open Alphabet

/-! ## Texts that end with a line feed -/

def Ended (s : List Char) : Prop := s.getLast? = some '\n'

def Closed (s : List Char) : Prop := s = [] ∨ Ended s

/-- A text whose first character may open an entry. -/
def Opens (s : List Char) : Prop := ∃ c cs, s = c :: cs ∧ isEntryOpening c = true

theorem Ended.closed {s : List Char} (h : Ended s) : Closed s := .inr h

theorem Ended.ne_nil {s : List Char} (h : Ended s) : s ≠ [] := by
  rintro rfl
  simp [Ended] at h

theorem Closed.of_suffix {s r : List Char} (hs : Closed s) (h : r <:+ s) : Closed r := by
  obtain ⟨u, rfl⟩ := h
  by_cases hr : r = []
  · exact .inl hr
  · obtain hs | hs := hs
    · simp_all
    · exact .inr (by simpa [Ended, List.getLast?_append, hr] using hs)

/-- A character that is no line feed is not the last one. -/
theorem Closed.ended {s r : List Char} (hs : Closed s) (h : r <:+ s) (hr : r ≠ []) : Ended s := by
  refine hs.resolve_left ?_
  rintro rfl
  exact hr (List.suffix_nil.mp h)

theorem Closed.of_cons {c : Char} {r : List Char} (hs : Closed (c :: r)) (hc : c ≠ '\n') :
    Ended r := by
  obtain h | h := hs
  · cases h
  · cases r with
    | nil => simp_all [Ended]
    | cons d ds => simpa [Ended, List.getLast?_cons_cons] using h

/-- The line feed at the end guards what stays within a line. -/
theorem guards_ended : Guards '\n' Ended where
  nil := by simp [Ended]
  tail hc hs := hs.closed.of_cons hc

theorem ne_of_isEntryOpening {c d : Char} (hc : isEntryOpening c = true)
    (hd : isEntryOpening d = false) : c ≠ d := by
  rintro rfl
  simp [hc] at hd

theorem Opens.head_ne {next : List Char} (hn : Opens next) {c : Char}
    (hc : isEntryOpening c = false) : next.head? ≠ some c := by
  obtain ⟨d, ds, rfl, hd⟩ := hn
  simpa using ne_of_isEntryOpening hd hc

namespace Parser

variable {α : Type} {p : Parser α} {next : List Char} {Q : List Char → Prop}

/-- A parser that reads nothing from the empty text is only asked in front of more text. -/
theorem Keeps.closed (hp : Keeps next Ended p Q) (hnil : ∀ a r, p [] ≠ .done a r) :
    Keeps next Closed p Q := by
  intro s a r hs h
  obtain rfl | hs := hs
  · exact absurd h (hnil a r)
  · exact hp s a r hs h

/-! ## Characters -/

theorem stable_satisfy {wanted : Char → Bool} (hw : wanted '\n' = false) :
    Stable next Ended (satisfy wanted) Ended :=
  guards_ended.satisfy hw

theorem stable_char {c : Char} (hc : c ≠ '\n') : Stable next Ended (char c) Ended :=
  guards_ended.char hc

/-- A mark that opens no entry is not found behind the end of a text. -/
theorem stable_mark (hn : Opens next) {c : Char} (hc : c ≠ '\n') (ho : isEntryOpening c = false) :
    Stable next Closed (char c) Ended := by
  refine ⟨fun s _ r hs h => ?_, fun s hs h => ?_⟩
  · obtain rfl := char_eq_done.mp h
    exact ⟨char_eq_done.mpr rfl, hs.of_cons hc⟩
  · rw [refuses_char] at h ⊢
    cases s with
    | nil => exact hn.head_ne ho
    | cons d ds => simpa using h

theorem stable_takeWhile {wanted : Char → Bool} (hw : wanted '\n' = false) :
    Stable next Ended (takeWhile wanted) Ended :=
  guards_ended.takeWhile hw

theorem stable_takeWhile1 {wanted : Char → Bool} (hw : wanted '\n' = false) :
    Stable next Ended (takeWhile1 wanted) Ended :=
  guards_ended.takeWhile1 hw

theorem stable_literal {text : List Char} (ht : '\n' ∉ text) :
    Stable next Ended (literal text) Ended :=
  guards_ended.literal ht

end Parser

open Phrasebook.Source.Parser

/-! ## Blanks and line ends -/

section Lexemes

variable {next : List Char} (hn : Opens next)
include hn

/-- Blanks and line ends do not reach into the text that follows. -/
theorem shelters_closed : Shelters next Closed where
  blanks {s} hs := by
    have hrest : Closed (s.dropWhile isBlank) := hs.of_suffix (List.dropWhile_suffix _)
    obtain rfl | hs := hs
    · obtain ⟨c, cs, rfl, hc⟩ := hn
      have hblank : isBlank c = false := by
        simpa [isBlank] using ne_of_isEntryOpening hc (by decide : isEntryOpening ' ' = false)
      simpa [hblank] using hrest
    · obtain ⟨htake, hdrop, -⟩ := guards_ended.span (by decide : isBlank '\n' = false) hs next
      exact ⟨htake, hdrop, hrest⟩
  line {s} hs := by
    obtain rfl | hs := hs
    · obtain ⟨c, cs, rfl, hc⟩ := hn
      exact lineEnd?_cons_of_ne (ne_of_isEntryOpening hc (by decide))
        (ne_of_isEntryOpening hc (by decide))
    · refine lineEnd?_append hs.ne_nil ?_ next
      rintro rfl
      simp [Ended] at hs
  rest hs h := hs.of_suffix ⟨_, (lineEnd?_eq_some h).1.symm⟩

theorem stable_blanks : Stable next Closed (takeWhile isBlank) Closed :=
  (shelters_closed hn).takeWhile

omit hn in
theorem stable_spaces : Stable next Ended spaces Ended :=
  (stable_takeWhile (by decide)).bind fun _ => .pure _

theorem stable_indent : Stable next Closed (takeWhile1 isBlank) Ended := by
  have hfirst : Stable next Closed (satisfy isBlank) Ended := by
    refine ⟨fun s c r hs h => ?_, fun s hs h => ?_⟩
    · obtain ⟨rfl, hc⟩ := satisfy_eq_done.mp h
      refine ⟨satisfy_eq_done.mpr ⟨rfl, hc⟩, hs.of_cons ?_⟩
      rintro rfl
      simp [isBlank] at hc
    · rw [refuses_satisfy] at h ⊢
      cases s with
      | nil =>
        have hspace := hn.head_ne (by decide : isEntryOpening ' ' = false)
        grind [isBlank]
      | cons d ds => simpa using h
  exact hfirst.bind fun _ => (stable_takeWhile (by decide)).bind fun _ => .pure _

theorem stable_lineEnd : Stable next Closed lineEnd Closed :=
  (shelters_closed hn).lineEnd

theorem stable_blankBlock : Stable next Closed blankBlock Closed :=
  (shelters_closed hn).blankBlock

theorem stable_blank : Stable next Closed blank Closed :=
  (shelters_closed hn).blank

end Lexemes

/-! ## Names and literals -/

section Literals

variable {next : List Char}

theorem stable_identifier : Stable next Ended identifier Ended :=
  guards_ended.identifier (.inl rfl)

theorem stable_numberLiteral : Stable next Ended numberLiteral Ended :=
  guards_ended.numberLiteral (.inl rfl)

theorem stable_escape : Stable next Ended escape Ended :=
  guards_ended.escape (.inl rfl)

theorem stable_quoted : Stable next Ended quoted Ended := by
  refine ⟨fun s cs r hs h => ?_, fun s hs h => absurd h not_refuses_quoted⟩
  fun_induction quoted s generalizing cs with
  | case1 => cases h
  | case2 rest =>
    cases h
    exact ⟨quoted_close _, hs.closed.of_cons (by decide)⟩
  | case3 => cases h
  | case4 rest d after hd _ _ ih =>
    have hrest : Ended rest := hs.closed.of_cons (by decide)
    obtain ⟨hd, hafter⟩ := stable_escape.keeps rest d after hrest hd
    obtain ⟨cs', hq, rfl⟩ := Outcome.map_eq_done.mp h
    obtain ⟨hq, hr⟩ := ih cs' hafter hq
    refine ⟨?_, hr⟩
    rw [List.cons_append, quoted_escape hd, hq, Outcome.map]
  | case5 => cases h
  | case6 c rest hquote hline hback ih =>
    have hrest : Ended rest := hs.closed.of_cons hline
    obtain ⟨cs', hq, rfl⟩ := Outcome.map_eq_done.mp h
    obtain ⟨hq, hr⟩ := ih cs' hrest hq
    refine ⟨?_, hr⟩
    rw [List.cons_append, quoted_cons hquote hline hback, hq, Outcome.map]

theorem stable_stringLiteral : Stable next Ended stringLiteral Ended :=
  (stable_char (by decide)).bind fun _ => stable_quoted.bind fun _ => .pure _

theorem stable_reference : Stable next Ended reference Ended :=
  guards_ended.reference (.inl rfl)

theorem stable_argumentName : Stable next Ended argumentName Ended :=
  guards_ended.argumentName (.inl rfl)

theorem stable_inline : Stable next Ended inline Ended :=
  (stable_stringLiteral.map _).or <| (stable_numberLiteral.map _).or <|
    (stable_reference.map _).or <|
      ((stable_char (by decide)).bind fun _ => stable_reference.map _).or <|
        stable_argumentName.map _

end Literals

/-! ## Patterns and placeables -/

section Nested

variable {next : List Char} (hn : Opens next)
include hn

omit hn in
theorem stable_inlineText : Stable next Ended inlineText Ended :=
  (stable_takeWhile1 (by decide)).bind fun _ => .pure _

theorem stable_blockText : Stable next Closed blockText Ended :=
  (stable_blankBlock hn).bind fun _ => (stable_indent hn).bind fun _ =>
    (stable_satisfy (by decide)).bind fun _ => (stable_takeWhile (by decide)).bind fun _ =>
      .pure _

variable {inner : Parser Expression} (hinner : Stable next Closed inner Ended)
include hinner

theorem stable_blockPlaceable : Stable next Closed (blockPlaceable inner) Ended :=
  (stable_blankBlock hn).bind fun _ => (stable_blanks hn).bind fun _ =>
    hinner.bind fun _ => .pure _

/-- A part of a pattern never ends with a line feed, so there is still text left behind it. -/
theorem stable_patternPart : Stable next Ended (patternPart inner) Ended :=
  (stable_blockText hn).mono (fun _ => Ended.closed) (fun _ => id) |>.or <|
    (stable_blockPlaceable hn hinner).mono (fun _ => Ended.closed) (fun _ => id) |>.or <|
      (hinner.bind fun _ => .pure _).mono (fun _ => Ended.closed) (fun _ => id) |>.or
        stable_inlineText

theorem stable_patternOf : Stable next Ended (patternOf inner) Ended :=
  (stable_patternPart hn hinner).many1.bind fun _ => .pure _

omit hinner in
theorem stable_variantKey : Stable next Closed variantKey Ended := by
  have hkey : Keeps next Closed
      ((VariantKey.number <$> numberLiteral).or (VariantKey.name <$> identifier)) Ended :=
    ((stable_numberLiteral.map _).or (stable_identifier.map _)).keeps.closed
      fun _ _ h => by cases h
  have hclose : Stable next Closed (char ']') Ended := stable_mark hn (by decide) (by decide)
  have hblank : Keeps next Ended blank Closed :=
    (stable_blank hn).keeps.mono (fun _ => Ended.closed) fun _ => id
  exact (stable_mark hn (by decide) (by decide)).bind fun _ =>
    (hblank.bind fun _ => hkey.bind fun _ => hblank.bind fun _ =>
      hclose.keeps.bind fun _ => (Stable.pure _).keeps).commit.label _

theorem stable_variant : Stable next Closed (variant inner) Ended :=
  (stable_lineEnd hn).bind fun _ => (stable_blank hn).bind fun _ =>
    (((stable_mark hn (by decide) (by decide)).mono (fun _ => id) fun _ => Ended.closed).optional
      fun _ => id).bind fun _ => (stable_variantKey hn).bind fun _ => stable_spaces.bind fun _ =>
        ((stable_patternOf hn hinner).keeps.commit.label _).bind fun _ => .pure _

theorem keeps_selection : Keeps next Ended (selection inner) Closed := by
  have harrow : Keeps next Closed (literal ['-', '>']) Ended :=
    (stable_literal (by decide)).keeps.closed fun _ _ h => by cases h
  have hvariants : Stable next Closed (variant inner).many Closed :=
    ((stable_variant hn hinner).mono (fun _ => id) fun _ => Ended.closed).many
  have hspaces : Keeps next Ended spaces Closed :=
    stable_spaces.keeps.mono (fun _ => id) fun _ => Ended.closed
  exact stable_inline.keeps.bind fun _ =>
    ((stable_blank hn).keeps.mono (fun _ => Ended.closed) fun _ => id).bind fun _ =>
      harrow.bind fun _ => hspaces.bind fun _ =>
        (((hvariants.keeps.verify _).commit.label _).expecting _).keeps.bind fun _ =>
          ((stable_lineEnd hn).keeps.commit.expecting _).keeps.bind fun _ => (Stable.pure _).keeps

/-- With a closing brace behind the expression, the arrow of a selection cannot come from
the text that follows. -/
theorem expression_next {s r r' : List Char} {e : Expression} (hs : Ended s)
    (h : expression inner s = .done e r) (hr : skipBlank r = '}' :: r') :
    expression inner (s ++ next) = .done e (r ++ next) ∧ Closed r := by
  simp only [expression, or_eq_done] at h
  obtain h | ⟨-, -, -, h | ⟨e', hin, hopen, h⟩⟩ := h
  · obtain ⟨h, hr⟩ := keeps_selection hn hinner s e r hs h
    exact ⟨or_of_done h, hr⟩
  · obtain ⟨i, hi, rfl⟩ := map_eq_done.mp h
    obtain ⟨hi, hr'⟩ := stable_inline.keeps s i r hs hi
    have harrow : (selection inner).Refuses (s ++ next) := by
      refine refuses_bind_of_done hi (refuses_bind_of_done rfl (Refuses.bind ?_))
      rw [((shelters_closed hn).skipBlank hr'.closed).1, hr, refuses_literal]
      simp [List.cons_prefix_cons]
    refine ⟨?_, hr'.closed⟩
    rw [expression, or_of_refuses harrow, or_of_done (map_of_done _ hi)]
  · have hrefuses : inline.Refuses (s ++ next) :=
      stable_inline.refuses s hs (refuses_map.mp ⟨e', hin, hopen⟩)
    have hsel : (selection inner).Refuses (s ++ next) := hrefuses.bind
    obtain ⟨h, hr'⟩ := hinner.keeps s e r hs.closed h
    refine ⟨?_, hr'.closed⟩
    rw [expression, or_of_refuses hsel, or_of_refuses (refuses_map.mpr hrefuses), h]

end Nested

theorem stable_placeable {next : List Char} (hn : Opens next) (levels : Nat) :
    Stable next Closed (placeable levels) Ended := by
  induction levels with
  | zero =>
    refine (stable_mark hn (by decide) (by decide)).bind fun _ => ?_
    exact ((Keeps.commit fun s a r _ h => by cases h).label _).expecting _
  | succ levels ih =>
    refine (stable_mark hn (by decide) (by decide)).bind fun _ => ?_
    refine ((Keeps.commit fun s e r hs h => ?_).label _).context _
    simp only [bind_eq_done, char_eq_done] at h
    obtain ⟨_, s₁, hs₁, e', s₂, he, _, s₃, hs₃, _, s₄, hclose, hret⟩ := h
    cases hs₁
    cases hs₃
    cases hret
    have hstart : Ended (skipBlank s) := by
      refine (hs.closed.of_suffix (skipBlank_suffix s)).resolve_left fun hnil => ?_
      have hrest := (advances_expression (advances_placeable levels)).of_done he
      rw [hnil, List.suffix_nil] at hrest
      simp [hrest, skipBlank] at hclose
    obtain ⟨he, hs₂⟩ := expression_next hn ih hstart he hclose
    have hrest : Closed ('}' :: r) := hclose ▸ hs₂.of_suffix (skipBlank_suffix s₂)
    refine ⟨?_, hrest.of_cons (by decide)⟩
    have hfirst : blank (s ++ next) = .done () (skipBlank s ++ next) := by
      rw [blank, ((shelters_closed hn).skipBlank hs.closed).1]
    have hlast : blank (s₂ ++ next) = .done () ('}' :: (r ++ next)) := by
      rw [blank, ((shelters_closed hn).skipBlank hs₂).1, hclose, List.cons_append]
    rw [bind_of_done hfirst, bind_of_done he, bind_of_done hlast, bind_of_done char_of_head]
    rfl

theorem stable_pattern {next : List Char} (hn : Opens next) : Stable next Ended pattern Ended :=
  stable_patternOf hn (stable_placeable hn maxNesting)

/-! ## Entries -/

section Entries

variable {next : List Char} (hn : Opens next)
include hn

theorem stable_lineEndOrEnd : Stable next Ended lineEndOrEnd Closed := by
  have hline : Stable next Ended lineEnd Closed :=
    (stable_lineEnd hn).mono (fun _ => Ended.closed) fun _ => id
  refine hline.or ⟨fun s _ r hs h => ?_, fun s hs _ => ?_⟩
  · cases s with
    | nil => exact absurd rfl hs.ne_nil
    | cons c cs => cases h
  · cases s with
    | nil => exact absurd rfl hs.ne_nil
    | cons c cs => exact ⟨_, rfl, rfl⟩

theorem stable_attributeLine : Stable next Ended attributeLine Ended := by
  have hvalue : Keeps next Ended (do
      let id ← identifier
      spaces
      char '='
      spaces
      let value ← pattern
      return (⟨id, value⟩ : Attribute)) Ended :=
    (stable_identifier.bind fun _ => stable_spaces.bind fun _ =>
      (stable_char (by decide)).bind fun _ => stable_spaces.bind fun _ =>
        (stable_pattern hn).bind fun _ => .pure _).keeps
  exact ((stable_lineEnd hn).mono (fun _ => Ended.closed) fun _ => id).bind fun _ =>
    (stable_blank hn).bind fun _ => (stable_mark hn (by decide) (by decide)).bind fun _ =>
      hvalue.commit.label _

theorem stable_message : Stable next Ended message Closed := by
  refine stable_identifier.bind fun _ => stable_spaces.bind fun _ =>
    (stable_char (by decide)).bind fun _ => stable_spaces.bind fun _ =>
      ((stable_pattern hn).optional fun _ => id).bind fun _ =>
        (stable_attributeLine hn).many.bind fun _ => ?_
  split
  · exact ((Keeps.commit fun s a r _ h => by cases h).label _).expecting _
  · exact ((stable_lineEndOrEnd hn).expecting _).bind fun _ => .pure _

theorem stable_term : Stable next Ended term Closed :=
  (stable_char (by decide)).bind fun _ => stable_identifier.bind fun _ =>
    stable_spaces.bind fun _ => (stable_char (by decide)).bind fun _ =>
      stable_spaces.bind fun _ =>
        (((stable_pattern hn).keeps.commit.label _).expecting _).bind fun _ =>
          (stable_attributeLine hn).many.bind fun _ =>
            ((stable_lineEndOrEnd hn).expecting _).bind fun _ => .pure _

theorem stable_commentLine (level : CommentLevel) :
    Stable next Ended (commentLine level) Closed :=
  (stable_literal (by cases level <;> decide)).bind fun _ =>
    (((stable_char (by decide)).bind fun _ => stable_takeWhile (by decide)).optional
      fun _ => id).bind fun _ => (stable_lineEndOrEnd hn).bind fun _ => .pure _

end Entries

end Phrasebook.Source
