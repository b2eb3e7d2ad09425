import Phrasebook.Proofs.Layout.Content
import Phrasebook.Proofs.Source.Reading

/-!
# The nesting limit

Placeables may be nested in two ways: a placeable directly inside another one, and a
selection in a variant of another one. Both ways spend one level for each pair of braces,
so both may go `maxNesting` deep and not one level deeper. What is nested deeper fails for
good, at the innermost brace, and no alternative on the way out gets another turn.

## Main definitions

* `Enclosed`: a text in so many pairs of braces.
* `Nested`: so many selections, each in the default variant of the one around it.

## Main results

* `Pattern.parse_nesting_limit`: such patterns are read if and only if they are nested at
  most `maxNesting` deep.
-/

namespace Phrasebook.Source

open Alphabet Phrasebook.Source.Parser

/-! ## Braces around an inline expression -/

/-- A text in `n` pairs of braces, with blanks anywhere between them. -/
inductive Enclosed (t : List Char) : Nat → List Char → Prop
  | bare : Enclosed t 0 t
  | wrap {n : Nat} {b s b' : List Char} : Blank b → Blank b' → Enclosed t n s →
      Enclosed t (n + 1) ('{' :: (b ++ (s ++ (b' ++ ['}']))))

theorem wrap_append (b s b' rest : List Char) :
    '{' :: (b ++ (s ++ (b' ++ ['}']))) ++ rest = '{' :: (b ++ (s ++ (b' ++ '}' :: rest))) := by
  simp

theorem Enclosed.solid {e : Inline} {t s : List Char} {n : Nat} (ht : InlineSpelling e t)
    (h : Enclosed t n s) (rest : List Char) : Solid (s ++ rest) := by
  cases h with
  | bare => exact solid_of_spelling ht rest
  | wrap => exact solid_cons (by decide)

theorem refuses_inline_brace (s : List Char) : inline.Refuses ('{' :: s) := by
  have hnumber : numberLiteral.Refuses ('{' :: s) :=
    refuses_numberLiteral (by simp) (stops_cons (by decide))
  have hreference : reference.Refuses ('{' :: s) :=
    (refuses_identifier.mpr (stops_cons (by decide))).bind
  exact (refuses_map.mpr (refuses_stringLiteral (by simp))).or <|
    (refuses_map.mpr hnumber).or <| (refuses_map.mpr hreference).or <|
      (refuses_char.mpr (by simp)).bind.or (refuses_map.mpr (refuses_char.mpr (by simp)).bind)

/-- Behind a brace there is no selection, so another placeable is all there can be. -/
theorem expression_brace (inner : Parser Expression) (s : List Char) :
    expression inner ('{' :: s) = inner ('{' :: s) := by
  have hselection : (selection inner).Refuses ('{' :: s) := (refuses_inline_brace s).bind
  rw [expression, or_of_refuses hselection,
    or_of_refuses (refuses_map.mpr (refuses_inline_brace s))]

theorem aborts_placeable_zero (s : List Char) : (placeable 0).Aborts ('{' :: s) := by
  have hfail : (fail : Parser Expression).Fails s := ⟨_, rfl⟩
  exact aborts_bind_of_done char_of_head hfail.commit.context.context

theorem expression_of_enclosed {e : Inline} {t s b : List Char} {n levels : Nat}
    (ht : InlineSpelling e t) (h : Enclosed t n s) (hlevels : n ≤ levels) (hb : Blank b)
    (rest : List Char) :
    expression (placeable levels) (s ++ (b ++ '}' :: rest)) =
      .done (.inline e) (b ++ '}' :: rest) := by
  induction h generalizing levels b rest with
  | bare => exact expression_of_spelling ht hb rest
  | @wrap n c s c' hc hc' h ih =>
    obtain ⟨levels, rfl⟩ := Nat.exists_eq_add_of_lt hlevels
    have hend : Solid ('}' :: (b ++ '}' :: rest)) := solid_cons (by decide)
    rw [wrap_append, expression_brace]
    exact placeable_of_expression hc (h.solid ht _) (ih (by omega) hc' _) (hend.blank_append hc')

theorem placeable_of_enclosed {e : Inline} {t s : List Char} {n levels : Nat}
    (ht : InlineSpelling e t) (h : Enclosed t (n + 1) s) (hlevels : n < levels)
    (rest : List Char) : placeable levels (s ++ rest) = .done (.inline e) rest := by
  obtain ⟨levels, rfl⟩ := Nat.exists_eq_add_of_lt hlevels
  have hend : Solid ('}' :: rest) := solid_cons (by decide)
  cases h with
  | wrap hb hb' h =>
    rw [wrap_append]
    exact placeable_of_expression hb (h.solid ht _)
      (expression_of_enclosed ht h (Nat.le_add_right n levels) hb' rest) (hend.blank_append hb')

/-- Too many braces fail for good, at the first one that is too deep. -/
theorem aborts_placeable_of_enclosed {t s : List Char} {n levels : Nat} (h : Enclosed t n s)
    (hlevels : levels < n) (rest : List Char) : (placeable levels).Aborts (s ++ rest) := by
  induction h generalizing levels rest with
  | bare => omega
  | @wrap n b s b' hb hb' h ih =>
    cases levels with
    | zero => exact aborts_placeable_zero _
    | succ levels =>
      have hinner := ih (Nat.lt_of_succ_lt_succ hlevels) (b' ++ '}' :: rest)
      rw [wrap_append]
      cases h with
      | bare => omega
      | @wrap n c s c' hc hc' h =>
        rw [wrap_append] at hinner ⊢
        refine aborts_placeable_of_expression hb (solid_cons (by decide)) ?_
        rwa [Aborts, expression_brace]

/-! ## Nested selections -/

/-- Text that stays on its line. -/
def Run (w : List Char) : Prop :=
  ∀ c ∈ w, isText c = true

/-- Text on one line that is not blank. -/
def Word (w : List Char) : Prop :=
  Run w ∧ ∃ c ∈ w, c ≠ ' '

/-- What may stand in front of the first placeable of a pattern: text on the same line, or
blank lines. -/
def Lead (w : List Char) : Prop :=
  Run w ∨ Blank w

/-- Lines of variants whose values are text. -/
inductive TextVariants : List Char → Prop
  | nil : TextVariants []
  | cons {b k w s : List Char} {key : VariantKey} : Blank b → KeySpelling key k → Word w →
      TextVariants s → TextVariants ('\n' :: (b ++ (k ++ (w ++ s))))

/-- A selection up to the value of its default variant: the brace, the selector, the arrow
with spaces and perhaps a carriage return behind it, the variants in front of the default, and
the key of the default. -/
inductive Opening : List Char → Prop
  | mk {selector : Inline} {key : VariantKey} {b t b' gap r lines indent k : List Char} :
      Blank b → InlineSpelling selector t → Blank b' → Detached selector (b' ++ ['-']) →
      (∀ c ∈ gap, isBlank c = true) → r = [] ∨ r = ['\r'] → TextVariants lines →
      Blank indent → KeySpelling key k →
      Opening ('{' :: (b ++ (t ++ (b' ++ '-' :: '>' ::
        (gap ++ (r ++ (lines ++ '\n' :: (indent ++ '*' :: k))))))))

/-- A selection behind the value of its default variant: the variants behind the default and
the brace. -/
inductive Ending : List Char → Prop
  | mk {lines b : List Char} : TextVariants lines → Blank b →
      Ending (lines ++ '\n' :: (b ++ ['}']))

/-- A pattern of `n` selections, each of them in the default variant of the one around it,
with text of the same line on both sides. -/
inductive Nested : Nat → List Char → Prop
  | text {w : List Char} : Word w → Nested 0 w
  | select {n : Nat} {w o s c w' : List Char} : Lead w → Opening o → Nested n s → Ending c →
      Run w' → Nested (n + 1) (w ++ (o ++ (s ++ (c ++ w'))))

/-! ## Text on one line -/

/-- The end of the text, or a line break that ends a pattern however the next line is
indented. -/
def Halts (s : List Char) : Prop :=
  s = [] ∨ ∃ t, s = '\n' :: t ∧ Stops isLineOpening (skipBlank t) ∧ (skipBlank t).head? ≠ some '{'

theorem Halts.stops {s : List Char} (h : Halts s) : Stops isText s := by
  obtain rfl | ⟨t, rfl, -⟩ := h
  · simp [Stops]
  · exact stops_cons (by decide)

theorem halts_of_line {b s : List Char} {c : Char} (hb : Blank b)
    (hc : c = '[' ∨ c = '*' ∨ c = '}') : Halts ('\n' :: (b ++ c :: s)) := by
  refine .inr ⟨_, rfl, ?_⟩
  rw [hb.skipBlank_append]
  obtain rfl | rfl | rfl := hc <;>
  · rw [skipBlank_cons_of_ne (by decide) (by decide) (by decide)]
    exact ⟨stops_cons (by decide), by simp⟩

/-- What a word leaves when the blanks in front of it are dropped. -/
theorem Word.dropWhile {w : List Char} (h : Word w) :
    Run (w.dropWhile isBlank) ∧ w.dropWhile isBlank ≠ [] := by
  obtain ⟨hw, c, hc, hne⟩ := h
  refine ⟨fun d hd => hw d ((List.dropWhile_suffix isBlank).subset hd), fun hnil => ?_⟩
  have hblank := List.dropWhile_eq_nil_iff.mp hnil c hc
  exact hne (by simpa [isBlank] using hblank)

theorem dropWhile_append_of_ne_nil {w : List Char} (h : w.dropWhile isBlank ≠ [])
    (rest : List Char) : (w ++ rest).dropWhile isBlank = w.dropWhile isBlank ++ rest := by
  simp [List.dropWhile_append, h]

/-- Text on one line does not end a line, unless it is blank up to the line break behind it. -/
theorem lineEnd?_run {w rest : List Char} (hw : Run w) (hrest : Stops isText rest) :
    lineEnd? ((w ++ rest).dropWhile isBlank) = none ∨
      ∃ t, rest = '\n' :: t ∧ skipBlank (w ++ rest) = skipBlank t := by
  induction w with
  | nil =>
    cases rest with
    | nil => exact .inl rfl
    | cons c t =>
      have hc : isText c = false := hrest c rfl
      simp only [isText, Bool.and_eq_false_iff, bne_eq_false_iff_eq] at hc
      obtain (rfl | rfl) | rfl := hc
      · exact .inl rfl
      · exact .inl rfl
      · exact .inr ⟨t, rfl, rfl⟩
  | cons c w ih =>
    obtain ⟨hc, htail⟩ := List.forall_mem_cons.mp hw
    have hfeed : c ≠ '\n' := by
      rintro rfl
      exact absurd hc (by decide)
    by_cases hspace : c = ' '
    · subst hspace
      exact ih htail
    · have hdrop : (c :: w ++ rest).dropWhile isBlank = c :: (w ++ rest) := by
        simp [isBlank, hspace]
      rw [hdrop]
      by_cases hreturn : c = '\r'
      · subst hreturn
        cases w with
        | cons d w =>
          have hd : d ≠ '\n' := by
            rintro rfl
            exact absurd (htail _ (.head _)) (by decide)
          exact .inl (lineEnd?_return_of_ne hd)
        | nil =>
          cases rest with
          | nil => exact .inl rfl
          | cons d t =>
            by_cases hd : d = '\n'
            · subst hd
              exact .inr ⟨t, rfl, rfl⟩
            · exact .inl (lineEnd?_return_of_ne hd)
      · exact .inl (lineEnd?_cons_of_ne hfeed hreturn)

section Inner

variable {inner : Parser Expression} (hbrace : ∀ s, s.head? ≠ some '{' → inner.Refuses s)
include hbrace

theorem refuses_patternPart_of_halts {s : List Char} (h : Halts s) :
    (patternPart inner).Refuses s := by
  have hinline : ((inlinePlaceable inner).or inlineText).Refuses s := by
    refine (Refuses.bind (hbrace s ?_)).or (refuses_takeWhile1.mpr h.stops).bind
    obtain rfl | ⟨t, rfl, -⟩ := h <;> simp
  obtain rfl | ⟨t, rfl, htext, hplace⟩ := h
  · rwa [Refuses, patternPart_of_lineEnd? rfl]
  · have hblock : blockText.Refuses ('\n' :: t) := refuses_blockText htext
    have hplaceable : (blockPlaceable inner).Refuses ('\n' :: t) :=
      refuses_blockPlaceable hbrace hplace
    exact hblock.or (hplaceable.or hinline)

theorem patternPart_run {w rest : List Char} (hw : Run w) (hne : w ≠ [])
    (hrest : Halts rest ∨ ∃ s, rest = '{' :: s) :
    patternPart inner (w ++ rest) = .done [.text (String.ofList w)] rest := by
  have hstop : Stops isText rest := by
    obtain h | ⟨s, rfl⟩ := hrest
    · exact h.stops
    · exact stops_cons (by decide)
  have hinline : ((inlinePlaceable inner).or inlineText) (w ++ rest) =
      .done [.text (String.ofList w)] rest := by
    have hplace : (inlinePlaceable inner).Refuses (w ++ rest) := by
      refine Refuses.bind (hbrace _ ?_)
      cases w with
      | nil => exact absurd rfl hne
      | cons c w =>
        rintro ⟨⟩
        exact absurd (hw _ (.head _)) (by decide)
    rw [or_of_refuses hplace, inlineText, bind_of_done (takeWhile1_append hne hw hstop),
      pure_apply]
  obtain hnone | ⟨t, rfl, hskip⟩ := lineEnd?_run hw hstop
  · rw [patternPart_of_lineEnd? hnone, hinline]
  · -- The text is blank up to the line break, which ends the pattern.
    obtain ⟨htext, hplace⟩ : Stops isLineOpening (skipBlank t) ∧
        (skipBlank t).head? ≠ some '{' := by simpa [Halts] using hrest
    rw [← hskip] at htext hplace
    rw [patternPart, or_of_refuses (refuses_blockText htext),
      or_of_refuses (refuses_blockPlaceable hbrace hplace), hinline]

theorem many_patternPart_run {w rest : List Char} (hw : Run w) (hrest : Halts rest) :
    ∃ parts, (patternPart inner).many (w ++ rest) = .done parts rest ∧
      ∀ e, .placeable e ∉ parts.flatten := by
  have hend := many_of_refuses (refuses_patternPart_of_halts hbrace hrest)
  by_cases hne : w = []
  · subst hne
    exact ⟨[], hend, by simp⟩
  · refine ⟨[[.text (String.ofList w)]], ?_, by simp⟩
    refine many_of_done (patternPart_run hbrace hw hne (.inl hrest)) ?_ hend
    have := List.length_pos_iff.mpr hne
    simp only [List.length_append]
    omega

theorem patternOf_run {w rest : List Char} (hw : Run w) (hne : w ≠ []) (hrest : Halts rest) :
    ∃ p, patternOf inner (w ++ rest) = .done p rest ∧ ∀ e, .placeable e ∉ p := by
  have hmany := many_of_refuses (refuses_patternPart_of_halts hbrace hrest)
  refine ⟨Pattern.layout [.text (String.ofList w)], ?_, fun e he => ?_⟩
  · rw [patternOf,
      bind_of_done (many1_of_done (patternPart_run hbrace hw hne (.inl hrest)) hmany)]
    rfl
  · simpa using Pattern.placeable_mem_layout he

/-! ## Placeables in a line of text -/

omit hbrace in
/-- Text in front of a placeable is a part of its own; blank lines are read with it. -/
theorem Lead.cases {w : List Char} (h : Lead w) (inner : Parser Expression) (s : List Char) :
    Run w ∨ blockText.Refuses (w ++ '{' :: s) ∧ ∃ t, blockPlaceable inner (w ++ '{' :: s) =
      (do let e ← inner; return [.text t, .placeable e] : Parser Pattern) ('{' :: s) := by
  refine h.elim .inl fun hw => ?_
  have hskip : skipBlank (w ++ '{' :: s) = '{' :: s := by
    rw [hw.skipBlank_append, skipBlank_cons_of_ne (by decide) (by decide) (by decide)]
  obtain hnone | ⟨lines, rest, hdone, hrest⟩ := blankBlock_cases (w ++ '{' :: s)
  · -- Blanks without a line break are text on the same line.
    rw [skipBlank_of_lineEnd? hnone] at hskip
    have hblank : (w ++ '{' :: s).takeWhile isBlank = w := by
      have happend := List.takeWhile_append_dropWhile (p := isBlank) (l := w ++ '{' :: s)
      rwa [hskip, List.append_cancel_right_eq] at happend
    refine .inl fun c hc => ?_
    rw [← hblank] at hc
    obtain rfl : c = ' ' := by simpa [isBlank] using List.mem_takeWhile_imp hc
    rfl
  · have hstop : Stops isLineOpening (skipBlank (w ++ '{' :: s)) := by
      rw [hskip]
      exact stops_cons (by decide)
    refine .inr ⟨refuses_blockText hstop, String.ofList (lines ++ rest.takeWhile isBlank), ?_⟩
    rw [blockPlaceable, bind_of_done hdone, bind_of_done takeWhile_apply, hrest, hskip]

/-- A pattern with its first placeable, and the text in front of it. -/
theorem patternOf_lead {w s rest rest' : List Char} {e : Expression} {parts : List Pattern}
    (hw : Lead w) (he : inner ('{' :: s) = .done e rest) (hlength : rest.length ≤ s.length)
    (hparts : (patternPart inner).many rest = .done parts rest') :
    ∃ front : Pattern, (∀ x, .placeable x ∉ front) ∧ patternOf inner (w ++ '{' :: s) =
      .done (Pattern.layout (front ++ .placeable e :: parts.flatten)) rest' := by
  have hplace : patternPart inner ('{' :: s) = .done [.placeable e] rest :=
    patternPart_placeable he
  obtain hrun | ⟨htext, t, hblock⟩ := hw.cases inner s
  · by_cases hne : w = []
    · subst hne
      refine ⟨[], by simp, ?_⟩
      rw [patternOf, List.nil_append, bind_of_done (many1_of_done hplace hparts)]
      rfl
    · refine ⟨[.text (String.ofList w)], by simp, ?_⟩
      have hmany := many_of_done hplace (Nat.lt_succ_of_le hlength) hparts
      rw [patternOf,
        bind_of_done (many1_of_done (patternPart_run hbrace hrun hne (.inr ⟨s, rfl⟩)) hmany)]
      rfl
  · refine ⟨[.text t], by simp, ?_⟩
    have hfirst : patternPart inner (w ++ '{' :: s) = .done [.text t, .placeable e] rest := by
      rw [patternPart, or_of_refuses htext]
      exact or_of_done (hblock.trans (bind_of_done he))
    rw [patternOf, bind_of_done (many1_of_done hfirst hparts)]
    rfl

theorem aborts_patternOf_lead {w s : List Char} (hw : Lead w) (h : inner.Aborts ('{' :: s)) :
    (patternOf inner).Aborts (w ++ '{' :: s) := by
  have hplace : (patternPart inner).Aborts ('{' :: s) := by
    rw [Aborts, patternPart_of_lineEnd? rfl]
    exact h.bind.or
  obtain hrun | ⟨htext, t, hblock⟩ := hw.cases inner s
  · by_cases hne : w = []
    · subst hne
      exact hplace.bind.bind
    · exact (aborts_bind_of_done (patternPart_run hbrace hrun hne (.inr ⟨s, rfl⟩))
        hplace.many.bind).bind
  · have hfirst : (blockPlaceable inner).Aborts (w ++ '{' :: s) := by
      rw [Aborts, hblock]
      exact h.bind
    exact (aborts_or_of_refuses htext hfirst.or).bind.bind

/-! ## Variants of text -/

omit hbrace in
theorem lineEnd_return {r : List Char} (hr : r = [] ∨ r = ['\r']) (s : List Char) :
    lineEnd (r ++ '\n' :: s) = .done () s := by
  obtain rfl | rfl := hr <;> rfl

omit hbrace in
theorem TextVariants.halts {lines rest : List Char} (h : TextVariants lines)
    (hrest : Halts rest) : Halts (lines ++ rest) := by
  cases h with
  | nil => exact hrest
  | cons hb hk =>
    obtain ⟨-, b, b', -, -, rfl⟩ := hk
    simp only [List.cons_append, List.append_assoc]
    exact halts_of_line hb (.inl rfl)

theorem variant_of_word {u b k w rest : List Char} {key : VariantKey}
    (hline : lineEnd u = .done () (b ++ (k ++ (w ++ rest)))) (hb : Blank b)
    (hk : KeySpelling key k) (hw : Word w) (hrest : Halts rest) :
    ∃ value, variant inner u = .done (false, ⟨key, value⟩) rest ∧
      ∀ e, .placeable e ∉ value := by
  obtain ⟨hrun, hne⟩ := hw.dropWhile
  obtain ⟨value, hvalue, htext⟩ := patternOf_run hbrace hrun hne hrest
  rw [← dropWhile_append_of_ne_nil hne] at hvalue
  have hmark : lineEnd u =
      .done () (b ++ ((if false = true then ['*'] else []) ++ (k ++ (w ++ rest)))) := hline
  exact ⟨value, variant_of_pattern hmark hb hk hvalue, htext⟩

/-- Variants in front of others are read first, whatever becomes of the others. A carriage
return in front of them goes with the first line break. -/
theorem many_textVariants {lines rest r : List Char} (h : TextVariants lines)
    (hrest : Halts rest) (hr : r = [] ∨ r = ['\r']) :
    ∃ (vs : List (Bool × Variant Pattern)) (r' : List Char), (r' = [] ∨ r' = r) ∧
      (∀ v ∈ vs, v.1 = false ∧ ∀ e, .placeable e ∉ v.2.value) ∧
      (variant inner).many (r ++ (lines ++ rest)) =
        ((variant inner).many (r' ++ rest)).map (vs ++ ·) := by
  induction h generalizing r with
  | nil =>
    refine ⟨[], r, .inr rfl, by simp, ?_⟩
    rw [List.nil_append]
    cases (variant inner).many (r ++ rest) <;> rfl
  | @cons b k w s key hb hk hw hs ih =>
    obtain ⟨vs, r', hr', hvs, hmany⟩ := ih (.inl rfl)
    have htext : r ++ ('\n' :: (b ++ (k ++ (w ++ s))) ++ rest) =
        r ++ '\n' :: (b ++ (k ++ (w ++ (s ++ rest)))) := by simp
    obtain ⟨value, hvalue, hplace⟩ :=
      variant_of_word hbrace (lineEnd_return hr _) hb hk hw (hs.halts hrest)
    refine ⟨(false, ⟨key, value⟩) :: vs, r', .inl (by simpa using hr'), ?_, ?_⟩
    · exact List.forall_mem_cons.mpr ⟨⟨rfl, hplace⟩, hvs⟩
    · rw [htext, many_eq_map hvalue (by simp; omega), ← List.nil_append (s ++ rest), hmany]
      cases (variant inner).many (r' ++ rest) <;> rfl

end Inner

/-! ## Selections -/

theorem Ending.halts {c : List Char} (h : Ending c) (rest : List Char) : Halts (c ++ rest) := by
  obtain ⟨hlines, hb⟩ := h
  simp only [List.append_assoc, List.cons_append]
  exact hlines.halts (halts_of_line hb (.inr (.inr rfl)))

/-- Behind the default a selection goes on with variants of text, up to its brace. -/
theorem Ending.many {inner : Parser Expression} {c : List Char} (h : Ending c)
    (hbrace : ∀ s, s.head? ≠ some '{' → inner.Refuses s) (rest : List Char) :
    ∃ vs b, Blank b ∧ (∀ v ∈ vs, v.1 = false ∧ ∀ e, Element.placeable e ∉ v.2.value) ∧
      (variant inner).many (c ++ rest) = .done vs ('\n' :: (b ++ '}' :: rest)) := by
  obtain @⟨lines, b, hlines, hb⟩ := h
  obtain ⟨vs, r, hr, hvs, hmany⟩ := many_textVariants hbrace hlines
    (halts_of_line (s := rest) hb (.inr (.inr rfl))) (.inl rfl)
  obtain rfl : r = [] := by simpa using hr
  refine ⟨vs, b, hb, hvs, ?_⟩
  rw [List.nil_append, List.nil_append, many_of_refuses (refuses_variant_of_brace hb)] at hmany
  simpa [Outcome.map] using hmany

theorem Detached.congr {e : Inline} {s s' : List Char} (h : Detached e s)
    (hhead : s.head? = s'.head?) : Detached e s' := by
  cases e with
  | text => trivial
  | number => exact ⟨fun c hc => h.1 c (hhead ▸ hc), hhead ▸ h.2⟩
  | message | term | argument => exact fun c hc => h c (hhead ▸ hc)

theorem Opening.head {o : List Char} (h : Opening o) : ∃ o', o = '{' :: o' := by
  cases h
  exact ⟨_, rfl⟩

/-- Spaces behind the arrow are skipped, up to the first variant. -/
theorem dropWhile_gap {gap r lines rest : List Char} (hgap : ∀ c ∈ gap, isBlank c = true)
    (hr : r = [] ∨ r = ['\r']) (hlines : TextVariants lines) :
    (gap ++ (r ++ (lines ++ '\n' :: rest))).dropWhile isBlank =
      r ++ (lines ++ '\n' :: rest) := by
  refine dropWhile_append hgap ?_
  obtain rfl | rfl := hr
  · cases hlines <;> exact stops_cons rfl
  · exact stops_cons rfl

theorem opening_append (b t b' gap r lines indent k s : List Char) :
    '{' :: (b ++ (t ++ (b' ++ '-' :: '>' ::
      (gap ++ (r ++ (lines ++ '\n' :: (indent ++ '*' :: k))))))) ++ s =
    '{' :: (b ++ (t ++ (b' ++ '-' :: '>' ::
      (gap ++ (r ++ (lines ++ '\n' :: (indent ++ '*' :: (k ++ s)))))))) := by
  simp

theorem oneDefault_append {vs vs' : List (Bool × Variant Pattern)} (hvs : ∀ v ∈ vs, v.1 = false)
    (hvs' : ∀ v ∈ vs', v.1 = false) (v : Variant Pattern) :
    oneDefault (vs ++ (true, v) :: vs') = true := by
  have hzero : ∀ us : List (Bool × Variant Pattern), (∀ u ∈ us, u.1 = false) →
      us.countP (·.1) = 0 := fun us hus => List.countP_eq_zero.mpr (by simpa using hus)
  simp only [oneDefault, List.countP_append, List.countP_cons, hzero vs hvs, hzero vs' hvs']
  rfl

theorem placeable_of_opening {levels : Nat} {o s c rest : List Char} {p : Pattern}
    (ho : Opening o) (hc : Ending c)
    (h : patternOf (placeable levels) ((s ++ (c ++ rest)).dropWhile isBlank) =
      .done p (c ++ rest)) :
    ∃ e : Expression, e.depth 0 = p.selectDepth + 1 ∧
      placeable (levels + 1) (o ++ (s ++ (c ++ rest))) = .done e rest := by
  have hbrace : ∀ s : List Char, s.head? ≠ some '{' → (placeable levels).Refuses s :=
    fun _ => refuses_placeable levels
  obtain @⟨selector, key, b, t, b', gap, r, before, indent, k, hb, ht, hb', hd, hgap, hr,
    hbefore, hindent, hk⟩ := ho
  obtain ⟨vs, r', hr', hvs, hmany⟩ := many_textVariants hbrace hbefore
    (halts_of_line (s := k ++ (s ++ (c ++ rest))) hindent (.inr (.inl rfl))) hr
  have hline : lineEnd (r' ++ '\n' :: (indent ++ '*' :: (k ++ (s ++ (c ++ rest))))) =
      .done () (indent ++ ((if true = true then ['*'] else []) ++ (k ++ (s ++ (c ++ rest))))) :=
    lineEnd_return (by grind) _
  have hdefault := variant_of_pattern hline hindent hk h
  obtain ⟨vs', b'', hb'', hvs', hmany'⟩ := hc.many hbrace rest
  have hlength : (c ++ rest).length <
      (r' ++ '\n' :: (indent ++ '*' :: (k ++ (s ++ (c ++ rest))))).length := by
    simp only [List.length_append, List.length_cons]
    omega
  rw [many_of_done hdefault hlength hmany', ← dropWhile_gap hgap hr hbefore] at hmany
  have hone := oneDefault_append (fun v hv => (hvs v hv).1) (fun v hv => (hvs' v hv).1) ⟨key, p⟩
  have hselection := selection_of_variants ht hb' (hd.congr (by cases b' <;> rfl)) hmany hone
  have hend : Solid ('}' :: rest) := solid_cons (by decide)
  rw [opening_append]
  refine ⟨_, ?_, placeable_of_expression hb (solid_of_spelling ht _) (or_of_done hselection)
    (hend.blank_append hb'')⟩
  rw [Expression.depth, variantsDepth_eq (v := ⟨key, p⟩) (by simp), Pattern.selectDepth]
  intro v hv
  obtain ⟨u, hu, rfl⟩ := List.mem_map.mp hv
  obtain hu | hu := List.mem_append.mp hu
  · simp [elementsDepth_eq_zero (hvs u hu).2]
  · obtain rfl | hu := List.mem_cons.mp hu
    · exact Nat.le_refl _
    · simp [elementsDepth_eq_zero (hvs' u hu).2]

theorem aborts_placeable_of_opening {levels : Nat} {o s : List Char} (ho : Opening o)
    (h : (patternOf (placeable levels)).Fails (s.dropWhile isBlank)) :
    (placeable (levels + 1)).Aborts (o ++ s) := by
  have hbrace : ∀ s : List Char, s.head? ≠ some '{' → (placeable levels).Refuses s :=
    fun _ => refuses_placeable levels
  obtain @⟨selector, key, b, t, b', gap, r, before, indent, k, hb, ht, hb', hd, hgap, hr,
    hbefore, hindent, hk⟩ := ho
  obtain ⟨vs, r', hr', hvs, hmany⟩ := many_textVariants hbrace hbefore
    (halts_of_line (s := k ++ s) hindent (.inr (.inl rfl))) hr
  have hline : lineEnd (r' ++ '\n' :: (indent ++ '*' :: (k ++ s))) =
      .done () (indent ++ ((if true = true then ['*'] else []) ++ (k ++ s))) :=
    lineEnd_return (by grind) _
  have hdefault := aborts_variant_of_pattern hline hindent hk h
  obtain ⟨e, he, hcommitted⟩ := hdefault.many
  rw [he, Outcome.map, ← dropWhile_gap hgap hr hbefore] at hmany
  rw [opening_append]
  refine aborts_placeable_of_expression hb (solid_of_spelling ht _) (Aborts.or ?_)
  exact aborts_selection_of_variants ht hb' (hd.congr (by cases b' <;> rfl)) ⟨e, hmany, hcommitted⟩

/-! ## Nested selections are read level by level -/

theorem Blank.dropWhile {b : List Char} (h : Blank b) : Blank (b.dropWhile isBlank) := by
  induction h with
  | nil => exact .nil
  | space _ ih => exact ih
  | lineFeed h => exact h.lineFeed
  | carriageReturn h => exact h.carriageReturn

/-- The spaces in front of a pattern do not count. -/
theorem Nested.dropWhile {n : Nat} {s : List Char} (h : Nested n s) :
    Nested n (s.dropWhile isBlank) ∧ s.dropWhile isBlank ≠ [] := by
  cases h with
  | text hw =>
    obtain ⟨hrun, hne⟩ := hw.dropWhile
    refine ⟨.text ⟨hrun, _, List.head_mem hne, ?_⟩, hne⟩
    simpa [isBlank] using List.head_dropWhile_not isBlank hne
  | @select n w o s c w' hw ho hs hc hw' =>
    obtain ⟨o', rfl⟩ := ho.head
    have hdrop : (w ++ ('{' :: o' ++ (s ++ (c ++ w')))).dropWhile isBlank =
        w.dropWhile isBlank ++ ('{' :: o' ++ (s ++ (c ++ w'))) := by
      rw [List.dropWhile_append]
      cases hnil : w.dropWhile isBlank <;> simp [isBlank]
    rw [hdrop]
    refine ⟨.select ?_ ho hs hc hw', by simp⟩
    exact hw.imp (fun h c hc => h c ((List.dropWhile_suffix isBlank).subset hc)) Blank.dropWhile

theorem patternOf_of_nested {n levels : Nat} {s rest : List Char} (h : Nested n s)
    (hlevels : n ≤ levels) (hrest : Halts rest) :
    ∃ p, patternOf (placeable levels) (s ++ rest) = .done p rest ∧ p.selectDepth = n := by
  have hbrace : ∀ s : List Char, s.head? ≠ some '{' → (placeable levels).Refuses s :=
    fun _ => refuses_placeable levels
  induction n generalizing s levels rest with
  | zero =>
    cases h with
    | text hw =>
      obtain ⟨hrun, c, hc, -⟩ := hw
      obtain ⟨p, hp, hplace⟩ := patternOf_run hbrace hrun (List.ne_nil_of_mem hc) hrest
      exact ⟨p, hp, elementsDepth_eq_zero hplace⟩
  | succ n ih =>
    obtain ⟨levels, rfl⟩ := Nat.exists_eq_add_of_lt hlevels
    cases h with
    | @select _ w o s c w' hw ho hs hc hw' =>
      obtain ⟨hs', hne⟩ := hs.dropWhile
      obtain ⟨q, hq, hdepth⟩ := ih hs' (Nat.le_add_right n levels) (hc.halts (w' ++ rest))
        (fun _ => refuses_placeable _)
      rw [← dropWhile_append_of_ne_nil hne] at hq
      obtain ⟨e, he, hread⟩ := placeable_of_opening ho hc hq
      obtain ⟨parts, hparts, htext⟩ := many_patternPart_run hbrace hw' hrest
      obtain ⟨o', rfl⟩ := ho.head
      have happend : w ++ ('{' :: o' ++ (s ++ (c ++ w'))) ++ rest =
          w ++ '{' :: (o' ++ (s ++ (c ++ (w' ++ rest)))) := by simp
      have hlength : (w' ++ rest).length ≤ (o' ++ (s ++ (c ++ (w' ++ rest)))).length := by
        simp only [List.length_append]
        omega
      obtain ⟨front, hfront, hpattern⟩ := patternOf_lead hbrace hw hread hlength hparts
      rw [happend]
      refine ⟨_, hpattern, ?_⟩
      have honly : ∀ x, .placeable x ∈ Pattern.layout (front ++ .placeable e :: parts.flatten) →
          x = e := by
        intro x hx
        simpa [hfront x, htext x] using Pattern.placeable_mem_layout hx
      have hmem : .placeable e ∈ Pattern.layout (front ++ .placeable e :: parts.flatten) :=
        Pattern.placeable_mem_layout_iff.mpr (by simp)
      rw [Pattern.selectDepth, elementsDepth_eq hmem fun x hx => (congrArg _ (honly x hx)).le,
        he, hdepth]

theorem aborts_patternOf_of_nested {n levels : Nat} {s : List Char} (h : Nested n s)
    (hlevels : levels < n) (rest : List Char) :
    (patternOf (placeable levels)).Aborts (s ++ rest) := by
  induction n generalizing s levels rest with
  | zero => omega
  | succ n ih =>
    cases h with
    | @select _ w o s c w' hw ho hs hc hw' =>
      have happend : w ++ (o ++ (s ++ (c ++ w'))) ++ rest =
          w ++ (o ++ (s ++ (c ++ (w' ++ rest)))) := by simp
      have hplace : (placeable levels).Aborts (o ++ (s ++ (c ++ (w' ++ rest)))) := by
        cases levels with
        | zero =>
          obtain ⟨o', rfl⟩ := ho.head
          exact aborts_placeable_zero _
        | succ levels =>
          obtain ⟨hs', hne⟩ := hs.dropWhile
          refine aborts_placeable_of_opening ho ?_
          rw [dropWhile_append_of_ne_nil hne]
          exact (ih hs' (by omega) _).fails
      obtain ⟨o', rfl⟩ := ho.head
      rw [happend]
      exact aborts_patternOf_lead (fun _ => refuses_placeable levels) hw hplace

/-! ## The limit -/

theorem pattern_of_enclosed {e : Inline} {t s : List Char} {n : Nat} (ht : InlineSpelling e t)
    (h : Enclosed t n s) (hn : 1 ≤ n) (hlevels : n ≤ maxNesting) :
    pattern s = .done [.placeable (.inline e)] [] := by
  obtain ⟨n, rfl⟩ := Nat.exists_eq_add_of_lt hn
  have hread : placeable maxNesting (s ++ []) = .done (.inline e) [] :=
    placeable_of_enclosed ht h hlevels []
  have hend : (patternPart (placeable maxNesting)).many [] = .done [] [] :=
    many_of_refuses (refuses_patternPart_of_halts (fun _ => refuses_placeable _) (.inl rfl))
  cases h with
  | wrap =>
    rw [List.append_nil] at hread
    rw [pattern, patternOf, bind_of_done (many1_of_done (patternPart_placeable hread) hend)]
    rfl

theorem aborts_pattern_of_enclosed {t s : List Char} {n : Nat} (h : Enclosed t n s)
    (hlevels : maxNesting < n) : pattern.Aborts s := by
  have hplace := aborts_placeable_of_enclosed h hlevels []
  cases h with
  | bare => omega
  | wrap =>
    rw [List.append_nil] at hplace
    exact aborts_patternOf_lead (fun _ => refuses_placeable _) (.inr .nil) hplace

end Phrasebook.Source

namespace Phrasebook

open Source

theorem Pattern.parse_of_done {s : List Char} {p : Pattern} (hne : s ≠ [])
    (h : pattern s = .done p []) : Pattern.parse (String.ofList s) = .ok p :=
  complete_eq_ok.mpr ⟨by simpa using hne, by rwa [String.toList_ofList]⟩

theorem Pattern.parse_of_aborts {s : List Char} (hne : s ≠ []) (h : pattern.Aborts s) :
    ∃ position reason, Pattern.parse (String.ofList s) = .error (.malformed position reason) :=
  complete_of_fails (by simpa using hne) (by rw [String.toList_ofList]; exact h.fails)

/-- The nesting limit is exact. An inline expression in `n` pairs of braces is read as that
expression if `n` is at most `maxNesting`, and `n` selections in the default variants of
each other are read as selections nested `n` deep. Beyond the limit both are malformed. -/
theorem Pattern.parse_nesting_limit :
    (∀ (e : Inline) (t s : List Char) (n : Nat), InlineSpelling e t → Enclosed t n s → 1 ≤ n →
      (n ≤ maxNesting → Pattern.parse (String.ofList s) = .ok [.placeable (.inline e)]) ∧
      (maxNesting < n → ∃ position reason,
        Pattern.parse (String.ofList s) = .error (.malformed position reason))) ∧
    (∀ (n : Nat) (s : List Char), Nested n s →
      (n ≤ maxNesting → ∃ p, Pattern.parse (String.ofList s) = .ok p ∧ p.selectDepth = n) ∧
      (maxNesting < n → ∃ position reason,
        Pattern.parse (String.ofList s) = .error (.malformed position reason))) := by
  constructor
  · intro e t s n ht h hn
    have hne : s ≠ [] := by
      cases h with
      | bare => omega
      | wrap => simp
    exact ⟨fun hlevels => parse_of_done hne (pattern_of_enclosed ht h hn hlevels),
      fun hlevels => parse_of_aborts hne (aborts_pattern_of_enclosed h hlevels)⟩
  · intro n s h
    have hne : s ≠ [] := fun hnil => h.dropWhile.2 (by simp [hnil])
    refine ⟨fun hlevels => ?_, fun hlevels => ?_⟩
    · obtain ⟨p, hp, hdepth⟩ := patternOf_of_nested h hlevels (.inl rfl)
      rw [List.append_nil] at hp
      exact ⟨p, parse_of_done hne hp, hdepth⟩
    · have haborts := aborts_patternOf_of_nested h hlevels []
      rw [List.append_nil] at haborts
      exact parse_of_aborts hne haborts

theorem enclosed_replicate (t : List Char) (n : Nat) :
    Enclosed t n (List.replicate n '{' ++ (t ++ List.replicate n '}')) := by
  induction n with
  | zero => simpa using Enclosed.bare
  | succ n ih =>
    rw [List.replicate_succ, List.replicate_succ', ← List.append_assoc t, List.cons_append,
      ← List.append_assoc]
    simpa using Enclosed.wrap .nil .nil ih

theorem opening_default : Opening "\x7b $n ->\n  *[a]".toList := by
  have hname : ∀ c, Alphabet.isNameStart c = true → IsName (String.ofList [c]) :=
    fun c hc => ⟨c, [], by simp, hc, by simp⟩
  have hselector : InlineSpelling (.argument "n") ['$', 'n'] := ⟨hname 'n' rfl, rfl⟩
  have hkey : KeySpelling (.name "a") "[a]".toList :=
    keySpelling_writeKey (show VariantKey.WellFormed (.name "a") from hname 'a' rfl)
  have hspace : Blank [' '] := Blank.nil.space
  have hnone : ∀ c ∈ ([] : List Char), Alphabet.isBlank c = true := by simp
  exact .mk hspace hselector hspace (apart_cons rfl (by decide)) hnone (.inl rfl) .nil
    hspace.space hkey

theorem nested_default {n : Nat} {s : List Char} (h : Nested n s) :
    Nested (n + 1) ("\x7b $n ->\n  *[a]".toList ++ (s ++ "\n\x7d".toList)) := by
  have hlead : Lead [] := .inr .nil
  have hclose : Ending "\n\x7d".toList := .mk .nil .nil
  have htail : Run [] := by simp [Run]
  simpa using Nested.select hlead opening_default h hclose htail

theorem exists_nested (n : Nat) : ∃ s, Nested n s := by
  induction n with
  | zero => exact ⟨['x'], .text ⟨by simp [Run, Alphabet.isText], 'x', by simp, by decide⟩⟩
  | succ n ih =>
    obtain ⟨s, hs⟩ := ih
    exact ⟨_, nested_default hs⟩

theorem Pattern.parse_nesting_limit_braces :
    Pattern.parse (String.ofList (List.replicate 32 '{' ++ ("\"x\"".toList ++
      List.replicate 32 '}'))) = .ok [.placeable (.inline (.text "x"))] ∧
    (∃ position reason, Pattern.parse (String.ofList (List.replicate 33 '{' ++ ("\"x\"".toList ++
      List.replicate 33 '}'))) = .error (.malformed position reason)) ∧
    (∃ p, Pattern.parse "\x7b $n ->\n  *[a] x\n\x7d" = .ok p ∧ p.selectDepth = 1) ∧
    ∃ s, Nested 33 s ∧ ∃ position reason,
      Pattern.parse (String.ofList s) = .error (.malformed position reason) := by
  have htext : InlineSpelling (.text "x") "\"x\"".toList := textSpelling_writeText "x"
  have hword : Nested 0 [' ', 'x'] :=
    .text ⟨by simp [Run, Alphabet.isText], 'x', by simp, by decide⟩
  obtain ⟨s, hs⟩ := exists_nested 33
  refine ⟨?_, ?_, ?_, s, hs, ?_⟩
  · exact (parse_nesting_limit.1 _ _ _ 32 htext (enclosed_replicate _ 32) (by decide)).1 (by decide)
  · exact (parse_nesting_limit.1 _ _ _ 33 htext (enclosed_replicate _ 33) (by decide)).2 (by decide)
  · exact (parse_nesting_limit.2 1 _ (nested_default hword)).1 (by decide)
  · exact (parse_nesting_limit.2 33 s hs).2 (by decide)

end Phrasebook
