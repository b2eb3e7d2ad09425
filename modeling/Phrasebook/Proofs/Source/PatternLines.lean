import Phrasebook.Proofs.Layout
import Phrasebook.Proofs.Source.CarriageReturns

/-!
# Patterns with and without carriage returns

The parts of a pattern that are read from a text with carriage returns have the pieces of
the plain parts, with a carriage return in front of every line feed and perhaps one at the
end. The layout makes both the same pattern. Only where no value stands in front of a line
break do the readings part: the plain text has no pattern there, and the other text an empty
one.
-/

namespace Phrasebook.Source

open Alphabet Phrasebook.Source.Parser

/-! ## Pieces of two readings -/

theorem withReturns_map_char (s : List Char) :
    Pattern.withReturns (s.map .char) = (withReturns s).map .char := by
  induction s with
  | nil => rfl
  | cons c s ih =>
    simp only [Pattern.withReturns, withReturns, List.map_cons, List.flatMap_cons] at ih ⊢
    rw [ih, List.map_append]
    by_cases hc : c = '\n' <;> simp [hc, Piece.isLineFeed, Piece.isChar]

/-- The second reading of a pattern has the pieces of the first with carriage returns, less
the one that it had taken ahead and with the one that it took ahead at the end. -/
structure Matches (ahead ahead' : Bool) (p p' : Pattern) : Prop where
  unreturned : .char '\r' ∉ p.pieces
  pieces : (pending ahead).map .char ++ p'.pieces =
    Pattern.withReturns p.pieces ++ (pending ahead').map .char

namespace Matches

variable {a b c : Bool} {p p' q q' : Pattern}

theorem nil (a : Bool) : Matches a a [] [] := ⟨by simp [Pattern.pieces], by cases a <;> rfl⟩

theorem append (hp : Matches a b p p') (hq : Matches b c q q') :
    Matches a c (p ++ q) (p' ++ q') := by
  refine ⟨by simp [Pattern.pieces_append, hp.unreturned, hq.unreturned], ?_⟩
  calc (pending a).map .char ++ (p' ++ q').pieces
    _ = ((pending a).map .char ++ p'.pieces) ++ q'.pieces := by
      rw [Pattern.pieces_append, List.append_assoc]
    _ = Pattern.withReturns p.pieces ++ ((pending b).map .char ++ q'.pieces) := by
      rw [hp.pieces, List.append_assoc]
    _ = Pattern.withReturns (p ++ q).pieces ++ (pending c).map .char := by
      rw [hq.pieces, Pattern.pieces_append, Pattern.withReturns, Pattern.withReturns,
        Pattern.withReturns, List.flatMap_append, List.append_assoc]

/-- Text that was read up to the end of its line, or up to a brace. -/
theorem text {u u' : List Char} (h : Abreast a u u') (b : Bool) :
    Matches a b [.text (String.ofList u)] [.text (String.ofList (u' ++ pending b))] := by
  have hmem : '\r' ∉ u := Returned.not_mem h
  have heq : pending a ++ u' = withReturns u := Returned.eq_withReturns h
  refine ⟨by simpa [Pattern.pieces_text] using hmem, ?_⟩
  simp only [Pattern.pieces_text, withReturns_map_char, ← heq, List.map_append, List.append_assoc]

theorem placeable (e : Expression) : Matches false false [.placeable e] [.placeable e] :=
  ⟨by simp [Pattern.pieces], rfl⟩

/-- Both readings mean the same pattern. -/
theorem layout_eq (h : Matches false b p p') (hp : Pattern.EndsFilled p.pieces) :
    p.layout = p'.layout := by
  obtain ⟨hplain, hreturn⟩ := Pattern.layoutPieces_withReturns h.unreturned
  have hpieces := h.pieces
  simp only [Pattern.layout]
  cases b with
  | false =>
    have hpieces : p'.pieces = Pattern.withReturns p.pieces := by simpa [pending] using hpieces
    rw [hpieces, hplain]
  | true =>
    have hpieces : p'.pieces = Pattern.withReturns p.pieces ++ [.char '\r'] := by
      simpa [pending] using hpieces
    rw [hpieces, hreturn hp]

end Matches

/-! ## Parts of patterns -/

/-- What two readings make of a part of a pattern. Its last line is not blank, unless it is
text inside a line that starts with a space. -/
def PartRead (ahead : Bool) (s : List Char) (p p' : Pattern) (r r' : List Char) : Prop :=
  ∃ ahead', Abreast ahead' r r' ∧ Matches ahead ahead' p p' ∧
    (Pattern.EndsFilled p.pieces ∨
      (s.head? = some ' ' ∧ ∀ x ∈ p.pieces, x.isLineFeed = false))

theorem inline_takeWhile_isText (s : List Char) :
    ∀ x ∈ (s.takeWhile isText).map Piece.char, x.isLineFeed = false := by
  intro x hx
  obtain ⟨c, hc, rfl⟩ := List.mem_map.mp hx
  have htext : isText c = true := List.all_eq_true.mp List.all_takeWhile c hc
  simp only [isText, Bool.and_eq_true, bne_iff_ne] at htext
  simpa [Piece.isLineFeed, Piece.isChar] using htext.2

/-- A line is not blank from a character on that is no space. -/
theorem endsFilled_text {c : Char} (hspace : c ≠ ' ') (hline : c ≠ '\n') (u s : List Char) :
    Pattern.EndsFilled (Pattern.pieces
      [.text (String.ofList (u ++ c :: s.takeWhile isText))]) := by
  refine ⟨u.map .char, .char c, (s.takeWhile isText).map .char, ?_, ?_,
    List.forall_mem_cons.mpr ⟨?_, inline_takeWhile_isText s⟩⟩
  · rw [Pattern.pieces_text, List.map_append, List.map_cons]
  · simpa [Piece.isSpace, Piece.isChar] using hspace
  · simpa [Piece.isLineFeed, Piece.isChar] using hline

theorem mirrors_blockText {ahead : Bool} {s s' : List Char} (h : Abreast ahead s s') :
    Mirrors (PartRead ahead s) (blockText s) (blockText s') := by
  refine (mirrors_blankBlock h).bind ?_
  rintro u u' r r' ⟨hu, hr, hend⟩
  refine (mirrored_takeWhile1 rfl rfl r r' hr).and_done.bind ?_
  rintro indent _ t t' ⟨⟨rfl, ht⟩, hdone⟩
  obtain ⟨rfl, rfl⟩ := takeWhile1_eq_done hdone
  have hspace := List.head?_dropWhile_not isBlank r
  have hindent := hr.takeWhile_self isBlank rfl
  generalize r.takeWhile isBlank = indent at *
  -- Behind the indentation there is no line end, which would be part of the blank lines.
  generalize r.dropWhile isBlank = t at *
  cases ht with
  | nil => exact .failed rfl
  | line _ => cases hend
  | @char c t t' hc hcr ht =>
    by_cases hopen : isLineOpening c
    · obtain ⟨ahead', htake, hdrop⟩ := ht.span_ahead isText rfl rfl
      have hmatch := Matches.text (hu.append (hindent.append
        ((ht.takeWhile_self isText rfl).char hc hcr))) ahead'
      simp only [bind_apply, satisfy, hopen, if_true, takeWhile_apply, pure_apply, htake]
      refine .done ⟨ahead', hdrop, by simpa using hmatch, .inl ?_⟩
      exact endsFilled_text (by simpa [isBlank] using hspace) hc _ _
    · have hrefuses (t : List Char) : (satisfy isLineOpening).Refuses (c :: t) :=
        refuses_satisfy.mpr (by simpa using hopen)
      exact .of_refuses (hrefuses t).bind (hrefuses t').bind

theorem mirrors_inlineText {ahead : Bool} {s s' : List Char} (h : Abreast ahead s s')
    (hline : ahead = true ∨ s.head? ≠ some '\n') :
    Mirrors (PartRead ahead s) (inlineText s) (inlineText s') := by
  have hrefuses (t : List Char) : inlineText.Refuses ('\n' :: t) :=
    Refuses.bind (refuses_takeWhile1.mpr (by simp [isText]))
  cases ahead with
  | true =>
    obtain ⟨t, t', rfl, rfl, -⟩ := abreast_true.mp h
    exact .of_refuses (hrefuses t) (hrefuses t')
  | false =>
    cases h with
    | nil => exact .failed rfl
    | line _ => simp at hline
    | @char c t t' hc hcr ht =>
      by_cases htext : isText c
      · obtain ⟨ahead', htake, hdrop⟩ := ht.span_ahead isText rfl rfl
        have hself := (ht.takeWhile_self isText rfl).char hc hcr
        have hmatch := Matches.text (show Abreast false _ _ from hself) ahead'
        simp only [inlineText, takeWhile1, bind_apply, satisfy, htext, if_true, takeWhile_apply,
          pure_apply, htake]
        refine .done ⟨ahead', hdrop, by simpa using hmatch, ?_⟩
        by_cases hspace : c = ' '
        · refine .inr ⟨by simp [hspace], ?_⟩
          rw [Pattern.pieces_text]
          exact List.forall_mem_cons.mpr
            ⟨by simpa [Piece.isLineFeed, Piece.isChar] using hc, inline_takeWhile_isText t⟩
        · exact .inl (endsFilled_text hspace hc [] t)
      · have hrefuses (t : List Char) : inlineText.Refuses (c :: t) :=
          Refuses.bind (refuses_takeWhile1.mpr (by simpa using htext))
        exact .of_refuses (hrefuses t) (hrefuses t')

/-! ## Patterns -/

/-- What is asked of the parser for the placeables inside a pattern. -/
structure Nestable (inner : Parser Expression) : Prop where
  advances : inner.Advances
  mirrored : Mirrored Returned inner Returned
  consumes : Consumes inner
  refuses : ∀ s, inner.Refuses ('\n' :: s)

theorem not_refuses_patternPart_return {inner : Parser Expression} (t : List Char) :
    ¬ (patternPart inner).Refuses ('\r' :: t) := by
  intro h
  have htext := (refuses_or.mp (refuses_or.mp (refuses_or.mp h).2).2).2
  obtain h | ⟨cs, r, -, h⟩ := refuses_bind_cases htext
  · simpa [isText] using refuses_takeWhile1.mp h
  · obtain ⟨e, h, -⟩ := h
    cases h

theorem not_refuses_patternOf_return {inner : Parser Expression} (t : List Char) :
    ¬ (patternOf inner).Refuses ('\r' :: t) := by
  intro h
  obtain h | ⟨ps, r, -, h⟩ := refuses_bind_cases h
  · obtain h | ⟨p, r, -, h⟩ := refuses_bind_cases h
    · exact not_refuses_patternPart_return t h
    · obtain h | ⟨ps, r, -, e, h, -⟩ := refuses_bind_cases h
      · exact not_refuses_many h
      · cases h
  · obtain ⟨e, h, -⟩ := h
    cases h

/-- In front of a line break that does not go on with the pattern, the plain text has no part
of a pattern, and the carriage return is one. -/
def Straying (p : Parser Pattern) (s s' : List Char) (found : Pattern) : Prop :=
  ∃ t t', s = '\n' :: t ∧ s' = '\r' :: '\n' :: t' ∧ Returned t t' ∧ p s = .failed { rest := s } ∧
    p s' = .done found ('\n' :: t')

section Nested

variable {inner : Parser Expression} (hinner : Nestable inner) {ahead : Bool} {s s' : List Char}
include hinner

theorem mirrors_blockPlaceable (h : Abreast ahead s s') :
    Mirrors (PartRead ahead s) (blockPlaceable inner s) (blockPlaceable inner s') := by
  refine (mirrors_blankBlock h).bind ?_
  rintro u u' r r' ⟨hu, hr, -⟩
  obtain ⟨htake, hdrop⟩ := hr.span isBlank rfl rfl
  simp only [bind_apply, takeWhile_apply, ← htake]
  refine (hinner.mirrored _ _ hdrop).bind ?_
  rintro e _ t t' ⟨rfl, ht⟩
  refine .done ⟨false, ht, ?_, .inl ?_⟩
  · have htext := Matches.text (hu.append (hr.takeWhile_self isBlank rfl)) false
    simpa [pending] using htext.append (.placeable e)
  · exact ⟨(u ++ r.takeWhile isBlank).map .char, .placeable e, [], by simp [Pattern.pieces], rfl,
      by simp [Piece.isLineFeed, Piece.isChar]⟩

theorem mirrors_inlinePlaceable (h : Abreast ahead s s') :
    Mirrors (PartRead ahead s) (inlinePlaceable inner s) (inlinePlaceable inner s') := by
  cases ahead with
  | true =>
    obtain ⟨t, t', rfl, rfl, -⟩ := abreast_true.mp h
    exact .of_refuses (hinner.refuses t).bind (hinner.refuses t').bind
  | false =>
    refine (hinner.mirrored s s' h).bind ?_
    rintro e _ t t' ⟨rfl, ht⟩
    refine .done ⟨false, ht, .placeable e, .inl ⟨[], .placeable e, [], rfl, rfl, ?_⟩⟩
    simp [Piece.isLineFeed, Piece.isChar]

theorem mirrors_patternPart (h : Abreast ahead s s') :
    Mirrors (PartRead ahead s) (patternPart inner s) (patternPart inner s') ∨
      (ahead = false ∧ Straying (patternPart inner) s s' [.text "\r"]) := by
  let front := blockText.or ((blockPlaceable inner).or (inlinePlaceable inner))
  have hpart : patternPart inner = front.or inlineText := by
    rw [patternPart, or_assoc (blockPlaceable inner), or_assoc blockText]
  have hfront : Mirrors (PartRead ahead s) (front s) (front s') :=
    (mirrors_blockText h).or fun _ =>
      (mirrors_blockPlaceable hinner h).or fun _ => mirrors_inlinePlaceable hinner h
  rw [hpart]
  by_cases hline : ahead = true ∨ s.head? ≠ some '\n'
  · exact .inl (hfront.or fun _ => mirrors_inlineText h hline)
  · obtain ⟨rfl, hhead⟩ : ahead = false ∧ s.head? = some '\n' := by simpa using hline
    obtain ⟨t, rfl⟩ := List.head?_eq_some_iff.mp hhead
    by_cases hrefuses : front.Refuses ('\n' :: t)
    · refine .inr ⟨rfl, ?_⟩
      cases h with
      | char hc _ _ => contradiction
      | @line _ t' ht =>
        refine ⟨t, t', rfl, rfl, ht, ?_, ?_⟩
        · rw [or_of_refuses hrefuses]
          rfl
        · rw [or_of_refuses (hfront.refuses hrefuses)]
          rfl
    · exact .inl (hfront.or fun hfront => absurd hfront hrefuses)

/-- Once the carriage return is taken, both readings refuse alike. -/
theorem refuses_patternPart_line {t t' : List Char} (ht : Returned t t')
    (h : (patternPart inner).Refuses ('\n' :: t)) : (patternPart inner).Refuses ('\n' :: t') := by
  have hahead : Abreast true ('\n' :: t) ('\n' :: t') := ht.line
  obtain hpart | ⟨hfalse, -⟩ := mirrors_patternPart hinner hahead
  · exact hpart.refuses h
  · cases hfalse

theorem consumes_patternPart : Consumes (patternPart inner) := by
  refine Consumes.or (consumes_blankBlock.bind fun _ => ?_) <|
    Consumes.or (consumes_blankBlock.bind fun _ => ?_) <|
      Consumes.or (hinner.consumes.bind fun _ => .pure _) ?_
  · exact (advances_takeWhile1 isBlank).bind fun _ => (advances_satisfy _).bind fun _ =>
      (advances_takeWhile isText).bind fun _ => .pure _
  · exact (advances_takeWhile isBlank).bind fun _ => hinner.advances.bind fun _ => .pure _
  · exact ((consumes_satisfy isText).bind fun _ => (advances_takeWhile isText).bind fun _ =>
      .pure _).bind fun _ => .pure _

/-- What two readings make of several parts of a pattern. -/
def PartsRead (ahead : Bool) (ps ps' : List Pattern) (r r' : List Char) : Prop :=
  ∃ ahead', Abreast ahead' r r' ∧ Matches ahead ahead' ps.flatten ps'.flatten ∧
    (Pattern.EndsFilled (Pattern.pieces ps.flatten) ∨
      ∀ x ∈ Pattern.pieces ps.flatten, x.isLineFeed = false)

/-- Part by part, both readings find the same; at the end, the second may find a carriage
return more. -/
theorem mirrors_parts (h : Abreast ahead s s') :
    Mirrors (PartsRead ahead) ((patternPart inner).many s) ((patternPart inner).many s') := by
  have hlt := consumes_patternPart hinner
  induction hn : s.length using Nat.strongRecOn generalizing ahead s s' with
  | ind n ih =>
    subst hn
    obtain hpart | ⟨rfl, t, t', rfl, rfl, ht, hrefused, hfound⟩ := mirrors_patternPart hinner h
    · rw [many_eq_or hlt]
      refine Mirrors.or (hpart.and_done.bind ?_) fun _ =>
        .done ⟨ahead, h, .nil ahead, .inr (by simp [Pattern.pieces])⟩
      rintro p p' r r' ⟨⟨ahead', hr, hmatch, hfilled⟩, hdone⟩
      refine (ih r.length (hlt s p r hdone) hr rfl).bind ?_
      rintro ps ps' t t' ⟨ahead'', ht, hmatches, hrest⟩
      refine .done ⟨ahead'', ht, hmatch.append hmatches, ?_⟩
      rw [List.flatten_cons, Pattern.pieces_append]
      obtain hrest | hrest := hrest
      · exact .inl (hrest.after _)
      · refine hfilled.imp (fun h => h.append_inline hrest) fun h x hx => ?_
        exact (List.mem_append.mp hx).elim (h.2 x) (hrest x)
    · have hrefuses : (patternPart inner).Refuses ('\n' :: t) := ⟨_, hrefused, rfl⟩
      have hrest := refuses_patternPart_line hinner ht hrefuses
      rw [many_of_refuses hrefuses,
        many_of_done hfound (Nat.lt_succ_self _) (many_of_refuses hrest)]
      refine .done ⟨true, ht.line, ⟨by simp [Pattern.pieces], rfl⟩, .inr (by simp [Pattern.pieces])⟩

theorem mirrors_patternOf (h : Flush s s') :
    Mirrors (fun p p' r r' => p = p' ∧ Near r r') (patternOf inner s) (patternOf inner s') ∨
      Straying (patternOf inner) s s' [] := by
  obtain ⟨hs, hspace⟩ := h
  obtain hpart | ⟨-, t, t', rfl, rfl, ht, hrefused, hfound⟩ :=
    mirrors_patternPart hinner (show Abreast false s s' from hs)
  · left
    have hparts : Mirrors (fun ps ps' r r' => Near r r' ∧
        Pattern.layout ps.flatten = Pattern.layout ps'.flatten)
        ((patternPart inner).many1 s) ((patternPart inner).many1 s') := by
      refine hpart.bind ?_
      rintro p p' r r' ⟨ahead, hr, hmatch, hfilled⟩
      have hfilled := hfilled.resolve_right fun h => hspace h.1
      refine (mirrors_parts hinner hr).bind ?_
      rintro ps ps' t t' ⟨ahead', ht, hmatches, hrest⟩
      refine .done ⟨⟨ahead', ht⟩, (hmatch.append hmatches).layout_eq ?_⟩
      rw [Pattern.pieces_append]
      exact hrest.elim (fun h => h.after _) fun h => hfilled.append_inline h
    refine hparts.bind ?_
    rintro ps ps' r r' ⟨hr, hlayout⟩
    exact .done ⟨hlayout, hr⟩
  · right
    have hrefuses : (patternPart inner).Refuses ('\n' :: t) := ⟨_, hrefused, rfl⟩
    have hrest := refuses_patternPart_line hinner ht hrefuses
    refine ⟨t, t', rfl, rfl, ht, ?_, ?_⟩
    · simp only [patternOf, many1, bind_apply, hrefused]
    · rw [patternOf, bind_of_done (many1_of_done hfound (many_of_refuses hrest))]
      rfl

/-- A value that has to be there. -/
theorem mirrored_value {name : String} (hname : name ∈ valueLabels) :
    Mirrored Flush ((patternOf inner).commit.label name) Near := by
  intro s s' hs
  obtain h | ⟨t, t', rfl, rfl, -, hrefused, -⟩ := mirrors_patternOf hinner hs
  · exact h.commit.context _
  · simp only [label, context, commit, hrefused]
    exact .wanting ⟨rfl, rfl, name, hname, rfl⟩

/-! ## Selections and placeables -/

theorem mirrored_variant : Mirrored Near (variant inner) Near :=
  mirrored_lineEnd.bind fun _ => mirrored_blank.bind fun _ =>
    ((mirrored_char '*').optional id).bind fun _ =>
      mirrored_variantKey.bind fun _ => mirrored_spaces.bind fun _ =>
        (mirrored_value hinner (by decide)).bind fun _ => .pure _

theorem consumes_variant : Consumes (variant inner) :=
  consumes_lineEnd.bind fun _ => advances_blank.bind fun _ =>
    (advances_char '*').optional.bind fun _ => advances_variantKey.bind fun _ =>
      advances_spaces.bind fun _ =>
        ((advances_patternOf hinner.advances).commit.label _).bind fun _ => .pure _

theorem mirrored_selection : Mirrored Returned (selection inner) Returned :=
  mirrored_inline.bind fun _ => mirrored_blank.bind fun _ =>
    (mirrored_literal ['-', '>']).bind fun _ =>
      (mirrored_spaces.mono id fun h => h.returned.near).bind fun _ =>
        (((((mirrored_variant hinner).many (consumes_variant hinner)).verify
          oneDefault).commit.label _).expecting _).bind fun _ =>
            (mirrored_lineEnd.commit.expecting _).bind fun _ => .pure _

theorem mirrored_expression : Mirrored Returned (expression inner) Returned :=
  (mirrored_selection hinner).or <| (mirrored_inline.map _).or hinner.mirrored

end Nested

theorem nestable_placeable (levels : Nat) : Nestable (placeable levels) := by
  induction levels with
  | zero =>
    refine ⟨advances_placeable 0, ?_, ?_, fun s => ?_⟩
    · exact (mirrored_char '{').bind fun _ =>
        (Mirrored.fail.commit.label _).expecting _
    · exact (consumes_char '{').bind fun _ => (Advances.fail.commit.label _).expecting _
    · exact (refuses_char.mpr (by simp)).bind
  | succ levels ih =>
    refine ⟨advances_placeable (levels + 1), ?_, ?_, fun s => ?_⟩
    · exact (mirrored_char '{').bind fun _ =>
        ((mirrored_blank.bind fun _ => (mirrored_expression ih).bind fun _ =>
          mirrored_blank.bind fun _ =>
            (mirrored_char '}').bind fun _ => .pure _).commit.label _).context _
    · exact (consumes_char '{').bind fun _ =>
        ((advances_blank.bind fun _ => (advances_expression ih.advances).bind fun _ =>
          advances_blank.bind fun _ =>
            (advances_char '}').bind fun _ => .pure _).commit.label _).context _
    · exact (refuses_char.mpr (by simp)).bind

end Phrasebook.Source
