import Phrasebook.Layout
import Phrasebook.Proofs.Resource.WellFormed

/-!
# Laws of the layout

A pattern and the row of its pieces determine each other as long as the texts of the
pattern are merged. The layout rules only drop pieces and line ends, so they add no
characters but line feeds and no placeables; they leave a pattern tidy, and a plain
pattern as it is. They do not see whether lines end with or without a carriage return.
-/

namespace Phrasebook.Pattern

/-! ## Pieces and patterns -/

theorem pieces_text_cons (t : String) (p : Pattern) :
    pieces (.text t :: p) = t.toList.map .char ++ pieces p := by
  simp [pieces]

theorem pieces_placeable_cons (e : Expression) (p : Pattern) :
    pieces (.placeable e :: p) = .placeable e :: pieces p := by
  simp [pieces]

theorem pieces_append (p q : Pattern) : pieces (p ++ q) = pieces p ++ pieces q := by
  simp [pieces]

theorem pieces_text (s : List Char) : pieces [.text (String.ofList s)] = s.map .char := by
  simp [pieces]

theorem char_mem_pieces {c : Char} {p : Pattern} :
    .char c ∈ pieces p ↔ ∃ t, .text t ∈ p ∧ c ∈ t.toList := by
  induction p with
  | nil => simp [pieces]
  | cons x p ih =>
    cases x with
    | text t => simp [pieces_text_cons, ih]
    | placeable e => simp [pieces_placeable_cons, ih]

theorem placeable_mem_pieces {e : Expression} {p : Pattern} :
    .placeable e ∈ pieces p ↔ .placeable e ∈ p := by
  induction p with
  | nil => simp [pieces]
  | cons x p ih =>
    cases x with
    | text t => simp [pieces_text_cons, ih]
    | placeable e => simp [pieces_placeable_cons, ih]

theorem ofPieces_char_cons (c : Char) (ps : List Piece) :
    (∃ t p, ofPieces ps = .text t :: p ∧
      ofPieces (.char c :: ps) = .text (String.ofList (c :: t.toList)) :: p) ∨
    ((∀ t p, ofPieces ps ≠ .text t :: p) ∧
      ofPieces (.char c :: ps) = .text (String.ofList [c]) :: ofPieces ps) := by
  simp only [ofPieces, List.foldr_cons]
  generalize ps.foldr addPiece [] = runs
  match runs with
  | [] => exact .inr ⟨by simp, rfl⟩
  | .inl cs :: rest => exact .inl ⟨String.ofList cs, _, rfl, by simp [addPiece]⟩
  | .inr e :: rest => exact .inr ⟨by simp, rfl⟩

theorem ofPieces_placeable_cons (e : Expression) (ps : List Piece) :
    ofPieces (.placeable e :: ps) = .placeable e :: ofPieces ps := rfl

@[simp] theorem pieces_ofPieces (ps : List Piece) : pieces (ofPieces ps) = ps := by
  induction ps with
  | nil => rfl
  | cons x ps ih =>
    cases x with
    | placeable e => rw [ofPieces_placeable_cons, pieces_placeable_cons, ih]
    | char c =>
      obtain ⟨t, p, hp, heq⟩ | ⟨-, heq⟩ := ofPieces_char_cons c ps
      · rw [hp, pieces_text_cons] at ih
        rw [heq, pieces_text_cons, String.toList_ofList, List.map_cons, List.cons_append, ih]
      · simp [heq, pieces_text_cons, ih]

theorem Merged.nil : Merged [] := ⟨by simp, by simp⟩

theorem merged_placeable_cons {e : Expression} {p : Pattern} :
    Merged (.placeable e :: p) ↔ Merged p := by
  constructor
  · intro h
    refine ⟨fun front s t back hp => ?_, fun t ht => h.nonempty t (.tail _ ht)⟩
    exact h.apart (.placeable e :: front) s t back (by rw [hp, List.cons_append])
  · intro h
    refine ⟨fun front s t back hp => ?_, fun t ht => h.nonempty t (by simpa using ht)⟩
    cases front with
    | nil => simp at hp
    | cons x front => exact h.apart front s t back (by simpa using (List.cons.inj hp).2)

theorem merged_text_cons {t : String} {p : Pattern} :
    Merged (.text t :: p) ↔ t ≠ "" ∧ (∀ s, p.head? ≠ some (.text s)) ∧ Merged p := by
  constructor
  · intro h
    refine ⟨h.nonempty t (.head _), fun s hs => ?_, fun front s u back hp => ?_,
      fun s hs => h.nonempty s (.tail _ hs)⟩
    · obtain ⟨back, rfl⟩ := List.head?_eq_some_iff.mp hs
      exact h.apart [] t s back rfl
    · exact h.apart (.text t :: front) s u back (by rw [hp, List.cons_append])
  · rintro ⟨ht, hhead, h⟩
    refine ⟨fun front s u back hp => ?_, fun s hs => ?_⟩
    · cases front with
      | nil =>
        obtain ⟨-, rfl⟩ := List.cons.inj hp
        exact hhead u rfl
      | cons x front => exact h.apart front s u back (by simpa using (List.cons.inj hp).2)
    · obtain hs | hs := List.mem_cons.mp hs
      · cases hs
        exact ht
      · exact h.nonempty s hs

theorem Merged.text_ne_nil {t : String} {p : Pattern} (h : Merged (.text t :: p)) :
    t.toList ≠ [] := by
  simpa using h.nonempty t (.head _)

theorem merged_ofPieces (ps : List Piece) : Merged (ofPieces ps) := by
  induction ps with
  | nil => exact .nil
  | cons x ps ih =>
    cases x with
    | placeable e => exact merged_placeable_cons.mpr ih
    | char c =>
      obtain ⟨t, p, hp, heq⟩ | ⟨hp, heq⟩ := ofPieces_char_cons c ps
      · rw [hp, merged_text_cons] at ih
        rw [heq, merged_text_cons]
        exact ⟨by simp [String.ext_iff], ih.2⟩
      · rw [heq, merged_text_cons]
        refine ⟨by simp [String.ext_iff], fun s hs => ?_, ih⟩
        obtain ⟨p, hs⟩ := List.head?_eq_some_iff.mp hs
        exact hp s p hs

/-- A run of characters in front of anything but a text becomes one text. -/
theorem ofPieces_text_append {cs : List Char} {ps : List Piece} (hcs : cs ≠ [])
    (hps : ∀ s, (ofPieces ps).head? ≠ some (.text s)) :
    ofPieces (cs.map .char ++ ps) = .text (String.ofList cs) :: ofPieces ps := by
  induction cs with
  | nil => exact absurd rfl hcs
  | cons c cs ih =>
    rw [List.map_cons, List.cons_append]
    by_cases hnil : cs = []
    · subst hnil
      obtain ⟨t, p, hp, -⟩ | ⟨-, heq⟩ := ofPieces_char_cons c ps
      · exact absurd (by simp [hp]) (hps t)
      · simpa using heq
    · obtain ⟨t, p, hp, heq⟩ | ⟨hp, -⟩ := ofPieces_char_cons c (cs.map .char ++ ps)
      · rw [ih hnil] at hp
        cases hp
        simpa using heq
      · exact absurd (ih hnil) (hp _ _)

theorem ofPieces_pieces {p : Pattern} (h : Merged p) : ofPieces p.pieces = p := by
  induction p with
  | nil => rfl
  | cons x p ih =>
    cases x with
    | placeable e =>
      rw [pieces_placeable_cons, ofPieces_placeable_cons, ih (merged_placeable_cons.mp h)]
    | text t =>
      obtain ⟨ht, hhead, hp⟩ := merged_text_cons.mp h
      have hchars : t.toList ≠ [] := by simpa using ht
      rw [pieces_text_cons, ofPieces_text_append hchars (by rwa [ih hp]), ih hp,
        String.ofList_toList]

/-! ## What the rules keep -/

theorem mem_of_mem_unifyLineEnds {x : Piece} {ps : List Piece} (h : x ∈ unifyLineEnds ps) :
    x ∈ ps := by
  fun_induction unifyLineEnds ps with
  | case1 ps ih =>
    obtain rfl | h := List.mem_cons.mp h
    · simp
    · exact .tail _ (.tail _ (ih h))
  | case2 p ps _ ih =>
    obtain rfl | h := List.mem_cons.mp h
    · simp
    · exact .tail _ (ih h)
  | case3 => exact h

theorem lines_cons (x : Piece) (ps : List Piece) :
    lines (x :: ps) = if x.isLineFeed then ([], (lines ps).1 :: (lines ps).2)
      else (x :: (lines ps).1, (lines ps).2) := rfl

/-- The lines of a row are parts of it. -/
theorem mem_of_mem_lines {x : Piece} {ps : List Piece} :
    (x ∈ (lines ps).1 → x ∈ ps) ∧ ∀ line ∈ (lines ps).2, x ∈ line → x ∈ ps := by
  induction ps with
  | nil => simp [lines]
  | cons y ps ih =>
    rw [lines_cons]
    split <;> grind

theorem not_isLineFeed_of_mem_lines {x : Piece} {ps : List Piece} :
    (x ∈ (lines ps).1 → x.isLineFeed = false) ∧
      ∀ line ∈ (lines ps).2, x ∈ line → x.isLineFeed = false := by
  induction ps with
  | nil => simp [lines]
  | cons y ps ih =>
    rw [lines_cons]
    split <;> grind

theorem mem_of_mem_dedentLine {x : Piece} {n : Nat} {line : List Piece}
    (h : x ∈ dedentLine n line) : x ∈ line := by
  unfold dedentLine at h
  split at h
  · cases h
  · exact List.mem_of_mem_drop h

/-- Blank lines at the start are dropped one after the other, and nothing else is. -/
theorem dropBlankLines_cases (first : List Piece) (rest : List (List Piece)) :
    (dropBlankLines first rest).2 = [] ∨ isBlankLine (dropBlankLines first rest).1 = false := by
  fun_induction dropBlankLines first rest with
  | case1 => exact .inl rfl
  | case2 first next rest h ih => exact ih
  | case3 first next rest h => exact .inr (by simpa using h)

theorem dropBlankLines_suffix (first : List Piece) (rest : List (List Piece)) :
    (dropBlankLines first rest).1 :: (dropBlankLines first rest).2 <:+ first :: rest := by
  fun_induction dropBlankLines first rest with
  | case1 => exact List.suffix_rfl
  | case2 first next rest h ih => exact ih.trans (List.suffix_cons _ _)
  | case3 first next rest h => exact List.suffix_rfl

theorem dropTrailing_prefix_self (ps : List Piece) : dropTrailing ps <+: ps := by
  have h := List.dropWhile_suffix Piece.isTrailing (l := ps.reverse)
  simpa [dropTrailing] using List.reverse_prefix.mpr h

theorem mem_unlines {x : Piece} {first : List Piece} {rest : List (List Piece)}
    (h : x ∈ unlines first rest) :
    x ∈ first ∨ x = .char '\n' ∨ ∃ line ∈ rest, x ∈ line := by
  simp only [unlines, List.mem_append, List.mem_flatMap, List.mem_cons] at h
  grind

/-! ## The layout of a pattern -/

/-- The first line and the continuation lines that are left after dedenting. -/
theorem mem_of_mem_laidLines {x : Piece} {ps line : List Piece} {n : Nat}
    (hline : line ∈ (lines ps).1 :: (lines ps).2.map (dedentLine n)) (hx : x ∈ line) :
    x ∈ ps ∧ x.isLineFeed = false := by
  obtain rfl | hline := List.mem_cons.mp hline
  · exact ⟨mem_of_mem_lines.1 hx, not_isLineFeed_of_mem_lines.1 hx⟩
  · obtain ⟨whole, hwhole, rfl⟩ := List.mem_map.mp hline
    have hx := mem_of_mem_dedentLine hx
    exact ⟨mem_of_mem_lines.2 whole hwhole hx, not_isLineFeed_of_mem_lines.2 whole hwhole hx⟩

/-- What the rules leave is cut at its end from lines that hold pieces of the row; the
first of them is not blank if there are more. -/
theorem layoutPieces_eq (ps : List Piece) :
    ∃ first rest, layoutPieces ps = dropTrailing (unlines first rest) ∧
      (rest = [] ∨ isBlankLine first = false) ∧
      ∀ line ∈ first :: rest, ∀ x ∈ line, x ∈ ps ∧ x.isLineFeed = false := by
  let all := lines (unifyLineEnds ps)
  let dedented := all.2.map (dedentLine (margin all.2))
  refine ⟨(dropBlankLines all.1 dedented).1, (dropBlankLines all.1 dedented).2, rfl,
    dropBlankLines_cases _ _, fun line hline x hx => ?_⟩
  have hline := (dropBlankLines_suffix all.1 dedented).subset hline
  obtain ⟨hmem, hfeed⟩ := mem_of_mem_laidLines hline hx
  exact ⟨mem_of_mem_unifyLineEnds hmem, hfeed⟩

theorem mem_of_mem_layoutPieces {x : Piece} {ps : List Piece} (h : x ∈ layoutPieces ps) :
    x ∈ ps ∨ x = .char '\n' := by
  obtain ⟨first, rest, heq, -, hmem⟩ := layoutPieces_eq ps
  rw [heq] at h
  obtain hx | hx | ⟨line, hline, hx⟩ := mem_unlines ((dropTrailing_prefix_self _).subset h)
  · exact .inl (hmem first (.head _) x hx).1
  · exact .inr hx
  · exact .inl (hmem line (.tail _ hline) x hx).1

theorem layoutPieces_ne_blank (ps : List Piece) (n : Nat) (back : List Piece) :
    layoutPieces ps ≠ List.replicate n (.char ' ') ++ .char '\n' :: back := by
  intro h
  obtain ⟨first, rest, heq, hblank, hmem⟩ := layoutPieces_eq ps
  obtain ⟨dropped, hdropped⟩ := dropTrailing_prefix_self (unlines first rest)
  rw [← heq, h] at hdropped
  have hfeed : .char '\n' ∉ first := by
    intro hx
    simpa [Piece.isLineFeed, Piece.isChar] using (hmem first (.head _) _ hx).2
  -- The first line is either the whole row, or goes on beyond the spaces.
  obtain rfl | hblank := hblank
  · apply hfeed
    have : first = unlines first [] := by simp [unlines]
    rw [this, ← hdropped]
    simp
  · have hsplit : List.replicate n (.char ' ') ++ .char '\n' :: (back ++ dropped) =
        first ++ rest.flatMap fun line => .char '\n' :: line := by
      simpa [unlines] using hdropped
    have hspaces : ∀ k, isBlankLine (List.replicate k (.char ' ')) = true := by
      simp [isBlankLine, Piece.isSpace, Piece.isChar]
    obtain ⟨u, rfl, hu⟩ | ⟨u, hu, -⟩ := List.append_eq_append_iff.mp hsplit
    · cases u with
      | nil => simp [hspaces] at hblank
      | cons y u =>
        obtain ⟨rfl, -⟩ := List.cons.inj hu
        simp at hfeed
    · have hfirst : first = List.replicate first.length (.char ' ') := by
        refine List.eq_replicate_of_mem fun x hx => ?_
        exact List.eq_of_mem_replicate (hu ▸ List.mem_append_left u hx)
      rw [hfirst, hspaces] at hblank
      cases hblank

theorem getLast?_layoutPieces {x : Piece} {ps : List Piece}
    (h : (layoutPieces ps).getLast? = some x) : x.isTrailing = false := by
  obtain ⟨first, rest, heq, -, -⟩ := layoutPieces_eq ps
  rw [heq, dropTrailing, List.getLast?_reverse] at h
  have hnot := List.head?_dropWhile_not Piece.isTrailing (unlines first rest).reverse
  simpa [h] using hnot

theorem head_text_of_pieces {t : String} {p : Pattern} (h : p.head? = some (.text t)) :
    ∃ ps, pieces p = t.toList.map .char ++ ps := by
  obtain ⟨p, rfl⟩ := List.head?_eq_some_iff.mp h
  exact ⟨pieces p, pieces_text_cons t p⟩

theorem getLast?_pieces {t : String} {c : Char} {p : Pattern}
    (h : p.getLast? = some (.text t)) (hc : t.toList.getLast? = some c) :
    (pieces p).getLast? = some (.char c) := by
  obtain ⟨p, rfl⟩ := List.getLast?_eq_some_iff.mp h
  simp [pieces, hc]

/-- A layout is tidy if the texts had no braces. -/
theorem tidy_layout {p : Pattern}
    (h : ∀ t, .text t ∈ p → ∀ c ∈ t.toList, c ≠ '{' ∧ c ≠ '}') : Tidy (layout p) where
  toMerged := merged_ofPieces _
  braces t ht c hc := by
    have hmem : .char c ∈ (layout p).pieces := char_mem_pieces.mpr ⟨t, ht, hc⟩
    rw [layout, pieces_ofPieces] at hmem
    obtain hmem | hmem := mem_of_mem_layoutPieces hmem
    · obtain ⟨s, hs, hc⟩ := char_mem_pieces.mp hmem
      exact h s hs c hc
    · cases hmem
      decide
  start t ht := by
    rintro ⟨n, back, hback⟩
    obtain ⟨ps, hps⟩ := head_text_of_pieces ht
    rw [layout, pieces_ofPieces, hback] at hps
    exact layoutPieces_ne_blank p.pieces n (back.map .char ++ ps) (by simpa using hps)
  finish t ht c hc := by
    have hlast := getLast?_pieces ht hc
    rw [layout, pieces_ofPieces] at hlast
    have htrailing := getLast?_layoutPieces hlast
    simpa [Piece.isTrailing, Piece.isSpace, Piece.isLineFeed, Piece.isChar, and_assoc]
      using htrailing

theorem placeable_mem_layout {e : Expression} {p : Pattern} (h : .placeable e ∈ layout p) :
    .placeable e ∈ p := by
  rw [← placeable_mem_pieces, layout, pieces_ofPieces] at h
  obtain h | h := mem_of_mem_layoutPieces h
  · exact placeable_mem_pieces.mp h
  · cases h

/-! ## Plain patterns -/

theorem unifyLineEnds_eq_self {ps : List Piece} (h : .char '\r' ∉ ps) : unifyLineEnds ps = ps := by
  fun_induction unifyLineEnds ps with
  | case1 ps ih => simp at h
  | case2 p ps _ ih => rw [ih fun hmem => h (.tail _ hmem)]
  | case3 => rfl

theorem lines_eq_self {ps : List Piece} (h : ∀ x ∈ ps, x.isLineFeed = false) :
    lines ps = (ps, []) := by
  induction ps with
  | nil => rfl
  | cons x ps ih =>
    obtain ⟨hx, hps⟩ := List.forall_mem_cons.mp h
    simp [lines_cons, hx, ih hps]

theorem dropTrailing_eq_self {ps : List Piece}
    (h : ∀ x, ps.getLast? = some x → x.isTrailing = false) : dropTrailing ps = ps := by
  rw [dropTrailing, List.reverse_eq_iff]
  cases hps : ps.reverse with
  | nil => rfl
  | cons x rest =>
    have hx := h x (by rw [← List.head?_reverse, hps]; rfl)
    simp [hx]

/-- A plain pattern has no layout of its own. -/
theorem layout_of_plain {p : Pattern} (h : Plain p) : layout p = p := by
  have hchars : ∀ c, .char c ∈ p.pieces → c ≠ '\n' ∧ c ≠ '\r' := by
    intro c hc
    obtain ⟨t, ht, hc⟩ := char_mem_pieces.mp hc
    exact ⟨(h.chars t ht c hc).2.2.1, (h.chars t ht c hc).2.2.2⟩
  have hlines : lines (unifyLineEnds p.pieces) = (p.pieces, []) := by
    rw [unifyLineEnds_eq_self fun hmem => (hchars _ hmem).2 rfl]
    refine lines_eq_self fun x hx => ?_
    cases x with
    | char c => simpa [Piece.isLineFeed, Piece.isChar] using (hchars c hx).1
    | placeable e => rfl
  have hlast : ∀ x, p.pieces.getLast? = some x → x.isTrailing = false := by
    intro x hx
    cases x with
    | placeable e => rfl
    | char c =>
      have hc := hchars c (List.mem_of_getLast? hx)
      suffices c ≠ ' ' by
        simp [Piece.isTrailing, Piece.isSpace, Piece.isLineFeed, Piece.isChar, this, hc.1, hc.2]
      rintro rfl
      obtain ⟨y, hy⟩ := List.getLast?_isSome.mpr h.ne_nil |> Option.isSome_iff_exists.mp
      cases y with
      | text t =>
        have ht : t.toList ≠ [] := by
          simpa using h.nonempty t (List.mem_of_getLast? hy)
        obtain ⟨d, hd⟩ := List.getLast?_isSome.mpr ht |> Option.isSome_iff_exists.mp
        rw [getLast?_pieces hy hd] at hx
        cases hx
        exact h.finish t hy hd
      | placeable e =>
        obtain ⟨front, rfl⟩ := List.getLast?_eq_some_iff.mp hy
        simp [pieces] at hx
  simp only [layout, layoutPieces, hlines, List.map_nil, dropBlankLines, unlines, List.flatMap_nil,
    List.append_nil, dropTrailing_eq_self hlast, ofPieces_pieces h.toMerged]

/-! ## Carriage returns -/

/-- Write a carriage return in front of every line feed of a row. -/
def withReturns (ps : List Piece) : List Piece :=
  ps.flatMap fun p => if p.isLineFeed then [.char '\r', p] else [p]

theorem isLineFeed_eq_true {p : Piece} : p.isLineFeed = true ↔ p = .char '\n' := by
  cases p <;> simp [Piece.isLineFeed, Piece.isChar]

theorem isSpace_eq_true {p : Piece} : p.isSpace = true ↔ p = .char ' ' := by
  cases p <;> simp [Piece.isSpace, Piece.isChar]

theorem unifyLineEnds_cons_of_ne {p : Piece} (h : p ≠ .char '\r') (ps : List Piece) :
    unifyLineEnds (p :: ps) = p :: unifyLineEnds ps := by
  rw [unifyLineEnds]
  exact fun _ hp => absurd hp h

/-- Unifying the line ends takes the carriage returns away again. -/
theorem unifyLineEnds_withReturns {ps : List Piece} (h : .char '\r' ∉ ps) (tail : List Piece) :
    unifyLineEnds (withReturns ps ++ tail) = ps ++ unifyLineEnds tail := by
  induction ps with
  | nil => rfl
  | cons p ps ih =>
    obtain ⟨hp, hps⟩ : p ≠ .char '\r' ∧ .char '\r' ∉ ps := by simpa [eq_comm] using h
    simp only [withReturns, List.flatMap_cons] at ih ⊢
    by_cases hline : p.isLineFeed
    · obtain rfl := isLineFeed_eq_true.mp hline
      simp only [hline, if_true, List.cons_append, List.nil_append, unifyLineEnds, ih hps]
    · simp only [Bool.not_eq_true] at hline
      simp only [hline, Bool.false_eq_true, if_false, List.cons_append, List.nil_append,
        unifyLineEnds_cons_of_ne hp, ih hps]

/-- A row whose last line holds more than spaces. -/
def EndsFilled (ps : List Piece) : Prop :=
  ∃ u x v, ps = u ++ x :: v ∧ x.isSpace = false ∧ ∀ y ∈ x :: v, y.isLineFeed = false

theorem EndsFilled.append_inline {ps qs : List Piece} (h : EndsFilled ps)
    (hqs : ∀ y ∈ qs, y.isLineFeed = false) : EndsFilled (ps ++ qs) := by
  obtain ⟨u, x, v, rfl, hx, hv⟩ := h
  refine ⟨u, x, v ++ qs, by simp, hx, fun y hy => ?_⟩
  obtain hy | hy := List.mem_append.mp (List.cons_append ▸ hy)
  · exact hv y hy
  · exact hqs y hy

theorem EndsFilled.after {qs : List Piece} (h : EndsFilled qs) (ps : List Piece) :
    EndsFilled (ps ++ qs) := by
  obtain ⟨u, x, v, rfl, hx, hv⟩ := h
  exact ⟨ps ++ u, x, v, by simp, hx, hv⟩

theorem isBlankLine_eq_false {line : List Piece} :
    isBlankLine line = false ↔ ∃ x ∈ line, x.isSpace = false := by
  simp [isBlankLine]

/-- The last line of a row, if it has several. -/
theorem last_line_cases (ps : List Piece) :
    (∀ x ∈ ps, x.isLineFeed = false) ∨
      ∃ front line, ps = front ++ .char '\n' :: line ∧ ∀ x ∈ line, x.isLineFeed = false := by
  induction ps with
  | nil => exact .inl (by simp)
  | cons x ps ih =>
    obtain hps | ⟨front, line, rfl, hline⟩ := ih
    · by_cases hx : x.isLineFeed
      · exact .inr ⟨[], ps, by rw [isLineFeed_eq_true.mp hx, List.nil_append], hps⟩
      · exact .inl (List.forall_mem_cons.mpr ⟨by simpa using hx, hps⟩)
    · exact .inr ⟨x :: front, line, rfl, hline⟩

theorem EndsFilled.cases {ps : List Piece} (h : EndsFilled ps) :
    (∀ x ∈ ps, x.isLineFeed = false) ∨
      ∃ front line, ps = front ++ .char '\n' :: line ∧ isBlankLine line = false ∧
        ∀ x ∈ line, x.isLineFeed = false := by
  obtain ⟨u, x, v, rfl, hx, hv⟩ := h
  obtain hu | ⟨front, line, rfl, hline⟩ := last_line_cases u
  · exact .inl fun y hy => (List.mem_append.mp hy).elim (hu y) (hv y)
  · refine .inr ⟨front, line ++ x :: v, by simp, ?_, fun y hy => ?_⟩
    · exact isBlankLine_eq_false.mpr ⟨x, by simp, hx⟩
    · exact (List.mem_append.mp hy).elim (hline y) (hv y)

theorem lines_append_lineFeed (u v : List Piece) :
    lines (u ++ .char '\n' :: v) = ((lines u).1, (lines u).2 ++ (lines v).1 :: (lines v).2) := by
  induction u with
  | nil => rfl
  | cons x u ih =>
    rw [List.cons_append, lines_cons, lines_cons, ih]
    split <;> rfl

theorem lines_append_line {line : List Piece} (h : ∀ x ∈ line, x.isLineFeed = false)
    (front : List Piece) :
    lines (front ++ .char '\n' :: line) = ((lines front).1, (lines front).2 ++ [line]) := by
  rw [lines_append_lineFeed, lines_eq_self h]

theorem indent_concat {line : List Piece} (h : isBlankLine line = false) (x : Piece) :
    indent (line ++ [x]) = indent line := by
  induction line with
  | nil => cases h
  | cons y line ih =>
    by_cases hy : y.isSpace
    · simpa [indent, hy] using ih (by simpa [isBlankLine, hy] using h)
    · simp [indent, hy]

theorem isBlankLine_concat {line : List Piece} (h : isBlankLine line = false) (x : Piece) :
    isBlankLine (line ++ [x]) = false := by
  obtain ⟨y, hy, hspace⟩ := isBlankLine_eq_false.mp h
  exact isBlankLine_eq_false.mpr ⟨y, List.mem_append_left _ hy, hspace⟩

theorem margin_concat {line : List Piece} (h : isBlankLine line = false)
    (rest : List (List Piece)) (x : Piece) :
    margin (rest ++ [line ++ [x]]) = margin (rest ++ [line]) := by
  simp [margin, h, isBlankLine_concat h, indent_concat h]

theorem margin_le_indent {line : List Piece} (h : isBlankLine line = false)
    {rest : List (List Piece)} (hmem : line ∈ rest) : margin rest ≤ indent line :=
  List.min?_getD_le_of_mem (List.mem_map_of_mem (List.mem_filter.mpr ⟨hmem, by simp [h]⟩))

theorem margin_le {line : List Piece} (h : isBlankLine line = false)
    {rest : List (List Piece)} (hmem : line ∈ rest) : margin rest ≤ line.length :=
  Nat.le_trans (margin_le_indent h hmem) (List.takeWhile_prefix _).length_le

theorem dedentLine_concat {line : List Piece} {n : Nat} (h : isBlankLine line = false)
    (hn : n ≤ line.length) (x : Piece) :
    dedentLine n (line ++ [x]) = dedentLine n line ++ [x] := by
  simp [dedentLine, h, isBlankLine_concat h, List.drop_append_of_le_length hn]

/-- A piece at the end of the last line stays there when blank lines are dropped. -/
theorem unlines_dropBlankLines_concat (first : List Piece) (rest : List (List Piece))
    (line : List Piece) (x : Piece) :
    unlines (dropBlankLines first (rest ++ [line ++ [x]])).1
        (dropBlankLines first (rest ++ [line ++ [x]])).2 =
      unlines (dropBlankLines first (rest ++ [line])).1
        (dropBlankLines first (rest ++ [line])).2 ++ [x] := by
  induction rest generalizing first with
  | nil =>
    simp only [List.nil_append, dropBlankLines]
    split <;> simp [unlines]
  | cons next rest ih =>
    simp only [List.cons_append, dropBlankLines]
    split
    · exact ih next
    · simp [unlines]

theorem dropTrailing_concat {x : Piece} (h : x.isTrailing = true) (ps : List Piece) :
    dropTrailing (ps ++ [x]) = dropTrailing ps := by
  simp [dropTrailing, h]

/-- The layout does not see carriage returns in front of line feeds, nor one behind the last
line if that line is not blank. -/
theorem layoutPieces_withReturns {ps : List Piece} (h : .char '\r' ∉ ps) :
    layoutPieces (withReturns ps) = layoutPieces ps ∧
      (EndsFilled ps → layoutPieces (withReturns ps ++ [.char '\r']) = layoutPieces ps) := by
  have hunify := unifyLineEnds_withReturns h
  simp only [layoutPieces, unifyLineEnds_eq_self h]
  refine ⟨by rw [← List.append_nil (withReturns ps), hunify]; simp [unifyLineEnds], fun hps => ?_⟩
  rw [hunify, show unifyLineEnds [.char '\r'] = [.char '\r'] from rfl]
  have hconcat : ∀ {line : List Piece}, (∀ x ∈ line, x.isLineFeed = false) →
      ∀ x ∈ line ++ [.char '\r'], x.isLineFeed = false := by
    intro line hline x hx
    obtain hx | hx := List.mem_append.mp hx
    · exact hline x hx
    · rw [List.mem_singleton.mp hx]
      rfl
  obtain hinline | ⟨front, line, rfl, hblank, hline⟩ := hps.cases
  · -- There is only the first line.
    rw [lines_eq_self (hconcat hinline), lines_eq_self hinline]
    simpa [dropBlankLines, unlines] using dropTrailing_concat rfl ps
  · -- The last line is a continuation line.
    have hmargin : margin ((lines front).2 ++ [line]) ≤ line.length := margin_le hblank (by simp)
    simp only [List.append_assoc, List.cons_append, lines_append_line (hconcat hline),
      lines_append_line hline, margin_concat hblank, List.map_append, List.map_cons,
      List.map_nil, dedentLine_concat hblank hmargin, unlines_dropBlankLines_concat]
    exact dropTrailing_concat rfl _

end Phrasebook.Pattern
