import Mathlib
import Phrasebook.Proofs.Layout.Margin
import Phrasebook.Proofs.Rebuilding

/-!
# What the layout keeps

The content of a pattern is its placeables and its characters other than spaces, carriage
returns and line feeds. The layout keeps all of it, in order, and all line feeds in between.
The spaces in front of a continuation line are kept, too, but for the margin.

The rules work in three steps: the margin is taken from the continuation lines, blank lines
are cut off in front, and blanks and line ends behind. So a dedented row is its layout between
two stretches without content, of which the first one is made of whole lines.

## Main definitions

* `Pattern.content`: the pieces of a row that count.
* `Pattern.gaps`: how many line feeds stand between neighbouring pieces of content.
* `Pattern.Indented`: a line that starts behind a line feed, with its spaces.
* `Pattern.dedented`: a row whose continuation lines have lost the margin.
-/

namespace Phrasebook

/-- A placeable, or a character other than a space, a carriage return and a line feed. -/
def Piece.isContent : Piece → Bool
  | .char c => c != ' ' && c != '\r' && c != '\n'
  | .placeable _ => true

theorem Piece.isContent_eq (p : Piece) : p.isContent = !p.isTrailing := by
  cases p with
  | char c => simp [isContent, isTrailing, isSpace, isLineFeed, isChar, bne]
  | placeable e => rfl

namespace Pattern

variable {m n : Nat} {x : Piece} {u v w ps line front back row : List Piece}
  {rest : List (List Piece)}

def content (ps : List Piece) : List Piece :=
  ps.filter Piece.isContent

/-- The numbers of line feeds in front of the content, between its pieces, and behind it. -/
def feeds (ps : List Piece) : List Nat :=
  (ps.splitOnP Piece.isContent).map (List.countP Piece.isLineFeed)

/-- The numbers of line feeds between neighbouring pieces of content. -/
def gaps (ps : List Piece) : List Nat :=
  (feeds ps).tail.dropLast

/-- A line of the row that starts behind a line feed: spaces, and then a piece that is neither
a space nor a line feed. -/
structure Indented (row u : List Piece) (n : Nat) (x : Piece) (v : List Piece) : Prop where
  eq : row = u ++ .char '\n' :: (spaces n ++ x :: v)
  space : x.isSpace = false
  lineFeed : x.isLineFeed = false

/-! ## Content and line feeds -/

theorem content_append (u v : List Piece) : content (u ++ v) = content u ++ content v :=
  List.filter_append ..

theorem content_eq_nil : content ps = [] ↔ ∀ x ∈ ps, x.isContent = false := by
  simp [content]

theorem content_of_trailing (h : ∀ x ∈ ps, x.isTrailing = true) : content ps = [] :=
  content_eq_nil.mpr fun x hx => by rw [x.isContent_eq, h x hx, Bool.not_true]

theorem feeds_cons (x : Piece) (ps : List Piece) :
    feeds (x :: ps) = if x.isContent then 0 :: feeds ps
      else (feeds ps).modifyHead (· + if x.isLineFeed then 1 else 0) := by
  rw [feeds, List.splitOnP_cons_eq_if_modifyHead]
  split
  · rfl
  · obtain ⟨stretch, stretches, hsplit⟩ :=
      List.exists_cons_of_ne_nil (List.splitOnP_ne_nil Piece.isContent ps)
    simp [feeds, hsplit, List.countP_cons]

/-- What stands in front of the content changes only the first number. -/
theorem tail_feeds_append (h : content front = []) (ps : List Piece) :
    (feeds (front ++ ps)).tail = (feeds ps).tail := by
  rw [content_eq_nil] at h
  induction front with
  | nil => rfl
  | cons x front ih =>
    obtain ⟨hx, hfront⟩ := List.forall_mem_cons.mp h
    simp [feeds_cons, hx, ih hfront]

/-- What stands behind the content changes only the last number. -/
theorem dropLast_feeds_append (h : content back = []) (ps : List Piece) :
    (feeds (ps ++ back)).dropLast = (feeds ps).dropLast := by
  have hne : ∀ ps, feeds ps ≠ [] := by simp [feeds, List.splitOnP_ne_nil]
  induction ps with
  | nil => simp [feeds, List.splitOnP_eq_singleton (content_eq_nil.mp h)]
  | cons x ps ih =>
    obtain ⟨k, ks, hks⟩ := List.exists_cons_of_ne_nil (hne (ps ++ back))
    obtain ⟨l, ls, hls⟩ := List.exists_cons_of_ne_nil (hne ps)
    rw [List.cons_append, feeds_cons, feeds_cons]
    rw [hks, hls] at ih ⊢
    split
    · simp [ih]
    · cases ks <;> cases ls <;> simp_all

theorem gaps_append_append (hfront : content front = []) (hback : content back = [])
    (ps : List Piece) : gaps (front ++ (ps ++ back)) = gaps ps := by
  rw [gaps, tail_feeds_append hfront, ← List.tail_dropLast, dropLast_feeds_append hback,
    List.tail_dropLast, gaps]

/-! ## Skeletons -/

/-- The row without its spaces and carriage returns. -/
def skeleton (ps : List Piece) : List Piece :=
  ps.filter fun p => p.isContent || p.isLineFeed

theorem skeleton_cons (x : Piece) (ps : List Piece) :
    skeleton (x :: ps) = if x.isContent || x.isLineFeed then x :: skeleton ps else skeleton ps :=
  List.filter_cons

theorem skeleton_append (u v : List Piece) : skeleton (u ++ v) = skeleton u ++ skeleton v :=
  List.filter_append ..

theorem skeleton_of_spaces (h : ∀ x ∈ ps, x.isSpace = true) : skeleton ps = [] := by
  refine List.filter_eq_nil_iff.mpr fun x hx => ?_
  rw [isSpace_eq_true.mp (h x hx)]
  decide

theorem content_skeleton (ps : List Piece) : content (skeleton ps) = content ps := by
  rw [content, skeleton, List.filter_filter]
  refine List.filter_congr fun x _ => ?_
  cases x.isContent <;> simp

theorem feeds_skeleton (ps : List Piece) : feeds (skeleton ps) = feeds ps := by
  induction ps with
  | nil => rfl
  | cons x ps ih =>
    rw [skeleton_cons, feeds_cons, ← ih]
    split
    · rw [feeds_cons]
    · next hx =>
      obtain ⟨hcontent, hfeed⟩ : x.isContent = false ∧ x.isLineFeed = false := by simpa using hx
      cases feeds (skeleton ps) <;> simp [hcontent, hfeed]

theorem content_of_skeleton (h : skeleton u = skeleton v) : content u = content v := by
  rw [← content_skeleton, h, content_skeleton]

theorem gaps_of_skeleton (h : skeleton u = skeleton v) : gaps u = gaps v := by
  rw [gaps, ← feeds_skeleton, h, feeds_skeleton, gaps]

theorem skeleton_unifyLineEnds (ps : List Piece) : skeleton (unifyLineEnds ps) = skeleton ps := by
  fun_induction unifyLineEnds ps with
  | case1 ps ih =>
    rw [skeleton_cons, skeleton_cons, skeleton_cons, ih]
    rfl
  | case2 p ps _ ih => rw [skeleton_cons, skeleton_cons, ih]
  | case3 => rfl

theorem skeleton_dedentLine (h : isBlankLine line = false → m ≤ indent line) :
    skeleton (dedentLine m line) = skeleton line := by
  rw [dedentLine]
  by_cases hblank : isBlankLine line
  · rw [if_pos hblank, skeleton_of_spaces (List.all_eq_true.mp hblank)]
    rfl
  · have htaken : line.take m <+: line.takeWhile Piece.isSpace :=
      List.prefix_of_prefix_length_le (List.take_prefix m line) (List.takeWhile_prefix _)
        (Nat.le_trans (List.length_take_le m line) (h (by simpa using hblank)))
    have hspaces : skeleton (line.take m) = [] :=
      skeleton_of_spaces fun x hx => List.mem_takeWhile_imp (htaken.subset hx)
    rw [if_neg hblank]
    calc skeleton (line.drop m)
      _ = skeleton (line.take m) ++ skeleton (line.drop m) := by rw [hspaces, List.nil_append]
      _ = skeleton line := by rw [← skeleton_append, List.take_append_drop]

theorem skeleton_unlines (first : List Piece) (rest : List (List Piece)) :
    skeleton (unlines first rest) =
      skeleton first ++ rest.flatMap fun line => .char '\n' :: skeleton line := by
  rw [unlines, skeleton_append]
  exact congrArg (skeleton first ++ ·) List.filter_flatMap

theorem skeleton_unlines_dedent (first : List Piece)
    (h : ∀ line ∈ rest, isBlankLine line = false → m ≤ indent line) :
    skeleton (unlines first (rest.map (dedentLine m))) = skeleton (unlines first rest) := by
  rw [skeleton_unlines, skeleton_unlines, List.flatMap_map]
  refine congrArg (skeleton first ++ ·) (List.flatMap_congr fun line hline => ?_)
  rw [skeleton_dedentLine (h line hline)]

/-! ## The dedented row -/

def dedented (row : List Piece) : List Piece :=
  unlines (lines row).1 ((lines row).2.map (dedentLine (margin (lines row).2)))

theorem skeleton_dedented (row : List Piece) : skeleton (dedented row) = skeleton row := by
  rw [dedented, skeleton_unlines_dedent _ fun _ hline hblank => margin_le_indent hblank hline,
    unlines_lines]

/-- Blank lines of spaces, each with its line feed. -/
structure BlankLines (ps : List Piece) : Prop where
  blank : ∀ x ∈ ps, x.isSpace = true ∨ x.isLineFeed = true
  ended : ps = [] ∨ ps.getLast? = some (.char '\n')

theorem BlankLines.content (h : BlankLines ps) : content ps = [] :=
  content_of_trailing fun x hx => by
    rcases h.blank x hx with hx | hx <;> simp [Piece.isTrailing, hx]

theorem unlines_eq_append_dropBlankLines (first : List Piece) (rest : List (List Piece)) :
    ∃ front, BlankLines front ∧ unlines first rest =
      front ++ unlines (dropBlankLines first rest).1 (dropBlankLines first rest).2 := by
  fun_induction dropBlankLines first rest with
  | case1 first => exact ⟨[], ⟨by simp, .inl rfl⟩, rfl⟩
  | case2 first next rest hblank ih =>
    obtain ⟨front, hfront, heq⟩ := ih
    refine ⟨first ++ .char '\n' :: front, ⟨?_, .inr ?_⟩, by rw [unlines_cons, heq]; simp⟩
    · intro x hx
      obtain hx | hx := List.mem_append.mp hx
      · exact .inl (List.all_eq_true.mp hblank x hx)
      · obtain rfl | hx := List.mem_cons.mp hx
        · exact .inr rfl
        · exact hfront.blank x hx
    · obtain rfl | hlast := hfront.ended
      · simp
      · rw [List.getLast?_append, List.getLast?_cons, hlast]
        rfl
  | case3 first next rest hblank => exact ⟨[], ⟨by simp, .inl rfl⟩, rfl⟩

theorem eq_dropTrailing_append (ps : List Piece) :
    ∃ back, content back = [] ∧ ps = dropTrailing ps ++ back := by
  refine ⟨(ps.reverse.takeWhile Piece.isTrailing).reverse, ?_, ?_⟩
  · exact content_of_trailing fun x hx => List.mem_takeWhile_imp (List.mem_reverse.mp hx)
  · rw [dropTrailing, ← List.reverse_append, List.takeWhile_append_dropWhile, List.reverse_reverse]

/-- The dedented row is the layout between two stretches without content. -/
theorem dedented_eq_append (ps : List Piece) :
    ∃ front back, BlankLines front ∧ content back = [] ∧
      dedented (unifyLineEnds ps) = front ++ (layoutPieces ps ++ back) := by
  let all := lines (unifyLineEnds ps)
  let dedented := all.2.map (dedentLine (margin all.2))
  obtain ⟨front, hfront, heq⟩ := unlines_eq_append_dropBlankLines all.1 dedented
  obtain ⟨back, hback, hkept⟩ := eq_dropTrailing_append
    (unlines (dropBlankLines all.1 dedented).1 (dropBlankLines all.1 dedented).2)
  exact ⟨front, back, hfront, hback, heq.trans (congrArg (front ++ ·) hkept)⟩

theorem content_layoutPieces (ps : List Piece) : content (layoutPieces ps) = content ps := by
  obtain ⟨front, back, hfront, hback, heq⟩ := dedented_eq_append ps
  calc content (layoutPieces ps)
    _ = content (dedented (unifyLineEnds ps)) := by
      rw [heq, content_append, content_append, hfront.content, hback, List.nil_append,
        List.append_nil]
    _ = content (unifyLineEnds ps) := content_of_skeleton (skeleton_dedented _)
    _ = content ps := content_of_skeleton (skeleton_unifyLineEnds ps)

theorem placeable_mem_layout_iff {e : Expression} {p : Pattern} :
    .placeable e ∈ layout p ↔ .placeable e ∈ p := by
  refine ⟨placeable_mem_layout, fun h => ?_⟩
  have hcontent : .placeable e ∈ content p.pieces :=
    List.mem_filter.mpr ⟨placeable_mem_pieces.mpr h, rfl⟩
  rw [← content_layoutPieces] at hcontent
  rw [← placeable_mem_pieces, layout, pieces_ofPieces]
  exact (List.mem_filter.mp hcontent).1

theorem gaps_layoutPieces (ps : List Piece) : gaps (layoutPieces ps) = gaps ps := by
  obtain ⟨front, back, hfront, hback, heq⟩ := dedented_eq_append ps
  calc gaps (layoutPieces ps)
    _ = gaps (dedented (unifyLineEnds ps)) := by rw [heq, gaps_append_append hfront.content hback]
    _ = gaps (unifyLineEnds ps) := gaps_of_skeleton (skeleton_dedented _)
    _ = gaps ps := gaps_of_skeleton (skeleton_unifyLineEnds ps)

/-! ## Lines that are not blank -/

/-- A line that is not blank goes on behind its indentation. -/
theorem exists_filled (h : isBlankLine line = false) :
    ∃ x tail, line = spaces (indent line) ++ x :: tail ∧ x.isSpace = false := by
  have hspaces : line.takeWhile Piece.isSpace = spaces (indent line) := by
    refine List.eq_replicate_iff.mpr ⟨rfl, fun x hx => ?_⟩
    exact isSpace_eq_true.mp (List.mem_takeWhile_imp hx)
  cases htail : line.dropWhile Piece.isSpace with
  | nil =>
    obtain ⟨x, hx, hspace⟩ := isBlankLine_eq_false.mp h
    rw [List.dropWhile_eq_nil_iff.mp htail x hx] at hspace
    cases hspace
  | cons x tail =>
    refine ⟨x, tail, ?_, ?_⟩
    · rw [← hspaces, ← htail, List.takeWhile_append_dropWhile]
    · simpa [htail] using List.head?_dropWhile_not Piece.isSpace line

theorem isBlankLine_filled (n : Nat) (h : x.isSpace = false) (tail : List Piece) :
    isBlankLine (spaces n ++ x :: tail) = false := by
  rw [isBlankLine_spaces_append]
  simp [isBlankLine, h]

theorem indent_filled (n : Nat) (h : x.isSpace = false) (tail : List Piece) :
    indent (spaces n ++ x :: tail) = n := by
  rw [indent_spaces_append]
  simp [indent, h]

theorem dedentLine_filled (hm : m ≤ n) (h : x.isSpace = false) (tail : List Piece) :
    dedentLine m (spaces n ++ x :: tail) = spaces (n - m) ++ x :: tail := by
  rw [dedentLine, isBlankLine_filled n h]
  simp [spaces, List.drop_append, Nat.sub_eq_zero_of_le hm]

theorem unlines_filled (n : Nat) (x : Piece) (tail : List Piece) (rest : List (List Piece)) :
    unlines (spaces n ++ x :: tail) rest = spaces n ++ x :: unlines tail rest := by
  simp [unlines]

theorem unlines_append (first line : List Piece) (rest rest' : List (List Piece)) :
    unlines first (rest ++ line :: rest') =
      unlines first rest ++ .char '\n' :: unlines line rest' := by
  simp [unlines]

/-! ## Indented lines -/

theorem Indented.lines_eq (h : Indented row u n x v) :
    lines row = ((lines u).1, (lines u).2 ++ (spaces n ++ x :: (lines v).1) :: (lines v).2) := by
  rw [h.eq, lines_append_lineFeed, lines_inline_append fun _ => isLineFeed_of_mem_spaces,
    lines_cons, h.lineFeed]
  rfl

/-- The indented lines are the continuation lines that are not blank. -/
theorem exists_indented_iff : (∃ u x v, Indented row u n x v) ↔
    ∃ line ∈ (lines row).2, isBlankLine line = false ∧ indent line = n := by
  constructor
  · rintro ⟨u, x, v, h⟩
    exact ⟨spaces n ++ x :: (lines v).1, by simp [h.lines_eq], isBlankLine_filled n h.space _,
      indent_filled n h.space _⟩
  · rintro ⟨line, hline, hblank, rfl⟩
    obtain ⟨x, tail, hfilled, hspace⟩ := exists_filled hblank
    obtain ⟨before, after, hsplit⟩ := List.append_of_mem hline
    have hunlines : unlines line after = spaces (indent line) ++ x :: unlines tail after := by
      conv_lhs => rw [hfilled, unlines_filled]
    refine ⟨unlines (lines row).1 before, x, unlines tail after, ?_, hspace, ?_⟩
    · rw [← hunlines, ← unlines_append, ← hsplit, unlines_lines]
    · exact not_isLineFeed_of_mem_lines.2 line hline (by rw [hfilled]; simp)

theorem Indented.isLeast_margin (h : Indented row u n x v) :
    IsLeast {n | ∃ u x v, Indented row u n x v} (margin (lines row).2) := by
  simp only [exists_indented_iff]
  obtain ⟨line, hline, hblank, -⟩ := exists_indented_iff.mp ⟨u, x, v, h⟩
  exact Pattern.isLeast_margin ⟨line, hline, hblank⟩

/-- An indented line stays behind its line feed when the margin is taken. -/
theorem Indented.dedented_eq (h : Indented row u n x v) :
    ∃ u' v', dedented row =
        u' ++ .char '\n' :: (spaces (n - margin (lines row).2) ++ x :: v') ∧
      content u' = content u ∧ content v' = content v := by
  have hmargin : margin (lines row).2 ≤ n := h.isLeast_margin.2 ⟨u, x, v, h⟩
  have hle : ∀ line ∈ (lines row).2, isBlankLine line = false →
      margin (lines row).2 ≤ indent line := fun _ hline hblank => margin_le_indent hblank hline
  rw [dedented]
  generalize margin (lines row).2 = m at hmargin hle ⊢
  have hkept : ∀ ps, (∀ line ∈ (lines ps).2, line ∈ (lines row).2) →
      content (unlines (lines ps).1 ((lines ps).2.map (dedentLine m))) = content ps := by
    intro ps hps
    refine content_of_skeleton ?_
    rw [skeleton_unlines_dedent _ fun line hline => hle line (hps line hline), unlines_lines]
  refine ⟨unlines (lines u).1 ((lines u).2.map (dedentLine m)),
    unlines (lines v).1 ((lines v).2.map (dedentLine m)), ?_, hkept u ?_, hkept v ?_⟩
  · rw [h.lines_eq, List.map_append, List.map_cons, unlines_append,
      dedentLine_filled hmargin h.space, unlines_filled]
  · simp +contextual [h.lines_eq]
  · simp +contextual [h.lines_eq]

/-- Blank lines that are cut off in front of a row end in front of its indented lines. -/
theorem BlankLines.exists_behind (hfront : BlankLines front) (h : Indented (front ++ w) u n x v) :
    ∃ u', u ++ [.char '\n'] = front ++ u' ∧ w = u' ++ (spaces n ++ x :: v) := by
  have heq := h.eq
  rw [List.append_cons] at heq
  obtain ⟨s, hs, hw⟩ | ⟨s, hs, hw⟩ := List.append_eq_append_iff.mp heq
  · exact ⟨s, hs, hw⟩
  · -- What goes beyond the line feed holds spaces only, and would have to end with a line feed.
    have hspaces : s <+: spaces n := by
      obtain ⟨t, ht, htail⟩ | ⟨t, ht, -⟩ := List.append_eq_append_iff.mp hw
      · cases t with
        | nil => simp [ht]
        | cons y t =>
          obtain ⟨rfl, -⟩ := List.cons.inj htail
          have hmem : x ∈ front := by simp [hs, ht]
          rcases hfront.blank x hmem with hx | hx
          · simp [h.space] at hx
          · simp [h.lineFeed] at hx
      · exact ⟨t, ht.symm⟩
    have hnil : s = [] := by
      by_contra hne
      have hend : s.getLast? = some (.char '\n') := by
        rcases hfront.ended with hlast | hlast
        · simp [hlast] at hs
        · rwa [hs, List.getLast?_append_of_ne_nil _ hne] at hlast
      have hspace := List.eq_of_mem_replicate (hspaces.subset (List.mem_of_getLast? hend))
      simp at hspace
    subst hnil
    exact ⟨[], by simp [hs], hw.symm⟩

/-- What is cut off behind a row starts behind its content. -/
theorem exists_front_of_append (hback : content back = []) (hcontent : content (x :: v) ≠ [])
    (h : w ++ back = u ++ x :: v) : ∃ v', w = u ++ x :: v' ∧ v = v' ++ back := by
  have hnot : ¬ (x :: v) <:+ back := fun hsuffix =>
    hcontent (content_eq_nil.mpr fun y hy => content_eq_nil.mp hback y (hsuffix.subset hy))
  obtain ⟨s, -, hv⟩ | ⟨s, hu, hv⟩ := List.append_eq_append_iff.mp h
  · exact absurd ⟨s, hv.symm⟩ hnot
  · cases s with
    | nil => exact absurd (by simp [hv]) hnot
    | cons y s =>
      obtain ⟨rfl, rfl⟩ := List.cons.inj hv
      exact ⟨s, hu, rfl⟩

/-- An indented line with content in it or behind it keeps its spaces up to the margin. -/
theorem layoutPieces_indented (h : Indented (unifyLineEnds ps) u n x v)
    (hcontent : content (x :: v) ≠ []) :
    ∃ u' v', layoutPieces ps =
        u' ++ (spaces (n - margin (lines (unifyLineEnds ps)).2) ++ x :: v') ∧
      (u' = [] ∨ u'.getLast? = some (.char '\n')) ∧
      content u' = content u ∧ content v' = content v := by
  obtain ⟨front, back, hfront, hback, heq⟩ := dedented_eq_append ps
  obtain ⟨before, behind, hdedented, hbefore, hbehind⟩ := h.dedented_eq
  obtain ⟨u', hu', hrest⟩ := hfront.exists_behind ⟨heq.symm.trans hdedented, h.space, h.lineFeed⟩
  have hcontent : content (x :: behind) ≠ [] := by
    rwa [← List.singleton_append, content_append, hbehind, ← content_append, List.singleton_append]
  rw [← List.append_assoc] at hrest
  obtain ⟨v', hlayout, hv'⟩ := exists_front_of_append hback hcontent hrest
  refine ⟨u', v', by rw [hlayout, List.append_assoc], ?_, ?_, ?_⟩
  · by_cases hnil : u' = []
    · exact .inl hnil
    · right
      rw [← List.getLast?_append_of_ne_nil front hnil, ← hu']
      simp
  · calc content u'
      _ = content (front ++ u') := by rw [content_append, hfront.content, List.nil_append]
      _ = content before ++ content [.char '\n'] := by rw [← hu', content_append]
      _ = content u := by rw [hbefore]; exact List.append_nil _
  · calc content v'
      _ = content (v' ++ back) := by rw [content_append, hback, List.append_nil]
      _ = content v := by rw [← hv', hbehind]

/-- The layout of a pattern has the same content, with the same numbers of line feeds between its
pieces. A line that starts behind a line feed of the merged pattern, and has content in it or
behind it, starts a line of the layout and keeps its spaces but for the least number of spaces
that such a line has. -/
theorem layout_keeps_content (p : Pattern) :
    content p.layout.pieces = content p.pieces ∧ gaps p.layout.pieces = gaps p.pieces ∧
    ∀ m, IsLeast {n | ∃ u x v, Indented p.merge.pieces u n x v} m →
      ∀ u n x v, Indented p.merge.pieces u n x v → content (x :: v) ≠ [] →
        m ≤ n ∧ ∃ u' v', p.layout.pieces = u' ++ (spaces (n - m) ++ x :: v') ∧
          (u' = [] ∨ u'.getLast? = some (.char '\n')) ∧
          content u' = content u ∧ content v' = content v := by
  rw [layout, pieces_ofPieces, pieces_merge]
  refine ⟨content_layoutPieces _, gaps_layoutPieces _, fun m hm u n x v h hcontent => ?_⟩
  obtain rfl := hm.unique h.isLeast_margin
  exact ⟨hm.2 ⟨u, x, v, h⟩, layoutPieces_indented h hcontent⟩

/-- The line with a placeable has the least indentation, and the other one keeps the rest. -/
theorem layout_keeps_content_lines :
    let p : Pattern :=
      [.text "a\r\n    b\n\n  ", .placeable (.inline (.argument "x")), .text " c \n"]
    let v : List Piece := [.char '\n', .char '\n', .char ' ', .char ' ',
      .placeable (.inline (.argument "x")), .char ' ', .char 'c', .char ' ', .char '\n']
    IsLeast {n | ∃ u x v, Indented p.merge.pieces u n x v} 2 ∧
      Indented p.merge.pieces [.char 'a'] 4 (.char 'b') v ∧ content (.char 'b' :: v) ≠ [] ∧
      ∃ u' v', p.layout.pieces = u' ++ (spaces 2 ++ .char 'b' :: v') ∧ content u' = [.char 'a'] ∧
        content v' = [.placeable (.inline (.argument "x")), .char 'c'] := by
  intro p v
  have hindented : Indented p.merge.pieces [.char 'a'] 4 (.char 'b') v := ⟨by cbv, rfl, rfl⟩
  have hmargin : margin (lines p.merge.pieces).2 = 2 := by cbv
  have hleast := hindented.isLeast_margin
  rw [hmargin] at hleast
  have hcontent : content (.char 'b' :: v) ≠ [] := by simp [content, Piece.isContent]
  obtain ⟨-, u', v', hlayout, -, hu', hv'⟩ :=
    (layout_keeps_content p).2.2 2 hleast _ _ _ _ hindented hcontent
  exact ⟨hleast, hindented, hcontent, u', v', hlayout, hu', hv'⟩

end Pattern

end Phrasebook
