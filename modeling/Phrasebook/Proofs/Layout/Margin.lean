import Mathlib
import Phrasebook.Proofs.Layout

/-!
# Margins

The margin of a pattern is the least indentation of its continuation lines, so that only the
indentation of these lines against each other counts. A pattern whose continuation lines,
blank ones included, are moved to the right by the same number of spaces has the same layout.

## Main definitions

* `Pattern.shift`: a pattern with its continuation lines moved to the right.
-/

namespace Phrasebook.Pattern

variable {k n : Nat} {p : Piece} {ps line : List Piece} {rest : List (List Piece)}

/-- Insert spaces behind every line feed in the texts of a pattern. -/
def shift (k : Nat) (p : Pattern) : Pattern :=
  p.map fun
    | .text t => .text (String.ofList
        (t.toList.flatMap fun c => if c = '\n' then c :: List.replicate k ' ' else [c]))
    | .placeable e => .placeable e

def spaces (k : Nat) : List Piece := List.replicate k (.char ' ')

/-- Insert spaces behind every line feed of a row. -/
def shiftPieces (k : Nat) (ps : List Piece) : List Piece :=
  ps.flatMap fun p => if p.isLineFeed then p :: spaces k else [p]

/-! ## Rows -/

theorem pieces_shift (k : Nat) (p : Pattern) : (shift k p).pieces = shiftPieces k p.pieces := by
  induction p with
  | nil => rfl
  | cons x p ih =>
    cases x with
    | placeable e =>
      rw [pieces_placeable_cons]
      exact congrArg (.placeable e :: ·) ih
    | text t =>
      rw [shift, List.map_cons, pieces_text_cons, ← shift, ih]
      simp [shiftPieces, pieces_text_cons, List.flatMap_map, List.map_flatMap, spaces,
        Piece.isLineFeed, Piece.isChar, apply_ite]

theorem shiftPieces_lineFeed (k : Nat) (ps : List Piece) :
    shiftPieces k (.char '\n' :: ps) = .char '\n' :: (spaces k ++ shiftPieces k ps) := rfl

theorem shiftPieces_cons_of_not (h : p.isLineFeed = false) :
    shiftPieces k (p :: ps) = p :: shiftPieces k ps := by
  simp [shiftPieces, h]

theorem head?_shiftPieces (k : Nat) (ps : List Piece) :
    (shiftPieces k ps).head? = ps.head? := by
  cases ps with
  | nil => rfl
  | cons p ps =>
    by_cases hp : p.isLineFeed
    · simp [shiftPieces, hp]
    · simp [shiftPieces, hp]

theorem isLineFeed_of_mem_spaces (h : p ∈ spaces k) : p.isLineFeed = false := by
  rw [List.eq_of_mem_replicate h]
  rfl

theorem unifyLineEnds_spaces_append (k : Nat) (ps : List Piece) :
    unifyLineEnds (spaces k ++ ps) = spaces k ++ unifyLineEnds ps := by
  induction k with
  | zero => rfl
  | succ k ih =>
    rw [spaces, List.replicate_succ, List.cons_append, unifyLineEnds_cons_of_ne (by simp)]
    exact congrArg (.char ' ' :: ·) ih

theorem unifyLineEnds_shiftPieces (k : Nat) (ps : List Piece) :
    unifyLineEnds (shiftPieces k ps) = shiftPieces k (unifyLineEnds ps) := by
  fun_induction unifyLineEnds ps with
  | case1 ps ih =>
    rw [shiftPieces_cons_of_not rfl, shiftPieces_lineFeed, shiftPieces_lineFeed, unifyLineEnds,
      unifyLineEnds_spaces_append, ih]
  | case2 p ps hne ih =>
    by_cases hp : p.isLineFeed
    · obtain rfl := isLineFeed_eq_true.mp hp
      rw [shiftPieces_lineFeed, shiftPieces_lineFeed, unifyLineEnds_cons_of_ne (by simp),
        unifyLineEnds_spaces_append, ih]
    · simp only [Bool.not_eq_true] at hp
      rw [shiftPieces_cons_of_not hp, shiftPieces_cons_of_not hp, unifyLineEnds, ih]
      -- A carriage return comes to stand in front of no other line feed.
      intro back hreturn hback
      have hhead := head?_shiftPieces k ps
      rw [hback] at hhead
      obtain ⟨back, hback⟩ := List.head?_eq_some_iff.mp hhead.symm
      exact hne back hreturn hback
  | case3 => rfl

/-! ## Lines -/

theorem lines_inline_append (h : ∀ x ∈ line, x.isLineFeed = false) (ps : List Piece) :
    lines (line ++ ps) = (line ++ (lines ps).1, (lines ps).2) := by
  induction line with
  | nil => rfl
  | cons x line ih =>
    obtain ⟨hx, hline⟩ := List.forall_mem_cons.mp h
    simp [lines_cons, hx, ih hline]

theorem lines_shiftPieces (k : Nat) (ps : List Piece) :
    lines (shiftPieces k ps) = ((lines ps).1, (lines ps).2.map (spaces k ++ ·)) := by
  induction ps with
  | nil => rfl
  | cons p ps ih =>
    by_cases hp : p.isLineFeed
    · obtain rfl := isLineFeed_eq_true.mp hp
      rw [shiftPieces_lineFeed, lines_cons, lines_inline_append fun _ => isLineFeed_of_mem_spaces,
        lines_cons, ih]
      rfl
    · simp only [Bool.not_eq_true] at hp
      simp [shiftPieces_cons_of_not hp, lines_cons, hp, ih]

theorem isBlankLine_spaces_append (k : Nat) (line : List Piece) :
    isBlankLine (spaces k ++ line) = isBlankLine line := by
  simp [isBlankLine, spaces, Piece.isSpace, Piece.isChar]

theorem indent_spaces_append (k : Nat) (line : List Piece) :
    indent (spaces k ++ line) = k + indent line := by
  simp [indent, spaces, Piece.isSpace, Piece.isChar, List.takeWhile_append]

/-! ## The margin -/

/-- The margin is the least indentation of a line that is not blank, if there is one. -/
theorem isLeast_margin (h : ∃ line ∈ rest, isBlankLine line = false) :
    IsLeast {n | ∃ line ∈ rest, isBlankLine line = false ∧ indent line = n} (margin rest) := by
  constructor
  · obtain ⟨line, hline, hblank⟩ := h
    have hne : (rest.filter fun line => !isBlankLine line).map indent ≠ [] :=
      List.ne_nil_of_mem (List.mem_map_of_mem (List.mem_filter.mpr ⟨hline, by simp [hblank]⟩))
    obtain ⟨m, hm⟩ := Option.ne_none_iff_exists'.mp (List.min?_eq_none_iff.not.mpr hne)
    have hmem := (List.min?_eq_some_iff.mp hm).1
    simpa [margin, hm, and_assoc] using hmem
  · rintro n ⟨line, hline, hblank, rfl⟩
    exact margin_le_indent hblank hline

theorem margin_map_spaces (k : Nat) (h : ∃ line ∈ rest, isBlankLine line = false) :
    margin (rest.map (spaces k ++ ·)) = k + margin rest := by
  obtain ⟨⟨least, hleast, hblank, hindent⟩, hle⟩ := isLeast_margin h
  have hmoved : ∃ line ∈ rest.map (spaces k ++ ·), isBlankLine line = false :=
    ⟨_, List.mem_map_of_mem hleast, by rwa [isBlankLine_spaces_append]⟩
  refine (isLeast_margin hmoved).unique ⟨⟨_, List.mem_map_of_mem hleast, ?_, ?_⟩, ?_⟩
  · rwa [isBlankLine_spaces_append]
  · rw [indent_spaces_append, hindent]
  · rintro n ⟨line, hline, hblank, rfl⟩
    obtain ⟨whole, hwhole, rfl⟩ := List.mem_map.mp hline
    rw [isBlankLine_spaces_append] at hblank
    rw [indent_spaces_append]
    exact Nat.add_le_add_left (hle ⟨whole, hwhole, hblank, rfl⟩) k

/-- The margin takes the spaces that were added with it. -/
theorem dedentLine_spaces_append (k : Nat) (hline : line ∈ rest) :
    dedentLine (margin (rest.map (spaces k ++ ·))) (spaces k ++ line) =
      dedentLine (margin rest) line := by
  rw [dedentLine, dedentLine, isBlankLine_spaces_append]
  by_cases hblank : isBlankLine line
  · rw [if_pos hblank, if_pos hblank]
  · have hmargin := margin_map_spaces k ⟨line, hline, by simpa using hblank⟩
    rw [if_neg hblank, if_neg hblank, hmargin]
    simp [spaces, List.drop_append]

theorem layoutPieces_shiftPieces (k : Nat) (ps : List Piece) :
    layoutPieces (shiftPieces k ps) = layoutPieces ps := by
  have hdedent : ∀ rest : List (List Piece),
      (rest.map (spaces k ++ ·)).map (dedentLine (margin (rest.map (spaces k ++ ·)))) =
        rest.map (dedentLine (margin rest)) := by
    intro rest
    rw [List.map_map]
    exact List.map_congr_left fun line hline => dedentLine_spaces_append k hline
  simp only [layoutPieces, unifyLineEnds_shiftPieces, lines_shiftPieces, hdedent]

/-- Moving all continuation lines of a pattern to the right does not change its layout. -/
theorem layout_shift (k : Nat) (p : Pattern) : (shift k p).layout = p.layout := by
  rw [layout, pieces_shift, layoutPieces_shiftPieces, layout]

end Phrasebook.Pattern
