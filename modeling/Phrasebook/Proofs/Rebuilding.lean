import Phrasebook.Proofs.Layout

/-!
# Rebuilding patterns

Merging a pattern that has been merged before, or laid out, changes it no more, as long as no
line end of the row was written with two carriage returns. Line ends are unified in one pass:
of two carriage returns in front of a line feed one is left, and the next pass takes it for a
line end again.
-/

namespace Phrasebook.Pattern

/-! ## Neighbours in a row -/

section

variable {α : Type} {a b : α} {u v : List α}

theorem pair_infix_cons {x : α} :
    [a, b] <:+: x :: u ↔ (x = a ∧ u.head? = some b) ∨ [a, b] <:+: u := by
  rw [List.infix_cons_iff, List.cons_prefix_cons, @eq_comm _ a]
  cases u with
  | nil => simp
  | cons y u => simp [@eq_comm _ b]

theorem pair_infix_append :
    [a, b] <:+: u ++ v ↔
      [a, b] <:+: u ∨ [a, b] <:+: v ∨ (u.getLast? = some a ∧ v.head? = some b) := by
  induction u with
  | nil => simp
  | cons x u ih =>
    rw [List.cons_append, pair_infix_cons, pair_infix_cons, ih]
    cases u <;> grind

end

/-! ## Line ends -/

variable {p : Piece} {ps : List Piece}

/-- What the second rule for line ends leaves to it. -/
theorem not_pair_of_ne (hne : ∀ rest, p = .char '\r' → ps = .char '\n' :: rest → False) :
    ¬ (p = .char '\r' ∧ ps.head? = some (.char '\n')) := by
  rintro ⟨hp, hhead⟩
  obtain ⟨rest, hps⟩ := List.head?_eq_some_iff.mp hhead
  exact hne rest hp hps

theorem head?_unifyLineEnds :
    (unifyLineEnds ps).head? = some (.char '\n') ↔
      ps.head? = some (.char '\n') ∨ [.char '\r', .char '\n'] <+: ps := by
  fun_cases unifyLineEnds ps with
  | case1 ps => simp
  | case2 p ps hne =>
    have hpair : ¬ [.char '\r', .char '\n'] <+: p :: ps := by
      rintro ⟨rest, hrest⟩
      obtain ⟨rfl, rfl⟩ := List.cons.inj hrest
      exact hne rest rfl rfl
    simp [hpair]
  | case3 => simp

/-- A carriage return is left in front of a line feed if and only if there were two. -/
theorem pair_infix_unifyLineEnds :
    [.char '\r', .char '\n'] <:+: unifyLineEnds ps ↔
      [.char '\r', .char '\r', .char '\n'] <:+: ps := by
  fun_induction unifyLineEnds ps with
  | case1 ps ih => simp [List.infix_cons_iff, ih]
  | case2 p ps hne ih =>
    rw [pair_infix_cons, List.infix_cons_iff, List.cons_prefix_cons, ih, head?_unifyLineEnds]
    grind [not_pair_of_ne hne]
  | case3 => simp

theorem unifyLineEnds_eq_self_iff :
    unifyLineEnds ps = ps ↔ ¬ [.char '\r', .char '\n'] <:+: ps := by
  fun_induction unifyLineEnds ps with
  | case1 ps ih => simp [pair_infix_cons]
  | case2 p ps hne ih =>
    rw [pair_infix_cons, List.cons.injEq, ih]
    grind [not_pair_of_ne hne]
  | case3 => simp

/-! ## Merging -/

theorem pieces_merge (p : Pattern) : p.merge.pieces = unifyLineEnds p.pieces :=
  pieces_ofPieces _

theorem merge_eq_self_iff {p : Pattern} (hp : p.Merged) :
    p.merge = p ↔ ¬ [.char '\r', .char '\n'] <:+: p.pieces := by
  rw [← unifyLineEnds_eq_self_iff]
  constructor
  · intro h
    rw [← pieces_merge, h]
  · intro h
    rw [merge, h, ofPieces_pieces hp]

theorem merge_merge_eq_iff (p : Pattern) :
    p.merge.merge = p.merge ↔ ¬ [.char '\r', .char '\r', .char '\n'] <:+: p.pieces := by
  have hmerged : p.merge.Merged := merged_ofPieces _
  rw [merge_eq_self_iff hmerged, pieces_merge, pair_infix_unifyLineEnds]

/-! ## Lines -/

theorem unlines_cons (first line : List Piece) (rest : List (List Piece)) :
    unlines first (line :: rest) = first ++ .char '\n' :: unlines line rest := by
  simp [unlines]

theorem unlines_lines (ps : List Piece) : unlines (lines ps).1 (lines ps).2 = ps := by
  induction ps with
  | nil => rfl
  | cons x ps ih =>
    rw [lines_cons]
    split
    · next hx => rw [unlines_cons, ih, isLineFeed_eq_true.mp hx, List.nil_append]
    · rw [unlines, List.cons_append]
      exact congrArg _ ih

/-- Between lines that have no line feed inside, a line feed stands behind a carriage return
where a line in front of another one ends with it. -/
theorem pair_infix_unlines {first : List Piece} {rest : List (List Piece)}
    (h : ∀ line ∈ first :: rest, .char '\n' ∉ line) :
    [.char '\r', .char '\n'] <:+: unlines first rest ↔
      ∃ line ∈ (first :: rest).dropLast, line.getLast? = some (.char '\r') := by
  have hpair : ∀ line ∈ first :: rest, ¬ [.char '\r', .char '\n'] <:+: line := by
    intro line hline hpair
    exact h line hline (hpair.subset (by simp))
  induction rest generalizing first with
  | nil => simpa [unlines] using hpair
  | cons line rest ih =>
    have hrest := ih (fun l hl => h l (.tail _ hl)) fun l hl => hpair l (.tail _ hl)
    have hfirst := hpair first (.head _)
    rw [unlines_cons, pair_infix_append, pair_infix_cons, List.dropLast_cons_cons]
    grind

theorem getLast?_dedentLine {n : Nat} {line : List Piece} {x : Piece}
    (h : (dedentLine n line).getLast? = some x) : line.getLast? = some x := by
  unfold dedentLine at h
  split at h
  · simp at h
  · rw [List.getLast?_drop] at h
    split at h
    · simp at h
    · exact h

/-- Lines end as they did before their margin was taken. -/
theorem exists_whole_line {n : Nat} {first line : List Piece} {rest : List (List Piece)}
    {x : Piece} (hline : line ∈ (first :: rest.map (dedentLine n)).dropLast)
    (hx : line.getLast? = some x) :
    ∃ whole ∈ (first :: rest).dropLast, whole.getLast? = some x := by
  cases rest with
  | nil => simp at hline
  | cons next rest =>
    rw [List.map_cons, List.dropLast_cons_cons, ← List.map_cons, ← List.map_dropLast] at hline
    rw [List.dropLast_cons_cons]
    rcases List.mem_cons.mp hline with rfl | hline
    · exact ⟨line, .head _, hx⟩
    · obtain ⟨whole, hwhole, rfl⟩ := List.mem_map.mp hline
      exact ⟨whole, .tail _ hwhole, getLast?_dedentLine hx⟩

theorem mem_dropLast_of_suffix {α : Type} {x : α} {u v : List α} (h : u <:+ v)
    (hx : x ∈ u.dropLast) : x ∈ v.dropLast := by
  obtain ⟨t, rfl⟩ := h
  have hu : u ≠ [] := by
    rintro rfl
    simp at hx
  rw [List.dropLast_append_of_ne_nil hu]
  exact List.mem_append_right t hx

theorem lineFeed_not_mem_lines (ps : List Piece) :
    ∀ line ∈ (lines ps).1 :: (lines ps).2, .char '\n' ∉ line := by
  intro line hline hmem
  have hfeed : Piece.isLineFeed (.char '\n') = false := by
    rcases List.mem_cons.mp hline with rfl | hline
    · exact not_isLineFeed_of_mem_lines.1 hmem
    · exact not_isLineFeed_of_mem_lines.2 line hline hmem
  cases hfeed

/-- The layout leaves a carriage return in front of a line feed only if there were two. -/
theorem pair_infix_layoutPieces (h : [.char '\r', .char '\n'] <:+: layoutPieces ps) :
    [.char '\r', .char '\r', .char '\n'] <:+: ps := by
  let all := lines (unifyLineEnds ps)
  let dedented := all.2.map (dedentLine (margin all.2))
  let kept := dropBlankLines all.1 dedented
  have hsuffix : kept.1 :: kept.2 <:+ all.1 :: dedented := dropBlankLines_suffix _ _
  have hfeed : ∀ line ∈ kept.1 :: kept.2, .char '\n' ∉ line := by
    intro line hline hmem
    cases (mem_of_mem_laidLines (hsuffix.subset hline) hmem).2
  have hkept : [.char '\r', .char '\n'] <:+: unlines kept.1 kept.2 :=
    h.trans (dropTrailing_prefix_self _).isInfix
  -- The line that ends with the carriage return was a line of the row before.
  obtain ⟨line, hline, hlast⟩ := (pair_infix_unlines hfeed).mp hkept
  have hwhole := exists_whole_line (mem_dropLast_of_suffix hsuffix hline) hlast
  have hunified := (pair_infix_unlines (lineFeed_not_mem_lines _)).mpr hwhole
  rwa [unlines_lines, pair_infix_unifyLineEnds] at hunified

end Phrasebook.Pattern
