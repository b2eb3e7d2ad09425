import Phrasebook.Proofs.Source.Concatenation

/-!
# Positions and bytes

A text is made up of whole lines and of a last one that is not ended. The position behind the
text counts both, and leads back to the bytes of the text. A character that stands in front of the
text without being counted moves the bytes with it on the lines behind the first. On the first
line the position falls short of it by one character.

Positions come in the order of the places that they stand for: by lines, and by columns on one
line.

## Main definitions

* `Position.Before`: the order of positions.
-/

namespace Phrasebook.Position

open Source

theorem byteSize_eq_utf8ByteSize (u : List Char) : byteSize u = (String.ofList u).utf8ByteSize := by
  induction u with
  | nil => rfl
  | cons c cs ih =>
    have hcons : String.ofList (c :: cs) = String.ofList [c] ++ String.ofList cs := by
      rw [← String.ofList_append]
      rfl
    rw [hcons, String.utf8ByteSize_append, ← ih, byteSize]
    simp

theorem utf8ByteSize_of_ascii {text : String} (h : ∀ c ∈ text.toList, c.toNat < 128) :
    text.utf8ByteSize = text.length := by
  have hsize : ∀ cs : List Char, (∀ c ∈ cs, c.toNat < 128) → byteSize cs = cs.length := by
    intro cs hcs
    induction cs with
    | nil => rfl
    | cons c cs ih =>
      obtain ⟨hc, hcs⟩ := List.forall_mem_cons.mp hcs
      have hone : c.utf8Size = 1 := Char.utf8Size_eq_one_iff.mpr (by
        rw [UInt32.le_iff_toNat_le]
        exact Nat.le_of_lt_succ hc)
      rw [byteSize, hone, ih hcs, List.length_cons, Nat.add_comm]
  have hbytes := hsize text.toList h
  rwa [byteSize_eq_utf8ByteSize, String.ofList_toList, String.length_toList] at hbytes

/-! ## Lines -/

theorem ended_cons {s : List Char} (h : Ended s) (c : Char) : Ended (c :: s) := by
  simp_all [Ended, List.getLast?_cons]

/-- Every text is some whole lines and the beginning of one more. -/
theorem exists_lines (u : List Char) :
    ∃ lines last, u = lines ++ last ∧ Closed lines ∧ '\n' ∉ last := by
  induction u with
  | nil => exact ⟨[], [], rfl, .inl rfl, List.not_mem_nil⟩
  | cons c u ih =>
    obtain ⟨lines, last, rfl, hlines, hlast⟩ := ih
    obtain rfl | hended := hlines
    · by_cases hc : c = '\n'
      · exact ⟨[c], last, rfl, .inr (by simp [Ended, hc]), hlast⟩
      · exact ⟨[], c :: last, rfl, .inl rfl, by simp [Ne.symm hc, hlast]⟩
    · exact ⟨c :: lines, last, rfl, .inr (ended_cons hended c), hlast⟩

theorem splitLine_append {line : List Char} (h : '\n' ∉ line) (rest : List Char) :
    splitLine (line ++ '\n' :: rest) = (line ++ ['\n'], rest) := by
  induction line with
  | nil => simp [splitLine]
  | cons c line ih =>
    obtain ⟨hc, hline⟩ : '\n' ≠ c ∧ '\n' ∉ line := by simpa using h
    simp [splitLine, hc.symm, ih hline]

theorem splitLines_append {lines : List Char} (h : Closed lines) (rest : List Char) :
    splitLines (lines.count '\n') (lines ++ rest) = (lines, rest) := by
  induction hn : lines.count '\n' generalizing lines with
  | zero =>
    obtain rfl | hended := h
    · rfl
    · exact absurd (List.mem_of_getLast? hended) (List.count_eq_zero.mp hn)
  | succ n ih =>
    have hmem : '\n' ∈ lines := List.count_pos_iff.mp (by omega)
    obtain ⟨line, others, rfl, hline⟩ := List.eq_append_cons_of_mem hmem
    have hothers : Closed others := h.of_suffix ⟨line ++ ['\n'], by simp⟩
    have hcount : others.count '\n' = n := by
      simpa [List.count_append, List.count_eq_zero.mpr hline] using hn
    rw [splitLines, List.append_assoc, List.cons_append, splitLine_append hline]
    simp [ih hothers hcount]

theorem foldl_advance_of_not_mem {line : List Char} (h : '\n' ∉ line) (p : Position) :
    line.foldl advance p = ⟨p.line, p.column + line.length⟩ := by
  induction line generalizing p with
  | nil => rfl
  | cons c line ih =>
    obtain ⟨hc, hline⟩ : '\n' ≠ c ∧ '\n' ∉ line := by simpa using h
    rw [List.foldl_cons, ih hline, advance, if_neg hc.symm, List.length_cons]
    simp [Nat.add_assoc, Nat.add_comm 1]

theorem after_lines {lines last : List Char} (hlines : Closed lines) (hlast : '\n' ∉ last) :
    after (lines ++ last) = ⟨lines.count '\n' + 1, last.length + 1⟩ := by
  rw [after_append, after_closed hlines, foldl_advance_of_not_mem hlast]
  simp [moveDown, start, Nat.add_comm]

/-! ## Bytes in front of a position -/

/-- A position leads behind as many lines of any text as were counted for it, and there to its
column. -/
theorem byteOffset_after_lines {lines last front : List Char} (hlines : Closed lines)
    (hlast : '\n' ∉ last) (hfront : Closed front) (hcount : front.count '\n' = lines.count '\n')
    (rest : List Char) :
    (after (lines ++ last)).byteOffset (front ++ rest) =
      byteSize front + byteSize (rest.take last.length) := by
  rw [after_lines hlines hlast, byteOffset]
  simp only [Nat.add_sub_cancel, ← hcount, splitLines_append hfront]

theorem byteOffset_after (u v : List Char) : (after u).byteOffset (u ++ v) = byteSize u := by
  obtain ⟨lines, last, rfl, hlines, hlast⟩ := exists_lines u
  rw [List.append_assoc, byteOffset_after_lines hlines hlast hlines rfl, List.take_left,
    byteSize_append]

theorem byteOffset_cons_of_mem {u : List Char} (hu : '\n' ∈ u) {c : Char} (hc : c ≠ '\n')
    (v : List Char) : (after u).byteOffset (c :: u ++ v) = byteSize (c :: u) := by
  obtain ⟨lines, last, rfl, hlines, hlast⟩ := exists_lines u
  have hended : Ended lines := by
    refine hlines.resolve_left ?_
    rintro rfl
    exact hlast hu
  have hfront : Closed (c :: lines) := .inr (ended_cons hended c)
  have hcount : (c :: lines).count '\n' = lines.count '\n' := List.count_cons_of_ne hc
  rw [← List.cons_append, List.append_assoc, byteOffset_after_lines hlines hlast hfront hcount,
    List.take_left, byteSize_append]

theorem byteOffset_cons_of_not_mem {u : List Char} (hu : '\n' ∉ u) (c : Char) (v : List Char) :
    (after u).byteOffset (c :: u ++ v) = byteSize (c :: u).dropLast := by
  have hoffset := byteOffset_after_lines (.inl rfl) hu (.inl rfl) rfl (c :: u ++ v)
  have htake : (c :: u ++ v).take u.length = (c :: u).dropLast := by
    rw [List.take_append_of_le_length (by simp), List.dropLast_eq_take]
    simp
  rw [htake] at hoffset
  exact hoffset.trans (Nat.zero_add _)

/-! ## The order of positions -/

/-- On an earlier line, or on the same line in an earlier column. -/
def Before (p q : Position) : Prop :=
  p.line < q.line ∨ p.line = q.line ∧ p.column < q.column

instance (p q : Position) : Decidable (p.Before q) :=
  inferInstanceAs (Decidable (_ ∨ _))

theorem Before.trans {p q r : Position} (hpq : p.Before q) (hqr : q.Before r) : p.Before r := by
  unfold Before at *
  omega

theorem Before.asymm {p q : Position} (h : p.Before q) : ¬ q.Before p := by
  unfold Before at *
  omega

theorem before_advance (p : Position) (c : Char) : p.Before (p.advance c) := by
  unfold advance
  split
  · exact .inl (Nat.lt_succ_self _)
  · exact .inr ⟨rfl, Nat.lt_succ_self _⟩

theorem before_foldl_advance (p : Position) {u : List Char} (hu : u ≠ []) :
    p.Before (u.foldl advance p) := by
  induction u generalizing p with
  | nil => exact absurd rfl hu
  | cons c u ih =>
    have hfirst := before_advance p c
    cases u with
    | nil => exact hfirst
    | cons d u => exact hfirst.trans (ih _ (List.cons_ne_nil d u))

theorem before_after {u u' : List Char} (h : u <+: u') (hlt : u.length < u'.length) :
    (after u).Before (after u') := by
  obtain ⟨w, rfl⟩ := h
  rw [after_append]
  apply before_foldl_advance
  rintro rfl
  simp at hlt

/-- Of two places in one text the later one has the later position. -/
theorem before_iff_length_lt {u v u' v' : List Char} (h : u ++ v = u' ++ v') :
    (after u).Before (after u') ↔ u.length < u'.length := by
  have hu : u <+: u ++ v := List.prefix_append u v
  have hu' : u' <+: u ++ v := h ▸ List.prefix_append u' v'
  rcases Nat.lt_trichotomy u.length u'.length with hlt | heq | hgt
  · have hbefore := before_after (List.prefix_of_prefix_length_le hu hu' hlt.le) hlt
    exact iff_of_true hbefore hlt
  · obtain rfl := (List.append_inj h heq).1
    exact iff_of_false (fun hbefore => hbefore.asymm hbefore) (Nat.lt_irrefl _)
  · have hbefore := before_after (List.prefix_of_prefix_length_le hu' hu hgt.le) hgt
    exact iff_of_false hbefore.asymm hgt.asymm

/-- Neither of two equal positions comes first, so they are of one place. -/
theorem after_inj {u v u' v' : List Char} (h : u ++ v = u' ++ v') :
    after u = after u' ↔ u = u' := by
  refine ⟨fun hsame => ?_, fun hu => by rw [hu]⟩
  have hbefore := before_iff_length_lt h
  have hbefore' := before_iff_length_lt h.symm
  have hself : ¬ (after u').Before (after u') := fun hp => hp.asymm hp
  rw [hsame] at hbefore hbefore'
  rw [iff_false_left hself] at hbefore hbefore'
  exact (List.append_inj h (by omega)).1

/-- The place where the rest of a text begins has a position that leads back to the bytes in front
of it. So it is the position of no other place, and later places have later positions. -/
theorem ofRest_faithful {text u v : String} (h : text = u ++ v) :
    (ofRest text.toList v.toList).byteOffset text.toList = u.utf8ByteSize ∧
      ∀ u' v', text = u' ++ v' →
        (ofRest text.toList v.toList = ofRest text.toList v'.toList ↔ u = u') ∧
        ((ofRest text.toList v.toList).Before (ofRest text.toList v'.toList) ↔
          u.length < u'.length) := by
  have hplace : ∀ {u v : String}, text = u ++ v →
      ofRest text.toList v.toList = after u.toList := by
    rintro u v rfl
    rw [String.toList_append, ofRest_append]
  constructor
  · rw [hplace h, h, String.toList_append, byteOffset_after, byteSize_eq_utf8ByteSize,
      String.ofList_toList]
  · intro u' v' h'
    have hchars : u.toList ++ v.toList = u'.toList ++ v'.toList := by
      rw [← String.toList_append, ← String.toList_append, ← h, ← h']
    rw [hplace h, hplace h', after_inj hchars, before_iff_length_lt hchars, String.toList_inj,
      String.length_toList, String.length_toList]
    exact ⟨Iff.rfl, Iff.rfl⟩

/-- A character of two bytes on the line before. -/
theorem ofRest_faithful_umlaut :
    (ofRest "ä\nbc".toList "bc".toList).byteOffset "ä\nbc".toList = "ä\n".utf8ByteSize ∧
      (ofRest "ä\nbc".toList "bc".toList).Before (ofRest "ä\nbc".toList "c".toList) := by
  have h : "ä\nbc" = "ä\n" ++ "bc" := by decide
  obtain ⟨hoffset, hplaces⟩ := ofRest_faithful h
  exact ⟨hoffset, (hplaces "ä\nb" "c" (by decide)).2.mpr (by decide)⟩

end Phrasebook.Position
