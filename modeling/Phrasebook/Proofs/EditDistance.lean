import Mathlib.Order.Bounds.Basic
import Phrasebook.Suggestion

/-!
# Edit distances

The distance of two texts is the least number of edits that turn one into the other, where an
edit inserts, deletes or replaces one character anywhere. The table of distances computes it.
Between the two stands the recursion on the first characters: no edit changes its value by
more than one, and its value can be reached. The table grows at the ends of the texts, so it
follows the recursion for the texts in reverse, which are as far apart.

## Main definitions

* `Edits`: so many edits, one after another.
* `Levenshtein`: the least number of edits.
* `distance`: the recursion on the first characters.
-/

namespace Phrasebook

/-! ## Edits -/

/-- One character is inserted, deleted or replaced. -/
inductive Edit : List Char → List Char → Prop
  | insert (u v : List Char) (c : Char) : Edit (u ++ v) (u ++ c :: v)
  | delete (u v : List Char) (c : Char) : Edit (u ++ c :: v) (u ++ v)
  | replace (u v : List Char) (c d : Char) : Edit (u ++ c :: v) (u ++ d :: v)

/-- So many edits turn one text into the other. -/
inductive Edits : Nat → List Char → List Char → Prop
  | none (a : List Char) : Edits 0 a a
  | step {n : Nat} {a b c : List Char} : Edit a b → Edits n b c → Edits (n + 1) a c

/-- No fewer edits turn one text into the other. -/
def Levenshtein (n : Nat) (a b : List Char) : Prop :=
  IsLeast {m | Edits m a b} n

theorem Levenshtein.unique {m n : Nat} {a b : List Char} (hm : Levenshtein m a b)
    (hn : Levenshtein n a b) : m = n :=
  IsLeast.unique hm hn

theorem Edit.cons {a b : List Char} (h : Edit a b) (c : Char) : Edit (c :: a) (c :: b) := by
  cases h with
  | insert u v d => exact .insert (c :: u) v d
  | delete u v d => exact .delete (c :: u) v d
  | replace u v d e => exact .replace (c :: u) v d e

theorem Edit.reverse {a b : List Char} (h : Edit a b) : Edit a.reverse b.reverse := by
  cases h with
  | insert u v c => simpa using Edit.insert v.reverse u.reverse c
  | delete u v c => simpa using Edit.delete v.reverse u.reverse c
  | replace u v c d => simpa using Edit.replace v.reverse u.reverse c d

theorem Edit.length_le {a b : List Char} (h : Edit a b) : b.length ≤ a.length + 1 := by
  cases h <;> simp <;> omega

namespace Edits

variable {n : Nat} {a b : List Char}

theorem cons (h : Edits n a b) (c : Char) : Edits n (c :: a) (c :: b) := by
  induction h with
  | none a => exact .none (c :: a)
  | step hedit _ ih => exact .step (hedit.cons c) ih

theorem snoc {c : List Char} (h : Edits n a b) (hedit : Edit b c) : Edits (n + 1) a c := by
  induction h with
  | none a => exact .step hedit (.none c)
  | step hfirst _ ih => exact .step hfirst (ih hedit)

theorem reverse (h : Edits n a b) : Edits n a.reverse b.reverse := by
  induction h with
  | none a => exact .none a.reverse
  | step hedit _ ih => exact .step hedit.reverse ih

theorem length_le (h : Edits n a b) : b.length ≤ a.length + n := by
  induction h with
  | none a => simp
  | step hedit _ ih =>
    have := hedit.length_le
    omega

theorem insert (h : Edits n a b) (d : Char) : Edits (n + 1) a (d :: b) :=
  h.snoc (.insert [] b d)

theorem delete (h : Edits n a b) (c : Char) : Edits (n + 1) (c :: a) b :=
  .step (.delete [] a c) h

theorem replace (h : Edits n a b) (c d : Char) : Edits (n + 1) (c :: a) (d :: b) :=
  .step (.replace [] a c d) (h.cons d)

end Edits

theorem levenshtein_reverse {n : Nat} {a b : List Char} (h : Levenshtein n a b) :
    Levenshtein n a.reverse b.reverse := by
  refine ⟨h.1.reverse, fun m hm => h.2 ?_⟩
  simpa using Edits.reverse hm

/-! ## The recursion on the first characters -/

/-- The distance of two texts: their first characters are kept or replaced, or one of them is
deleted or inserted. -/
def distance : List Char → List Char → Nat
  | [], b => b.length
  | c :: a, [] => a.length + 1
  | c :: a, d :: b =>
    min (min (distance (c :: a) b + 1) (distance a (d :: b) + 1))
      (if c = d then distance a b else distance a b + 1)
termination_by a b => a.length + b.length

@[simp] theorem distance_nil_left (b : List Char) : distance [] b = b.length := by
  rw [distance]

@[simp] theorem distance_nil_right (a : List Char) : distance a [] = a.length := by
  cases a <;> simp [distance]

theorem distance_cons_cons (c d : Char) (a b : List Char) : distance (c :: a) (d :: b) =
    min (min (distance (c :: a) b + 1) (distance a (d :: b) + 1))
      (if c = d then distance a b else distance a b + 1) := by
  rw [distance]

theorem distance_self (a : List Char) : distance a a = 0 := by
  induction a with
  | nil => simp
  | cons c a ih => simp [distance_cons_cons, ih]

/-- Each case of the recursion is a way to edit, so the distance can be reached. -/
theorem edits_distance (a b : List Char) : Edits (distance a b) a b := by
  fun_induction distance a b with
  | case1 b =>
    induction b with
    | nil => exact .none []
    | cons d b ih => exact ih.insert d
  | case2 c a =>
    induction a generalizing c with
    | nil => exact (Edits.none []).delete c
    | cons c' a ih => exact (ih c').delete c
  | case3 c a d b ihinsert ihdelete ihreplace =>
    have hkeep : Edits (if c = d then distance a b else distance a b + 1) (c :: a) (d :: b) := by
      split
      · next h => exact h ▸ ihreplace.cons c
      · exact ihreplace.replace c d
    have hleast : ∀ x y z : Nat,
        min (min x y) z = x ∨ min (min x y) z = y ∨ min (min x y) z = z := by
      omega
    obtain h | h | h := hleast (distance (c :: a) b + 1) (distance a (d :: b) + 1)
      (if c = d then distance a b else distance a b + 1) <;> rw [h]
    · exact ihinsert.insert d
    · exact ihdelete.delete c
    · exact hkeep

/-! ## No edit changes the distance by more than one -/

theorem distance_cons_left_le (c : Char) (a b : List Char) :
    distance (c :: a) b ≤ distance a b + 1 := by
  cases b with
  | nil => simp
  | cons d b =>
    rw [distance_cons_cons]
    omega

theorem distance_cons_right_le (d : Char) (a b : List Char) :
    distance a (d :: b) ≤ distance a b + 1 := by
  cases a with
  | nil => simp
  | cons c a =>
    rw [distance_cons_cons]
    omega

theorem distance_le_cons_left (c : Char) (a b : List Char) :
    distance a b ≤ distance (c :: a) b + 1 := by
  induction b with
  | nil => simp; omega
  | cons d b ih =>
    have hinsert := distance_cons_right_le d a b
    rw [distance_cons_cons]
    split <;> omega

theorem distance_replace_le (c d : Char) (a b : List Char) :
    distance (c :: a) b ≤ distance (d :: a) b + 1 := by
  induction b with
  | nil => simp
  | cons e b ih =>
    rw [distance_cons_cons, distance_cons_cons]
    split <;> split <;> omega

/-- What is true of two texts stays true with the same text in front of them. -/
theorem distance_append_le {a a' : List Char} (h : ∀ b, distance a b ≤ distance a' b + 1)
    (u b : List Char) : distance (u ++ a) b ≤ distance (u ++ a') b + 1 := by
  induction u generalizing b with
  | nil => exact h b
  | cons c u ihu =>
    induction b with
    | nil => simpa using ihu []
    | cons d b ihb =>
      have hdelete := ihu (d :: b)
      have hkeep := ihu b
      simp only [List.cons_append] at ihb ⊢
      rw [distance_cons_cons, distance_cons_cons]
      split <;> omega

theorem Edit.distance_le {a a' : List Char} (h : Edit a a') (b : List Char) :
    distance a b ≤ distance a' b + 1 := by
  cases h with
  | insert u v c => exact distance_append_le (distance_le_cons_left c v) u b
  | delete u v c => exact distance_append_le (distance_cons_left_le c v) u b
  | replace u v c d => exact distance_append_le (distance_replace_le c d v) u b

theorem Edits.distance_le {n : Nat} {a b : List Char} (h : Edits n a b) : distance a b ≤ n := by
  induction h with
  | none a => rw [distance_self]
  | @step n a a' b hedit _ ih =>
    have := hedit.distance_le b
    omega

theorem levenshtein_distance (a b : List Char) : Levenshtein (distance a b) a b :=
  ⟨edits_distance a b, fun _ h => Edits.distance_le h⟩

theorem distance_reverse (a b : List Char) : distance a.reverse b.reverse = distance a b :=
  (levenshtein_distance a.reverse b.reverse).unique (levenshtein_reverse (levenshtein_distance a b))

/-! ## The table -/

/-- The distances of a text to another one that grows, character by character, at its front. -/
def distanceRow (a : List Char) : List Char → List Char → List Nat
  | u, [] => [distance a u]
  | u, d :: ds => distance a u :: distanceRow a (d :: u) ds

theorem distanceRow_eq_cons (a u ds : List Char) :
    ∃ row, distanceRow a u ds = distance a u :: row := by
  cases ds <;> exact ⟨_, rfl⟩

/-- One more row of the table belongs to a text with one more character. -/
theorem editRow_distanceRow (c : Char) (a u ds : List Char) :
    distance (c :: a) u :: editRow c ds (distance (c :: a) u) (distanceRow a u ds) =
      distanceRow (c :: a) u ds := by
  induction ds generalizing u with
  | nil => simp [editRow, distanceRow]
  | cons d ds ih =>
    have hhere : min (min (distance (c :: a) u + 1) (distance a (d :: u) + 1))
        (if c = d then distance a u else distance a u + 1) = distance (c :: a) (d :: u) :=
      (distance_cons_cons c d a u).symm
    obtain ⟨row, hrow⟩ := distanceRow_eq_cons a (d :: u) ds
    have hrest := ih (d :: u)
    rw [hrow] at hrest
    simp only [distanceRow, hrow, editRow, hhere, hrest]

theorem distanceRow_nil (u ds : List Char) :
    distanceRow [] u ds = List.range' u.length (ds.length + 1) := by
  induction ds generalizing u with
  | nil => simp [distanceRow]
  | cons d ds ih =>
    rw [distanceRow, ih, distance_nil_left, List.length_cons, List.length_cons,
      List.range'_succ (n := ds.length + 1)]

theorem getLastD_distanceRow (a u ds : List Char) (n : Nat) :
    (distanceRow a u ds).getLastD n = distance a (ds.reverse ++ u) := by
  induction ds generalizing u n with
  | nil => rfl
  | cons d ds ih => rw [distanceRow, List.getLastD_cons, ih, List.reverse_cons, List.append_assoc,
      List.singleton_append]

/-- The rows follow the characters of the first text, so its beginnings come in reverse. -/
theorem foldl_editRow (a a' b : List Char) :
    a.foldl (fun row c => (row.headD 0 + 1) :: editRow c b (row.headD 0 + 1) row)
      (distanceRow a' [] b) = distanceRow (a.reverse ++ a') [] b := by
  induction a generalizing a' with
  | nil => rfl
  | cons c a ih =>
    have hhead : (distanceRow a' [] b).headD 0 + 1 = distance (c :: a') [] := by
      obtain ⟨row, hrow⟩ := distanceRow_eq_cons a' [] b
      simp [hrow]
    rw [List.foldl_cons, hhead, editRow_distanceRow, ih, List.reverse_cons, List.append_assoc,
      List.singleton_append]

theorem editDistance_eq_distance (a b : List Char) : editDistance a b = distance a b := by
  have hfirst : List.range (b.length + 1) = distanceRow [] [] b := by
    rw [distanceRow_nil, List.range_eq_range', List.length_nil]
  rw [editDistance, hfirst, foldl_editRow, getLastD_distanceRow, List.append_nil, List.append_nil,
    distance_reverse]

/-- The table computes the least number of edits. -/
theorem levenshtein_editDistance (a b : List Char) : Levenshtein (editDistance a b) a b := by
  rw [editDistance_eq_distance]
  exact levenshtein_distance a b

theorem levenshtein_iff {n : Nat} {a b : List Char} : Levenshtein n a b ↔ editDistance a b = n := by
  have hdistance := levenshtein_editDistance a b
  constructor
  · exact hdistance.unique
  · rintro rfl
    exact hdistance

theorem editDistance_eq_zero {a b : List Char} : editDistance a b = 0 ↔ a = b := by
  rw [← levenshtein_iff]
  constructor
  · rintro ⟨h, -⟩
    cases h
    rfl
  · rintro rfl
    exact ⟨.none a, fun n _ => Nat.zero_le n⟩

end Phrasebook
