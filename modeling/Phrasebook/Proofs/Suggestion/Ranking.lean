import Mathlib
import Phrasebook.Proofs.EditDistance

/-!
# The closest ids

Suggestions are the best ones that there are: all ids within reach of the key are ranked by
their distances, those with equal distances by the alphabet, and the first three are given. An
id is left out only if three others come before it. Since no two different ids have the same
rank, the order in which the ids are available does not matter.

## Main definitions

* `WithinReach`: an id that may have been meant.
* `Closer`: the order of the ranking.
* `ranking`: all ids within reach, the closest first.
-/

namespace Phrasebook

/-- Another id than the key, within the number of edits that the key admits. -/
def WithinReach (key id : String) : Prop :=
  id ≠ key ∧ ∃ n ≤ maxEdits key, Levenshtein n key.toList id.toList

/-- Fewer edits away from the key, or as many and earlier in the alphabet. -/
def Closer (key a b : String) : Prop :=
  ∃ m n, Levenshtein m key.toList a.toList ∧ Levenshtein n key.toList b.toList ∧
    (m < n ∨ m = n ∧ a < b)

variable {key a b : String}

/-- Only the key itself is no edit away from the key. -/
theorem withinReach_iff : WithinReach key a ↔
    0 < editDistance key.toList a.toList ∧ editDistance key.toList a.toList ≤ maxEdits key := by
  have hne : a ≠ key ↔ 0 < editDistance key.toList a.toList := by
    rw [Nat.pos_iff_ne_zero, ne_eq, ne_eq, editDistance_eq_zero, String.toList_inj, eq_comm]
  simp only [WithinReach, levenshtein_iff, exists_eq_right', hne]

theorem closer_iff : Closer key a b ↔
    editDistance key.toList a.toList < editDistance key.toList b.toList ∨
      editDistance key.toList a.toList = editDistance key.toList b.toList ∧ a < b := by
  simp only [Closer, levenshtein_iff, exists_and_left, exists_eq_left']

instance (key id : String) : Decidable (WithinReach key id) :=
  decidable_of_iff _ withinReach_iff.symm

instance (key a b : String) : Decidable (Closer key a b) :=
  decidable_of_iff _ closer_iff.symm

/-- Of two different ids one is closer. -/
theorem eq_of_not_closer (hab : ¬ Closer key a b) (hba : ¬ Closer key b a) : a = b := by
  rw [closer_iff] at hab hba
  have hdistance : editDistance key.toList a.toList = editDistance key.toList b.toList := by omega
  have hle : a ≤ b := fun hlt => hba (.inr ⟨hdistance.symm, hlt⟩)
  have hge : b ≤ a := fun hlt => hab (.inr ⟨hdistance, hlt⟩)
  exact String.le_antisymm hle hge

/-! ## The order of the entries -/

theorem suggestionOrder_iff {x y : Nat × String} :
    suggestionOrder x y = true ↔ x.1 < y.1 ∨ x.1 = y.1 ∧ x.2 ≤ y.2 := by
  simp [suggestionOrder]

theorem suggestionOrder_trans {x y z : Nat × String} (hxy : suggestionOrder x y = true)
    (hyz : suggestionOrder y z = true) : suggestionOrder x z = true := by
  rw [suggestionOrder_iff] at *
  rcases hxy with hxy | ⟨hxy, hle⟩
  · omega
  · rcases hyz with hyz | ⟨hyz, hle'⟩
    · omega
    · exact .inr ⟨hxy.trans hyz, String.le_trans hle hle'⟩

theorem suggestionOrder_total (x y : Nat × String) :
    suggestionOrder x y = true ∨ suggestionOrder y x = true := by
  have := String.le_total x.2 y.2
  grind [suggestionOrder_iff]

/-- Entries are in order if the id of the second is not closer than the id of the first. -/
theorem suggestionOrder_eq (key a b : String) :
    suggestionOrder (editDistance key.toList a.toList, a) (editDistance key.toList b.toList, b) =
      decide (¬ Closer key b a) := by
  rw [Bool.eq_iff_iff, decide_eq_true_iff, closer_iff, suggestionOrder_iff]
  constructor
  · rintro (hlt | ⟨heq, hle⟩) (hlt' | ⟨heq', hlt'⟩)
    · omega
    · omega
    · omega
    · exact hle hlt'
  · intro h
    by_cases hlt : editDistance key.toList a.toList < editDistance key.toList b.toList
    · exact .inl hlt
    · have heq : editDistance key.toList a.toList = editDistance key.toList b.toList := by omega
      exact .inr ⟨heq, fun hba => h (.inr ⟨heq.symm, hba⟩)⟩

/-! ## The ranking -/

/-- All ids within reach, the closest first. -/
def ranking (key : String) (available : List String) : List String :=
  (available.filter (WithinReach key ·)).mergeSort fun a b => ¬ Closer key b a

theorem ranking_perm (key : String) (available : List String) :
    (ranking key available).Perm (available.filter (WithinReach key ·)) :=
  List.mergeSort_perm _ _

theorem pairwise_ranking (key : String) (available : List String) :
    (ranking key available).Pairwise fun a b => ¬ Closer key b a := by
  have hsorted : (ranking key available).Pairwise fun a b => decide (¬ Closer key b a) = true := by
    apply List.pairwise_mergeSort
    · intro a b c
      simp only [← suggestionOrder_eq]
      exact suggestionOrder_trans
    · intro a b
      simp only [← suggestionOrder_eq, Bool.or_eq_true]
      exact suggestionOrder_total _ _
  exact hsorted.imp of_decide_eq_true

/-- There is only one way to rank the ids. -/
theorem ranking_of_perm {available reordered : List String} (h : reordered.Perm available) :
    ranking key reordered = ranking key available := by
  have hperm : (ranking key reordered).Perm (ranking key available) :=
    ((ranking_perm key reordered).trans (h.filter _)).trans (ranking_perm key available).symm
  exact hperm.eq_of_pairwise (fun _ _ _ _ hba hab => eq_of_not_closer hab hba)
    (pairwise_ranking key reordered) (pairwise_ranking key available)

theorem nearIds_eq (key : String) (available : List String) :
    nearIds key available = (available.filter (WithinReach key ·)).map fun id =>
      (editDistance key.toList id.toList, id) := by
  simp only [nearIds, List.filter_map]
  congr 2
  funext id
  simp [withinReach_iff]

theorem suggestions_eq_take (key : String) (available : List String) :
    suggestions key available = (ranking key available).take 3 := by
  have hsort := List.map_mergeSort (l := available.filter (WithinReach key ·))
    (f := fun id => (editDistance key.toList id.toList, id)) (s := suggestionOrder)
    fun a _ b _ => (suggestionOrder_eq key a b).symm
  rw [suggestions, nearIds_eq, ← hsort, ← List.map_take, List.map_map]
  exact List.map_id _

/-- The ids within reach, counted as often as they are available, are the suggestions and those
left out. The suggestions are in order, there are three of them if any id is left out, and none
of those is closer than a suggestion. The order of the available ids does not matter. -/
theorem suggestions_closest (key : String) (available : List String) :
    ∃ omitted, (suggestions key available ++ omitted).Perm (available.filter (WithinReach key ·)) ∧
      (suggestions key available).length ≤ 3 ∧
      (omitted ≠ [] → (suggestions key available).length = 3) ∧
      (suggestions key available).Pairwise (fun a b => ¬ Closer key b a) ∧
      (∀ id ∈ suggestions key available, ∀ other ∈ omitted, ¬ Closer key other id) ∧
      ∀ reordered, reordered.Perm available →
        suggestions key reordered = suggestions key available := by
  have hpairwise := pairwise_ranking key available
  have hperm := ranking_perm key available
  rw [← List.take_append_drop 3 (ranking key available)] at hpairwise hperm
  obtain ⟨hgiven, -, homitted⟩ := List.pairwise_append.mp hpairwise
  simp only [suggestions_eq_take]
  refine ⟨(ranking key available).drop 3, hperm, List.length_take_le _ _, ?_, hgiven, homitted, ?_⟩
  · intro hne
    have hlength := List.length_pos_iff.mpr hne
    rw [List.length_drop] at hlength
    rw [List.length_take]
    omega
  · intro reordered h
    rw [ranking_of_perm h]

/-- Four ids are one edit away, and the last one of them is left out. -/
theorem suggestions_closest_cat :
    suggestions "cat" ["cut", "cat", "cart", "dog", "bat", "car"] = ["bat", "car", "cart"] ∧
      suggestions "cat" ["car", "bat", "dog", "cart", "cat", "cut"] = ["bat", "car", "cart"] ∧
      WithinReach "cat" "cut" ∧ ¬ Closer "cat" "cut" "cart" := by
  have hgiven : suggestions "cat" ["cut", "cat", "cart", "dog", "bat", "car"] =
      ["bat", "car", "cart"] := by cbv
  have hreach : WithinReach "cat" "cut" := by decide
  obtain ⟨omitted, hperm, -, -, -, homitted, hreordered⟩ :=
    suggestions_closest "cat" ["cut", "cat", "cart", "dog", "bat", "car"]
  rw [hgiven] at hperm homitted hreordered
  have hcut : "cut" ∈ omitted := by
    have hmem : "cut" ∈ ["bat", "car", "cart"] ++ omitted := hperm.mem_iff.mpr (by simp [hreach])
    simpa using hmem
  refine ⟨hgiven, hreordered _ ?_, hreach, homitted "cart" (by simp) "cut" hcut⟩
  exact List.reverse_perm ["cut", "cat", "cart", "dog", "bat", "car"]

end Phrasebook
