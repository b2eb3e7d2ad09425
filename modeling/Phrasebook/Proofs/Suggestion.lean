import Phrasebook.Proofs.EditDistance
import Phrasebook.Proofs.Position

/-!
# How far suggestions are from the key

Suggestions are one or two edits away from the key. Whether two edits are admitted depends on
the bytes of the key, while edits count characters: a key of three characters admits two edits
if one of them takes more than one byte.
-/

namespace Phrasebook

/-! ## Ids within reach -/

theorem mem_nearIds {key : String} {available : List String} {entry : Nat × String} :
    entry ∈ nearIds key available ↔ entry.2 ∈ available ∧
      entry.1 = editDistance key.toList entry.2.toList ∧ 0 < entry.1 ∧ entry.1 ≤ maxEdits key := by
  obtain ⟨n, id⟩ := entry
  simp only [nearIds, List.mem_filter, List.mem_map, Prod.mk.injEq, Bool.and_eq_true,
    decide_eq_true_eq]
  constructor
  · rintro ⟨⟨id', hid, rfl, rfl⟩, hpos, hle⟩
    exact ⟨hid, rfl, hpos, hle⟩
  · rintro ⟨hid, rfl, hpos, hle⟩
    exact ⟨⟨id, hid, rfl, rfl⟩, hpos, hle⟩

theorem exists_levenshtein_of_mem_suggestions {key id : String} {available : List String}
    (h : id ∈ suggestions key available) :
    ∃ n, Levenshtein n key.toList id.toList ∧ 0 < n ∧ n ≤ maxEdits key := by
  obtain ⟨entry, hentry, rfl⟩ := List.mem_map.mp h
  have hnear := List.mem_mergeSort.mp (List.mem_of_mem_take hentry)
  obtain ⟨-, hn, hpos, hle⟩ := mem_nearIds.mp hnear
  refine ⟨entry.1, ?_, hpos, hle⟩
  rw [hn]
  exact levenshtein_editDistance _ _

/-- An id within reach is suggested where there is no other one. -/
theorem mem_suggestions_singleton {key id : String} {n : Nat}
    (h : Levenshtein n key.toList id.toList) (hpos : 0 < n) (hle : n ≤ maxEdits key) :
    id ∈ suggestions key [id] := by
  have hn : editDistance key.toList id.toList = n := (levenshtein_editDistance _ _).unique h
  simp [suggestions, nearIds, hn, hpos, hle]

/-! ## The number of edits -/

/-- Two characters behind a text take two edits. -/
theorem levenshtein_append_two (a : List Char) (c d : Char) : Levenshtein 2 a (a ++ [c, d]) := by
  refine ⟨?_, fun n hn => ?_⟩
  · have hfirst : Edit a (a ++ [c]) := by simpa using Edit.insert a [] c
    have hsecond : Edit (a ++ [c]) (a ++ [c, d]) := by simpa using Edit.insert (a ++ [c]) [] d
    exact Edits.step hfirst (.step hsecond (.none _))
  · have hlength := Edits.length_le hn
    simp only [List.length_append, List.length_cons, List.length_nil] at hlength
    omega

/-- All suggestions are one or two edits away. Whatever the ids are, they are one edit away
exactly if the key takes at most three bytes, as every key of three ASCII characters does. -/
theorem suggestions_levenshtein (key : String) :
    (∀ available, ∀ id ∈ suggestions key available,
      Levenshtein 1 key.toList id.toList ∨ Levenshtein 2 key.toList id.toList) ∧
    ((∀ available, ∀ id ∈ suggestions key available, Levenshtein 1 key.toList id.toList) ↔
      key.utf8ByteSize ≤ 3) ∧
    ((∀ c ∈ key.toList, c.toNat < 128) → key.length ≤ 3 → ∀ available,
      ∀ id ∈ suggestions key available, Levenshtein 1 key.toList id.toList) := by
  have hshort : key.utf8ByteSize ≤ 3 → ∀ available, ∀ id ∈ suggestions key available,
      Levenshtein 1 key.toList id.toList := by
    intro hkey available id hid
    obtain ⟨n, hn, hpos, hle⟩ := exists_levenshtein_of_mem_suggestions hid
    rw [maxEdits, if_pos hkey] at hle
    obtain rfl : n = 1 := by omega
    exact hn
  refine ⟨fun available id hid => ?_, ⟨fun h => ?_, hshort⟩, fun hascii hlength => ?_⟩
  · obtain ⟨n, hn, hpos, hle⟩ := exists_levenshtein_of_mem_suggestions hid
    have htwo : maxEdits key ≤ 2 := by
      unfold maxEdits
      split <;> omega
    obtain rfl | rfl : n = 1 ∨ n = 2 := by omega
    · exact .inl hn
    · exact .inr hn
  · -- A longer key admits the id that has two more characters behind it.
    by_contra hkey
    have hfar := levenshtein_append_two key.toList 'a' 'a'
    rw [← String.toList_ofList (l := key.toList ++ ['a', 'a'])] at hfar
    have hmem := mem_suggestions_singleton hfar (by omega) (by rw [maxEdits, if_neg hkey])
    have := (h _ _ hmem).unique hfar
    omega
  · exact hshort (by rwa [Position.utf8ByteSize_of_ascii hascii])

/-- A word of three letters. -/
theorem suggestions_levenshtein_cot :
    suggestions "cot" ["cat", "car", "dog"] = ["cat"] ∧ "cot".length ≤ 3 ∧
      Levenshtein 1 "cot".toList "cat".toList := by
  have hlist : suggestions "cot" ["cat", "car", "dog"] = ["cat"] := by cbv
  refine ⟨hlist, by decide, ?_⟩
  have hascii : ∀ c ∈ "cot".toList, c.toNat < 128 := by simp
  exact (suggestions_levenshtein "cot").2.2 hascii (by decide) ["cat", "car", "dog"] "cat"
    (by simp [hlist])

/-- Two characters of two bytes each admit two edits. -/
theorem suggestions_levenshtein_umlauts :
    "ää".length = 2 ∧ suggestions "ää" ["ab"] = ["ab"] ∧
      ¬ Levenshtein 1 "ää".toList "ab".toList := by
  refine ⟨by decide, by cbv, fun h => ?_⟩
  have htwo : editDistance "ää".toList "ab".toList = 2 := by decide
  have := h.unique (levenshtein_editDistance _ _)
  omega

end Phrasebook
