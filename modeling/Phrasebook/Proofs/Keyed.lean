import Phrasebook.Keyed

/-!
# Laws of lists with one element per key

Storing keeps the keys apart, and stores nothing but what it is given. When all keys are
different, storing a row of elements appends it.
-/

namespace Phrasebook.Keyed

variable {α : Type} [Keyed α]

theorem key_of_find? {k : String} {x : α} {xs : List α} (h : find? k xs = some x) : key x = k := by
  simpa using List.find?_some h

theorem isSome_find? {k : String} {xs : List α} :
    (find? k xs).isSome = true ↔ k ∈ xs.map key := by
  simp [find?]

theorem mem_put {x y : α} {xs : List α} (h : y ∈ put x xs) : y = x ∨ y ∈ xs := by
  induction xs with
  | nil => simpa [put] using h
  | cons z zs ih =>
    rw [put] at h
    split at h
    · grind
    · grind

theorem mem_putAll {y : α} {xs into : List α} (h : y ∈ putAll xs into) : y ∈ xs ∨ y ∈ into := by
  induction xs generalizing into with
  | nil => exact .inr h
  | cons x xs ih =>
    obtain h | h := ih h
    · exact .inl (.tail _ h)
    · obtain rfl | h := mem_put h
      · exact .inl (.head _)
      · exact .inr h

theorem put_of_new {x : α} {xs : List α} (h : key x ∉ xs.map key) : put x xs = xs ++ [x] := by
  induction xs with
  | nil => rfl
  | cons y ys ih =>
    obtain ⟨hy, hys⟩ : key x ≠ key y ∧ key x ∉ ys.map key := by simpa using h
    rw [put, if_neg hy.symm, ih hys, List.cons_append]

/-- Storing under a known key changes no key. -/
theorem keys_put_of_mem {x : α} {xs : List α} (h : key x ∈ xs.map key) :
    (put x xs).map key = xs.map key := by
  induction xs with
  | nil => simp at h
  | cons y ys ih =>
    rw [put]
    split
    · next hy => simp [hy]
    · next hy =>
      have : key x ∈ ys.map key := by simpa [Ne.symm hy] using h
      simp [ih this]

theorem length_put (x : α) (xs : List α) :
    (put x xs).length = if (find? (key x) xs).isSome then xs.length else xs.length + 1 := by
  by_cases h : key x ∈ xs.map key
  · have hkeys := congrArg List.length (keys_put_of_mem h)
    simpa [isSome_find?.mpr h] using hkeys
  · have hnew : ¬ (find? (key x) xs).isSome = true := mt isSome_find?.mp h
    rw [if_neg hnew, put_of_new h, List.length_append, List.length_singleton]

theorem nodup_keys_put {x : α} {xs : List α} (h : (xs.map key).Nodup) :
    ((put x xs).map key).Nodup := by
  by_cases hx : key x ∈ xs.map key
  · rwa [keys_put_of_mem hx]
  · rw [put_of_new hx, List.map_append, List.nodup_append]
    refine ⟨h, by simp, ?_⟩
    rintro k hk _ hk' rfl
    obtain rfl : k = key x := by simpa using hk'
    exact hx hk

theorem nodup_keys_putAll {xs into : List α} (h : (into.map key).Nodup) :
    ((putAll xs into).map key).Nodup := by
  induction xs generalizing into with
  | nil => exact h
  | cons x xs ih => exact ih (nodup_keys_put h)

theorem putAll_of_nodup {xs into : List α} (h : ((into ++ xs).map key).Nodup) :
    putAll xs into = into ++ xs := by
  induction xs generalizing into with
  | nil => simp
  | cons x xs ih =>
    have hx : key x ∉ into.map key := by
      intro hmem
      rw [List.map_append, List.nodup_append] at h
      exact h.2.2 _ hmem (key x) (by simp) rfl
    rw [putAll_cons, put_of_new hx, ih (by simpa using h), List.append_assoc]
    rfl

/-- Of several elements with one key the last one stays. -/
theorem find?_putAll (k : String) (xs into : List α) :
    find? k (putAll xs into) = (xs.filter (key · == k)).getLast?.or (find? k into) := by
  induction xs generalizing into with
  | nil => simp
  | cons x xs ih =>
    rw [putAll_cons, ih]
    by_cases hx : key x = k
    · subst hx
      simp [List.getLast?_cons]
    · simp [hx, find?_put_of_ne]

theorem isSome_find?_putAll {k : String} {xs into : List α} :
    (find? k (putAll xs into)).isSome = true ↔
      (find? k into).isSome = true ∨ k ∈ xs.map key := by
  have hlast : (xs.filter (key · == k)).getLast?.isSome = true ↔ k ∈ xs.map key := by
    simp
  rw [find?_putAll, Option.isSome_or, Bool.or_eq_true, hlast, or_comm]

theorem put_ne_nil (x : α) (xs : List α) : put x xs ≠ [] := by
  cases xs with
  | nil => simp [put]
  | cons y ys =>
    rw [put]
    split <;> simp

theorem putAll_eq_nil {xs into : List α} : putAll xs into = [] ↔ xs = [] ∧ into = [] := by
  induction xs generalizing into with
  | nil => simp
  | cons x xs ih => simp [ih, put_ne_nil]

end Phrasebook.Keyed
