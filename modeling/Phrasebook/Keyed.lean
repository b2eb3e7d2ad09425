/-!
# Lists with one element per key

The attributes of a message, the messages of a bundle and the bundles of a catalogue
are all kept the same way: in the order in which their keys first appeared, with the
latest element for each key. `put` is the only way such a list grows.
-/

namespace Phrasebook

/-- Elements that carry the name under which they are looked up. -/
class Keyed (α : Type) where
  key : α → String

namespace Keyed

variable {α : Type} [Keyed α]

/-- The element stored under a key. -/
def find? (k : String) (xs : List α) : Option α :=
  xs.find? fun x => key x == k

/-- Store an element: in the place of the one with its key, else at the end. -/
def put (x : α) : List α → List α
  | [] => [x]
  | y :: ys => if key y = key x then x :: ys else y :: put x ys

/-- Store elements from left to right. -/
def putAll (xs : List α) (into : List α) : List α :=
  xs.foldl (fun acc x => put x acc) into

@[simp] theorem find?_nil (k : String) : find? k ([] : List α) = none := rfl

@[simp] theorem putAll_nil (into : List α) : putAll [] into = into := rfl

@[simp] theorem putAll_cons (x : α) (xs into : List α) :
    putAll (x :: xs) into = putAll xs (put x into) := rfl

theorem putAll_append (xs ys into : List α) :
    putAll (xs ++ ys) into = putAll ys (putAll xs into) := by
  simp [putAll, List.foldl_append]

@[simp] theorem find?_put_self (x : α) (xs : List α) : find? (key x) (put x xs) = some x := by
  induction xs with
  | nil => simp [put, find?]
  | cons y ys ih =>
    by_cases h : key y = key x
    · simp [put, find?, h]
    · simpa [put, find?, h] using ih

theorem find?_put_of_ne (x : α) (xs : List α) {k : String} (hk : key x ≠ k) :
    find? k (put x xs) = find? k xs := by
  induction xs with
  | nil => simp [put, find?, hk]
  | cons y ys ih =>
    by_cases h : key y = key x
    · simp [put, find?, h, hk]
    · by_cases hy : key y = k
      · subst hy
        simp [put, find?, h]
      · simpa [put, find?, h, hy] using ih

end Keyed

end Phrasebook
