/-!
# Suggestions for mistyped ids

Ids that differ from a key by few edits, the closest ones first.
-/

namespace Phrasebook

/-- One more row of the table of edit distances between the beginnings of two texts: the
distances of one beginning, lengthened by a character, to all beginnings of the other
text. -/
def editRow (c : Char) : List Char → Nat → List Nat → List Nat
  | d :: ds, left, diagonal :: above :: row =>
    let cost := if c = d then diagonal else diagonal + 1
    let here := min (min (left + 1) (above + 1)) cost
    here :: editRow c ds here (above :: row)
  | _, _, _ => []

/-- The least number of characters to insert, delete or replace to turn one text into the
other. -/
def editDistance (a b : List Char) : Nat :=
  let first := List.range (b.length + 1)
  let last := a.foldl (fun row c =>
    let left := row.headD 0 + 1
    left :: editRow c b left row) first
  last.getLastD 0

/-- A key of up to three bytes admits one edit, a longer one two. -/
def maxEdits (key : String) : Nat :=
  if key.utf8ByteSize ≤ 3 then 1 else 2

/-- The ids within reach of a key, with their distances. -/
def nearIds (key : String) (available : List String) : List (Nat × String) :=
  (available.map fun id => (editDistance key.toList id.toList, id)).filter fun (n, _) =>
    0 < n && n ≤ maxEdits key

/-- Distances first, then the alphabet. -/
def suggestionOrder (a b : Nat × String) : Bool :=
  a.1 < b.1 || (a.1 == b.1 && a.2 ≤ b.2)

/-- At most three ids that may have been meant. -/
def suggestions (key : String) (available : List String) : List String :=
  (((nearIds key available).mergeSort suggestionOrder).take 3).map (·.2)

end Phrasebook
