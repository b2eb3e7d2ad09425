import Mathlib.Data.List.Induction
import Mathlib.Data.List.Nodup
import Phrasebook.Proofs.Keyed
import Phrasebook.Resource

/-!
# One attribute per id

A message or a term may be given several attributes with one id. It keeps the value that was
given last, at the place where the id was given first. The place is followed while one element
after the other is stored: a known key stays where it is, and a new key comes behind all others,
in the list that grows as well as among the elements given so far.

## Main definitions

* `Keyed.InOrder`: keys stand in the order in which they first occur.
* `Keyed.Merges`: a list has one element per key of those that were given.
* `Attribute.LastOf`: a lookup finds what was given last.
-/

namespace Phrasebook

namespace Keyed

variable {α : Type} [Keyed α] {given merged xs : List α} {x : α} {k : String}

/-! ## The order of the keys -/

/-- The keys stand in the order in which they first occur among the elements that are given. -/
def InOrder (given merged : List α) : Prop :=
  (merged.map key).Pairwise fun j k => (given.map key).idxOf j < (given.map key).idxOf k

theorem InOrder.pairwise (h : InOrder given merged) :
    merged.Pairwise fun x y =>
      (given.map key).idxOf (key x) < (given.map key).idxOf (key y) := by
  rwa [InOrder, List.pairwise_map] at h

/-- What is given later does not move the keys that have occurred. -/
theorem InOrder.append (h : InOrder given merged)
    (hkeys : ∀ k ∈ merged.map key, k ∈ given.map key) (later : List α) :
    InOrder (given ++ later) merged := by
  refine List.Pairwise.imp_of_mem (fun {j k} hj hk hlt => ?_) h
  rwa [List.map_append, List.idxOf_append_of_mem (hkeys j hj),
    List.idxOf_append_of_mem (hkeys k hk)]

theorem InOrder.put (h : InOrder given merged)
    (hkeys : ∀ k, k ∈ merged.map key ↔ k ∈ given.map key) (x : α) :
    InOrder (given ++ [x]) (put x merged) := by
  have hold : InOrder (given ++ [x]) merged := h.append (fun k => (hkeys k).mp) [x]
  by_cases hx : key x ∈ merged.map key
  · rwa [InOrder, keys_put_of_mem hx]
  · have hnew : key x ∉ given.map key := mt (hkeys _).mpr hx
    have hmap : (merged ++ [x]).map key = merged.map key ++ [key x] := List.map_append
    rw [InOrder, put_of_new hx, hmap, List.pairwise_append]
    refine ⟨hold, List.pairwise_singleton _ _, fun j hj k hk => ?_⟩
    obtain rfl : k = key x := List.mem_singleton.mp hk
    have hj' : j ∈ given.map key := (hkeys j).mp hj
    have hlt : (given.map key).idxOf j < (given.map key).length := List.idxOf_lt_length_of_mem hj'
    rw [List.map_append, List.idxOf_append_of_mem hj', List.idxOf_append_of_notMem hnew]
    omega

theorem mem_keys_putAll (xs : List α) (k : String) :
    k ∈ (putAll xs []).map key ↔ k ∈ xs.map key := by
  rw [← isSome_find?, isSome_find?_putAll]
  simp

theorem inOrder_putAll (xs : List α) : InOrder xs (putAll xs []) := by
  -- From the end: a step is about the elements that have been stored before.
  induction xs using List.reverseRecOn with
  | nil => exact List.Pairwise.nil
  | append_singleton xs x ih =>
    rw [putAll_append]
    exact ih.put (mem_keys_putAll xs) x

/-! ## The element of a key -/

theorem find?_putAll_eq_some :
    find? k (putAll xs []) = some x ↔
      key x = k ∧ ∃ before behind, xs = before ++ x :: behind ∧ k ∉ behind.map key := by
  rw [find?_putAll, find?_nil, Option.or_none, List.getLast?_filter,
    List.find?_eq_some_iff_append, beq_iff_eq]
  refine and_congr_right fun _ => ⟨?_, ?_⟩
  · rintro ⟨behind, before, hsplit, hbehind⟩
    refine ⟨before.reverse, behind.reverse, ?_, by simpa using hbehind⟩
    simpa using congrArg List.reverse hsplit
  · rintro ⟨before, behind, rfl, hbehind⟩
    exact ⟨behind.reverse, before.reverse, by simp, by simpa using hbehind⟩

theorem mem_iff_find? (h : (xs.map key).Nodup) : x ∈ xs ↔ find? (key x) xs = some x := by
  refine ⟨fun hx => ?_, List.mem_of_find?_eq_some⟩
  obtain ⟨y, hy⟩ := Option.isSome_iff_exists.mp (isSome_find?.mpr (List.mem_map_of_mem hx))
  have hyx : y = x :=
    List.inj_on_of_nodup_map h (List.mem_of_find?_eq_some hy) hx (key_of_find? hy)
  rw [hy, hyx]

/-! ## Merging -/

/-- Each key that is given is there once, in the order in which the keys first occur. Of the
elements those are there behind which no other has their key. -/
structure Merges (given merged : List α) : Prop where
  nodup : (merged.map key).Nodup
  mem_keys : ∀ k, k ∈ merged.map key ↔ k ∈ given.map key
  inOrder : InOrder given merged
  mem_iff : ∀ x, x ∈ merged ↔
    ∃ before behind, given = before ++ x :: behind ∧ key x ∉ behind.map key

theorem merges_putAll (xs : List α) : Merges xs (putAll xs []) := by
  have hnodup : ((putAll xs []).map key).Nodup := nodup_keys_putAll List.nodup_nil
  refine ⟨hnodup, mem_keys_putAll xs, inOrder_putAll xs, fun x => ?_⟩
  rw [mem_iff_find? hnodup, find?_putAll_eq_some, and_iff_right rfl]

/-- Nothing is left open: the elements are known, and so is their order. -/
theorem Merges.unique {merged' : List α} (h : Merges given merged) (h' : Merges given merged') :
    merged = merged' := by
  have hmem : ∀ x, x ∈ merged ↔ x ∈ merged' := fun x => (h.mem_iff x).trans (h'.mem_iff x).symm
  have hperm : merged.Perm merged' :=
    (List.perm_ext_iff_of_nodup (List.Nodup.of_map key h.nodup)
      (List.Nodup.of_map key h'.nodup)).mpr hmem
  exact hperm.eq_of_pairwise (fun x y _ _ hxy hyx => absurd hyx (Nat.lt_asymm hxy))
    h.inOrder.pairwise h'.inOrder.pairwise

theorem merges_iff : Merges given merged ↔ merged = putAll given [] :=
  ⟨fun h => h.unique (merges_putAll given), fun h => h ▸ merges_putAll given⟩

end Keyed

namespace Attribute

/-- A name leads to the value of the last attribute with it, if there is one. -/
structure LastOf (attributes : List Attribute) (lookup : String → Option Pattern) : Prop where
  eq_some_iff : ∀ name value, lookup name = some value ↔
    ∃ before behind, attributes = before ++ ⟨name, value⟩ :: behind ∧
      name ∉ behind.map Attribute.id
  eq_none_iff : ∀ name, lookup name = none ↔ name ∉ attributes.map Attribute.id

theorem lastOf_merge (attributes : List Attribute) :
    LastOf attributes fun name =>
      (Keyed.find? name (merge attributes)).map Attribute.value where
  eq_some_iff name value := by
    rw [Option.map_eq_some_iff]
    constructor
    · rintro ⟨⟨id, _⟩, hfind, rfl⟩
      obtain ⟨rfl, hlast⟩ := Keyed.find?_putAll_eq_some.mp hfind
      exact hlast
    · exact fun hlast => ⟨⟨name, value⟩, Keyed.find?_putAll_eq_some.mpr ⟨rfl, hlast⟩, rfl⟩
  eq_none_iff name := by
    have hmem : name ∈ (merge attributes).map Attribute.id ↔ name ∈ attributes.map Attribute.id :=
      Keyed.mem_keys_putAll attributes name
    rw [← hmem, Option.map_eq_none_iff, ← Option.not_isSome_iff_eq_none]
    exact not_congr Keyed.isSome_find?

theorem merge_merge (attributes : List Attribute) :
    merge (merge attributes) = merge attributes :=
  Keyed.putAll_of_nodup (Keyed.nodup_keys_putAll List.nodup_nil)

/-- The attributes of a message or a term are the ones that were given, merged: one per id, at the
place where the id was given first and with the value that was given last. A name leads to that
value, and to none if it was not given. Making the message or term again from its attributes
gives the same one. -/
theorem make_merges (attributes : List Attribute) :
    (∀ (id : String) (value : Option Pattern) (comment : Option Comment),
      (∀ merged, Keyed.Merges attributes merged ↔
        merged = (Message.make id value attributes comment).attributes) ∧
      LastOf attributes (fun name =>
        (Message.make id value attributes comment).pattern? (some name)) ∧
      Message.make id value (Message.make id value attributes comment).attributes comment =
        Message.make id value attributes comment) ∧
    ∀ (id : String) (value : Pattern) (comment : Option Comment),
      (∀ merged, Keyed.Merges attributes merged ↔
        merged = (Term.make id value attributes comment).attributes) ∧
      LastOf attributes (fun name =>
        (Term.make id value attributes comment).pattern? (some name)) ∧
      Term.make id value (Term.make id value attributes comment).attributes comment =
        Term.make id value attributes comment := by
  refine ⟨fun id value comment => ⟨fun _ => Keyed.merges_iff, lastOf_merge attributes, ?_⟩,
    fun id value comment => ⟨fun _ => Keyed.merges_iff, lastOf_merge attributes, ?_⟩⟩
  · exact congrArg (Message.mk id value · comment) (merge_merge attributes)
  · exact congrArg (Term.mk id value · comment) (merge_merge attributes)

example (first other second : Pattern) :
    (Message.make "login" none
      [⟨"title", first⟩, ⟨"hint", other⟩, ⟨"title", second⟩] none).attributes =
      [⟨"title", second⟩, ⟨"hint", other⟩] := rfl

end Attribute

end Phrasebook
