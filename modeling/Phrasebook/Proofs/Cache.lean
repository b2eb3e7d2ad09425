import Phrasebook.Locale.Formatters

/-!
# Caches change no answer

Whatever a cache was asked for before, it has room for a few keys only, has each of them once and
has the value that is built for it. One call either finds the key and leaves the cache as it is,
or adds the key behind the others, for which only a full cache gives up its oldest entry. So a
value from the cache is the value that would be built, and formatters that keep their rules and
formats answer like those that look them up each time.

## Main definitions

* `Cache.Sound`: the invariant of a cache.
* `Cache.after`: what is left of an empty cache after some calls.
* `Formatters.serve`: what formatters with caches answer, and what they keep.
-/

namespace Phrasebook

namespace Cache

variable {κ β : Type} {c : Cache κ β}

/-- Few entries of different keys, each with the value that is built for its key. -/
structure Sound (build : κ → β) (c : Cache κ β) : Prop where
  length_le : c.entries.length ≤ capacity
  nodup : (c.entries.map (·.1)).Nodup
  built : ∀ e ∈ c.entries, e.2 = build e.1

theorem sound_empty (build : κ → β) : Sound build {} :=
  ⟨Nat.zero_le _, List.nodup_nil, by simp⟩

/-! ## What one call does -/

theorem kept_suffix (c : Cache κ β) : c.kept <:+ c.entries := by
  unfold kept
  split
  · exact List.suffix_refl _
  · exact List.tail_suffix _

theorem length_kept_lt (h : c.entries.length ≤ capacity) : c.kept.length < capacity := by
  have hcapacity : 0 < capacity := by decide
  unfold kept
  split
  · assumption
  · rw [List.length_tail]
    omega

/-- Only the oldest entry is not kept, and only by a full cache. -/
theorem oldest_of_not_mem_kept {e : κ × β} (h : e ∈ c.entries) (hlost : e ∉ c.kept) :
    capacity ≤ c.entries.length ∧ c.entries.head? = some e := by
  unfold kept at hlost
  split at hlost
  · exact absurd h hlost
  · next hfull =>
    refine ⟨Nat.le_of_not_lt hfull, ?_⟩
    cases hentries : c.entries with
    | nil => simp [hentries] at h
    | cons first others =>
      rw [hentries] at h hlost
      exact congrArg some ((List.mem_cons.mp h).resolve_right hlost).symm

variable [DecidableEq κ] {build : κ → β}

/-- The key is there and all stays as it is, or it is not there and its entry is added. -/
theorem index_cases (build : κ → β) (key : κ) (c : Cache κ β) :
    (∃ i value, c.entries[i]? = some (key, value) ∧ c.index build key = (i, c)) ∨
      key ∉ c.entries.map (·.1) ∧
        c.index build key = (c.kept.length, ⟨c.kept ++ [(key, build key)]⟩) := by
  unfold index
  split
  · next i hfind =>
    obtain ⟨hi, hkey, -⟩ := List.findIdx?_eq_some_iff_getElem.mp hfind
    refine .inl ⟨i, c.entries[i].2, ?_, rfl⟩
    rw [List.getElem?_eq_getElem hi, ← eq_of_beq hkey]
  · next hfind =>
    refine .inr ⟨?_, rfl⟩
    rw [List.findIdx?_eq_none_iff] at hfind
    intro hmem
    obtain ⟨e, he, rfl⟩ := List.mem_map.mp hmem
    simpa using hfind e he

/-- The index counts in the new cache and leads to the key. -/
theorem Sound.getElem?_index (h : c.Sound build) (key : κ) :
    (c.index build key).2.entries[(c.index build key).1]? = some (key, build key) := by
  obtain ⟨i, value, hentry, hindex⟩ | ⟨-, hindex⟩ := index_cases build key c
  · have hvalue : value = build key := h.built _ (List.mem_of_getElem? hentry)
    rw [hindex, hentry, hvalue]
  · rw [hindex]
    exact List.getElem?_concat_length

theorem Sound.index (h : c.Sound build) (key : κ) : (c.index build key).2.Sound build := by
  obtain ⟨i, value, -, hindex⟩ | ⟨hnew, hindex⟩ := index_cases build key c
  · rwa [hindex]
  · rw [hindex]
    have hkeys : (c.kept.map (·.1)).Sublist (c.entries.map (·.1)) := c.kept_suffix.sublist.map _
    refine ⟨?_, ?_, ?_⟩
    · rw [List.length_append]
      exact length_kept_lt h.length_le
    · rw [List.map_append]
      refine List.nodup_append.mpr ⟨h.nodup.sublist hkeys, by simp, ?_⟩
      intro k hk k' hk' heq
      obtain rfl : k' = key := List.mem_singleton.mp hk'
      exact hnew (hkeys.subset (heq ▸ hk))
    · intro e he
      rcases List.mem_append.mp he with hkept | hadded
      · exact h.built e (c.kept_suffix.subset hkept)
      · obtain rfl := List.mem_singleton.mp hadded
        rfl

theorem Sound.fetch (h : c.Sound build) (key : κ) :
    c.fetch build key = (build key, (c.index build key).2) := by
  simp only [Cache.fetch, h.getElem?_index key]

theorem oldest_of_lost {e : κ × β} {key : κ} (h : e ∈ c.entries)
    (hlost : e ∉ (c.index build key).2.entries) :
    capacity ≤ c.entries.length ∧ c.entries.head? = some e := by
  obtain ⟨i, value, -, hindex⟩ | ⟨-, hindex⟩ := index_cases build key c
  · rw [hindex] at hlost
    exact absurd h hlost
  · rw [hindex] at hlost
    exact oldest_of_not_mem_kept h fun hkept => hlost (List.mem_append_left _ hkept)

/-! ## After any calls -/

/-- What is left of an empty cache after these keys have been asked for. -/
def after (build : κ → β) (keys : List κ) : Cache κ β :=
  keys.foldl (fun c key => (c.index build key).2) {}

theorem after_concat (build : κ → β) (keys : List κ) (key : κ) :
    after build (keys ++ [key]) = ((after build keys).index build key).2 := by
  simp [after]

theorem sound_after (build : κ → β) (keys : List κ) : (after build keys).Sound build := by
  suffices h : ∀ c : Cache κ β, c.Sound build →
      (keys.foldl (fun c key => (c.index build key).2) c).Sound build from h {} (sound_empty build)
  induction keys with
  | nil => exact fun c hc => hc
  | cons key keys ih => exact fun c hc => ih _ (hc.index key)

/-- After any calls the cache keeps within its capacity, has no key twice and has nothing but the
values that are built; the index that a call gives leads to the key that was asked for. So the
value is always the one that would be built, although the cache does forget: a full one its oldest
entry, and no cache any other. -/
theorem index_after {keys : List κ} {key : κ} {i : Nat}
    (h : (after build keys).index build key = (i, c)) :
    c = after build (keys ++ [key]) ∧
      c.entries.length ≤ capacity ∧ (c.entries.map (·.1)).Nodup ∧
      (∀ e ∈ c.entries, e.2 = build e.1) ∧
      c.entries[i]? = some (key, build key) ∧
      ((after build keys).fetch build key).1 = build key ∧
      ∀ e ∈ (after build keys).entries, e ∉ c.entries →
        capacity ≤ (after build keys).entries.length ∧
          (after build keys).entries.head? = some e := by
  have hbefore := sound_after build keys
  have hafter := hbefore.index key
  have hentry := hbefore.getElem?_index key
  rw [h] at hafter hentry
  refine ⟨?_, hafter.length_le, hafter.nodup, hafter.built, hentry, ?_, fun e he hlost => ?_⟩
  · rw [after_concat, h]
  · rw [hbefore.fetch]
  · exact oldest_of_lost he (by rwa [h])

/-- The first of seventeen keys is forgotten, and asked for again it has the same value. -/
theorem index_after_seventeen :
    ((after (· * 10) (List.range 16)).index (· * 10) 16).1 = 15 ∧
      (after (· * 10) (List.range 16)).entries.head? = some (0, 0) ∧
      (0, 0) ∉ (after (· * 10) (List.range 16 ++ [16])).entries ∧
      ((after (· * 10) (List.range 16 ++ [16])).fetch (· * 10) 0).1 = 0 := by
  have hmem : (0, 0) ∈ (after (· * 10) (List.range 16)).entries := by decide
  have hlost : (0, 0) ∉ (after (· * 10) (List.range 16 ++ [16])).entries := by decide
  have h := (Prod.eta ((after (· * 10) (List.range 16)).index (· * 10) 16)).symm
  obtain ⟨hafter, -, -, -, -, -, holdest⟩ := index_after h
  have h' := (Prod.eta ((after (· * 10) (List.range 16 ++ [16])).index (· * 10) 0)).symm
  obtain ⟨-, -, -, -, -, hfetch, -⟩ := index_after h'
  rw [hafter] at holdest
  exact ⟨by decide, (holdest (0, 0) hmem hlost).2, hlost, hfetch⟩

end Cache

/-! ## Formatters -/

/-- A number is to be sorted, or to be written. -/
inductive Locale.Request where
  | category (d : Decimal)
  | text (d : Decimal)

/-- A locale of which nothing is known. -/
def Locale.unknown : Locale := ⟨fun _ => .other, fun _ => none⟩

/-- Two locales have the same answer to a request. -/
def Locale.Request.Agree (l l' : Locale) : Locale.Request → Prop
  | .category d => l.pluralCategory d = l'.pluralCategory d
  | .text d => l.formatNumber? d = l'.formatNumber? d

namespace Formatters

variable [LocaleData]

open LocaleData (Tag rules? format?)

/-- A locale of which the answer to a request is known and no more, and the formatters as they are
afterwards. -/
def serve (f : Formatters) (t : Tag) : Locale.Request → Locale × Formatters
  | .category d =>
    let (category, f) := f.pluralCategory t d
    ({ Locale.unknown with pluralCategory := fun _ => category }, f)
  | .text d =>
    let (text, f) := f.formatNumber? t d
    ({ Locale.unknown with formatNumber? := fun _ => text }, f)

structure Sound (f : Formatters) : Prop where
  plurals : f.plurals.Sound rules?
  numbers : f.numbers.Sound format?

theorem sound_new : Sound {} := ⟨Cache.sound_empty _, Cache.sound_empty _⟩

variable {f : Formatters}

theorem Sound.pluralCategory (h : f.Sound) (t : Tag) (d : Decimal) :
    (f.pluralCategory t d).1 = (Locale.ofData t).pluralCategory d ∧
      (f.pluralCategory t d).2.Sound := by
  simp only [Formatters.pluralCategory, h.plurals.fetch]
  exact ⟨rfl, h.plurals.index t, h.numbers⟩

theorem Sound.formatNumber? (h : f.Sound) (t : Tag) (d : Decimal) :
    (f.formatNumber? t d).1 = (Locale.ofData t).formatNumber? d ∧
      (f.formatNumber? t d).2.Sound := by
  simp only [Formatters.formatNumber?, h.numbers.fetch]
  exact ⟨rfl, h.plurals, h.numbers.index t⟩

/-- Formatters that keep what they looked up before answer as if they had kept nothing. -/
theorem Sound.serve (h : f.Sound) (t : Tag) (r : Locale.Request) :
    r.Agree (f.serve t r).1 (.ofData t) ∧ (f.serve t r).2.Sound := by
  cases r with
  | category d => exact h.pluralCategory t d
  | text d => exact h.formatNumber? t d

end Formatters

end Phrasebook
