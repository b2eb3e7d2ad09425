/-!
# Bounded caches

A cache keeps a few values by key, the oldest first. When it is full, the oldest value
makes room for a new one.
-/

namespace Phrasebook

structure Cache (κ β : Type) where
  entries : List (κ × β) := []

namespace Cache

variable {κ β : Type} [DecidableEq κ]

/-- No cache keeps more values. -/
def capacity : Nat := 16

/-- The entries that stay when a new one is added. -/
def kept (c : Cache κ β) : List (κ × β) :=
  if c.entries.length < capacity then c.entries else c.entries.tail

/-- The index of the value for a key, which is built if the cache does not have it, and the
cache in which the index counts. -/
def index (build : κ → β) (key : κ) (c : Cache κ β) : Nat × Cache κ β :=
  match c.entries.findIdx? fun e => e.1 == key with
  | some i => (i, c)
  | none => (c.kept.length, ⟨c.kept ++ [(key, build key)]⟩)

/-- The value for a key, and the cache that has it. -/
def fetch (build : κ → β) (key : κ) (c : Cache κ β) : β × Cache κ β :=
  let (i, c) := c.index build key
  match c.entries[i]? with
  | some (_, value) => (value, c)
  | none => (build key, c)

end Cache

end Phrasebook
