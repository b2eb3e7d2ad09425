/-!
# Positions in a text

Lines and columns count from one, and columns count characters. A position is the place
reached after reading the text in front of it.
-/

namespace Phrasebook

structure Position where
  line : Nat
  column : Nat
deriving DecidableEq, Repr

namespace Position

def start : Position := ⟨1, 1⟩

/-- The place behind one more character. -/
def advance (p : Position) (c : Char) : Position :=
  if c = '\n' then ⟨p.line + 1, 1⟩ else ⟨p.line, p.column + 1⟩

/-- The place behind a text. -/
def after (consumed : List Char) : Position :=
  consumed.foldl advance start

/-- The place in `source` where its ending `rest` begins. -/
def ofRest (source rest : List Char) : Position :=
  after (source.take (source.length - rest.length))

@[simp] theorem after_nil : after [] = start := rfl

theorem after_append (u v : List Char) : after (u ++ v) = v.foldl advance (after u) := by
  simp [after, List.foldl_append]

@[simp] theorem ofRest_append (u v : List Char) : ofRest (u ++ v) v = after u := by
  simp [ofRest]

/-! ## Byte offsets -/

def byteSize : List Char → Nat
  | [] => 0
  | c :: cs => c.utf8Size + byteSize cs

@[simp] theorem byteSize_append (u v : List Char) :
    byteSize (u ++ v) = byteSize u + byteSize v := by
  induction u with
  | nil => simp [byteSize]
  | cons c cs ih => simp [byteSize, ih, Nat.add_assoc]

/-- Split behind the next line feed. -/
def splitLine : List Char → List Char × List Char
  | [] => ([], [])
  | c :: cs =>
    if c = '\n' then ([c], cs)
    else
      let (line, rest) := splitLine cs
      (c :: line, rest)

/-- Split behind a number of lines. -/
def splitLines : Nat → List Char → List Char × List Char
  | 0, cs => ([], cs)
  | n + 1, cs =>
    let (line, rest) := splitLine cs
    let (lines, rest) := splitLines n rest
    (line ++ lines, rest)

/-- The number of bytes in front of a position; the end of the text for a position that
lies behind it. -/
def byteOffset (p : Position) (text : List Char) : Nat :=
  let (lines, rest) := splitLines (p.line - 1) text
  byteSize lines + byteSize (rest.take (p.column - 1))

end Position

end Phrasebook
