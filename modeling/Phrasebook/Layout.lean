import Phrasebook.Resource

/-!
# Layout of patterns

In a source text a pattern may run over several lines. Its layout is not part of its
meaning: the common margin of the continuation lines, blank lines at the start and blanks
at the end are dropped, and line ends become line feeds. The rules are stated on the row
of single characters and placeables that a pattern spells out, where neighbouring texts
need no merging and empty texts do not exist.
-/

namespace Phrasebook

/-- A character of text or a placeable. -/
inductive Piece where
  | char (c : Char)
  | placeable (expression : Expression)

namespace Piece

def isChar (c : Char) : Piece → Bool
  | .char d => d == c
  | .placeable _ => false

def isSpace : Piece → Bool := isChar ' '

def isLineFeed : Piece → Bool := isChar '\n'

/-- Blanks and line ends, which do not count at the end of a pattern. -/
def isTrailing (p : Piece) : Bool :=
  p.isSpace || p.isChar '\r' || p.isLineFeed

end Piece

namespace Pattern

/-! ## Pieces -/

/-- Spell a pattern out. -/
def pieces (p : Pattern) : List Piece :=
  p.flatMap fun
    | .text t => t.toList.map .char
    | .placeable e => [.placeable e]

/-- Put a piece in front of runs of characters and single placeables. -/
def addPiece : Piece → List (List Char ⊕ Expression) → List (List Char ⊕ Expression)
  | .char c, .inl cs :: rest => .inl (c :: cs) :: rest
  | .char c, rest => .inl [c] :: rest
  | .placeable e, rest => .inr e :: rest

/-- The pattern that spells out as the given pieces, each run of characters as one text. -/
def ofPieces (ps : List Piece) : Pattern :=
  (ps.foldr addPiece []).map fun
    | .inl cs => .text (String.ofList cs)
    | .inr e => .placeable e

/-- Write every line end as a line feed. -/
def unifyLineEnds : List Piece → List Piece
  | .char '\r' :: .char '\n' :: ps => .char '\n' :: unifyLineEnds ps
  | p :: ps => p :: unifyLineEnds ps
  | [] => []

/-- Merge neighbouring texts and unify line ends; blanks stay. -/
def merge (p : Pattern) : Pattern :=
  ofPieces (unifyLineEnds p.pieces)

/-! ## Lines -/

/-- The first line and the continuation lines. -/
def lines (ps : List Piece) : List Piece × List (List Piece) :=
  ps.foldr
    (fun p (first, rest) => if p.isLineFeed then ([], first :: rest) else (p :: first, rest))
    ([], [])

def unlines (first : List Piece) (rest : List (List Piece)) : List Piece :=
  first ++ rest.flatMap fun line => .char '\n' :: line

def isBlankLine (line : List Piece) : Bool :=
  line.all Piece.isSpace

def indent (line : List Piece) : Nat :=
  (line.takeWhile Piece.isSpace).length

/-- The least indentation of the lines that hold anything but spaces. -/
def margin (lines : List (List Piece)) : Nat :=
  ((lines.filter fun line => !isBlankLine line).map indent).min?.getD 0

/-- Take the margin from a line; nothing is left of a blank line. -/
def dedentLine (margin : Nat) (line : List Piece) : List Piece :=
  if isBlankLine line then [] else line.drop margin

/-- Drop blank lines in front of another line. -/
def dropBlankLines : List Piece → List (List Piece) → List Piece × List (List Piece)
  | first, [] => (first, [])
  | first, next :: rest =>
    if isBlankLine first then dropBlankLines next rest else (first, next :: rest)

def dropTrailing (ps : List Piece) : List Piece :=
  (ps.reverse.dropWhile Piece.isTrailing).reverse

/-- The layout rules on a row of pieces. The first line stands behind an equals sign or a
bracket, so its indentation does not count. -/
def layoutPieces (ps : List Piece) : List Piece :=
  let (first, rest) := lines (unifyLineEnds ps)
  let (first, rest) := dropBlankLines first (rest.map (dedentLine (margin rest)))
  dropTrailing (unlines first rest)

/-- The pattern that a source text means. -/
def layout (p : Pattern) : Pattern :=
  ofPieces (layoutPieces p.pieces)

end Pattern

end Phrasebook
