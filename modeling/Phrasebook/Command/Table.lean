import Phrasebook.Command.Width

/-!
# Tables in a frame

A header and rows of cells. A column is as wide as its widest cell, and the frame has no
lines inside but the one under the header.
-/

namespace Phrasebook.Command.Table

/-- Fill a cell up to the width of its column. -/
def pad (width : Nat) (cell : String) : String :=
  cell ++ String.ofList (List.replicate (width - displayWidth cell) ' ')

/-- The width of each column. -/
def columnWidths (header : List String) (rows : List (List String)) : List Nat :=
  rows.foldl (fun widths row => List.zipWith max widths (row.map displayWidth))
    (header.map displayWidth)

def line (widths : List Nat) (cells : List String) : String :=
  "│" ++ " ".intercalate (List.zipWith (fun w c => " " ++ pad w c ++ " ") widths cells) ++ "│"

/-- A line of the frame. -/
def rule (widths : List Nat) (left fill right : Char) : String :=
  let inner := widths.foldl (fun n w => n + w + 3) 0 - 1
  String.ofList (left :: List.replicate inner fill ++ [right])

def render (header : List String) (rows : List (List String)) : String :=
  let widths := columnWidths header rows
  "\n".intercalate (rule widths '┌' '─' '┐' :: line widths header ::
    rule widths '╞' '═' '╡' :: rows.map (line widths) ++ [rule widths '└' '─' '┘'])

end Phrasebook.Command.Table
