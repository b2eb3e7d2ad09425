/-!
# Data trees and their written form

Trees of the values of a data interchange format, and the indented form in which they are
written: two blanks for each level, one member of a list or record on a line.
-/

namespace Phrasebook

/-- A value of the interchange format; the fields of a record are kept in order. -/
inductive Tree where
  | null
  | bool (value : Bool)
  | number (value : Nat)
  | text (value : String)
  | list (items : List Tree)
  | record (fields : List (String × Tree))

namespace Tree

def ofOption {α : Type} (f : α → Tree) : Option α → Tree
  | some a => f a
  | none => .null

/-! ## Quoted text -/

def hexDigit (n : Nat) : Char :=
  if n < 10 then Char.ofNat ('0'.toNat + n) else Char.ofNat ('a'.toNat + (n - 10))

/-- Control characters, quotes and backslashes are escaped; all else stands for itself. -/
def quoteChar (c : Char) : List Char :=
  if c = '"' then ['\\', '"']
  else if c = '\\' then ['\\', '\\']
  else if c = '\n' then ['\\', 'n']
  else if c = '\r' then ['\\', 'r']
  else if c = '\t' then ['\\', 't']
  else if c = '\x08' then ['\\', 'b']
  else if c = '\x0c' then ['\\', 'f']
  else if c.toNat < 32 then ['\\', 'u', '0', '0', hexDigit (c.toNat / 16), hexDigit (c.toNat % 16)]
  else [c]

def quote (text : String) : String :=
  "\"" ++ String.ofList (text.toList.flatMap quoteChar) ++ "\""

/-! ## Indented form -/

def indentation (depth : Nat) : String :=
  String.ofList (List.replicate (2 * depth) ' ')

/-- Members between brackets, each on a line of its own. -/
def block (depth : Nat) (opening closing : String) (members : List String) : String :=
  if members.isEmpty then opening ++ closing
  else
    let lines := members.map fun m => indentation (depth + 1) ++ m
    opening ++ "\n" ++ ",\n".intercalate lines ++ "\n" ++ indentation depth ++ closing

mutual

/-- The indented form of a tree that stands at a depth. -/
def render (depth : Nat) : Tree → String
  | .null => "null"
  | .bool b => if b then "true" else "false"
  | .number n => toString n
  | .text t => quote t
  | .list items => block depth "[" "]" (renderItems (depth + 1) items)
  | .record fields => block depth "\x7b" "\x7d" (renderFields (depth + 1) fields)

def renderItems (depth : Nat) : List Tree → List String
  | [] => []
  | t :: ts => render depth t :: renderItems depth ts

def renderFields (depth : Nat) : List (String × Tree) → List String
  | [] => []
  | (name, t) :: fields => (quote name ++ ": " ++ render depth t) :: renderFields depth fields

end

def toText (t : Tree) : String := render 0 t

end Tree

end Phrasebook
