import Phrasebook.Alphabet
import Phrasebook.Resource
import Phrasebook.Source.Parser

/-!
# Lexical grammar

Blanks, line ends, identifiers and the literals of inline expressions.
-/

namespace Phrasebook.Source

open Alphabet Phrasebook.Source.Parser

/-! ## Blanks and line ends -/

def spaces : Parser Unit := do
  let _ ← takeWhile isBlank

/-- A line end at the front of a text and what follows it. -/
def lineEnd? : List Char → Option (List Char × List Char)
  | '\n' :: rest => some (['\n'], rest)
  | '\r' :: '\n' :: rest => some (['\r', '\n'], rest)
  | _ => none

theorem lineEnd?_length {s eol rest : List Char} (h : lineEnd? s = some (eol, rest)) :
    rest.length < s.length := by
  unfold lineEnd? at h
  split at h
  · cases h
    exact Nat.lt_succ_self _
  · cases h
    exact Nat.lt_succ_of_lt (Nat.lt_succ_self _)
  · contradiction

def lineEnd : Parser Unit := fun s =>
  match lineEnd? s with
  | some (_, rest) => .done () rest
  | none => .failed { rest := s }

def lineEndOrEnd : Parser Unit :=
  lineEnd.or endOfInput

/-- The longest stretch of blank lines at the front, and what follows it. -/
def blankLines (s : List Char) : List Char × List Char :=
  match _h : lineEnd? (s.dropWhile isBlank) with
  | some (eol, rest) =>
    let (text, after) := blankLines rest
    (s.takeWhile isBlank ++ eol ++ text, after)
  | none => ([], s)
termination_by s.length
decreasing_by
  exact Nat.lt_of_lt_of_le (lineEnd?_length _h) (List.dropWhile_suffix _).length_le

/-- At least one blank line. -/
def blankBlock : Parser (List Char) := fun s =>
  match blankLines s with
  | ([], _) => .failed { rest := s.dropWhile isBlank }
  | (text, rest) => .done text rest

def skipBlank : List Char → List Char
  | ' ' :: rest => skipBlank rest
  | '\n' :: rest => skipBlank rest
  | '\r' :: '\n' :: rest => skipBlank rest
  | s => s

/-- Any mix of spaces and line ends. -/
def blank : Parser Unit := fun s => .done () (skipBlank s)

/-! ## Identifiers and numbers -/

def identifier : Parser String := do
  let c ← satisfy isNameStart
  let cs ← takeWhile isNamePart
  return String.ofList (c :: cs)

/-- Digits with an optional minus in front and an optional fraction behind. -/
def numberLiteral : Parser NumberLiteral := do
  let minus ← optional (char '-')
  let whole ← takeWhile1 isDigit
  let fraction ← optional do
    char '.'
    takeWhile1 isDigit
  let sign := if minus.isSome then ['-'] else []
  let point := match fraction with
    | some digits => '.' :: digits
    | none => []
  return ⟨String.ofList (sign ++ whole ++ point)⟩

/-! ## String literals -/

def hexDigitValue (c : Char) : Nat :=
  if isDigit c then c.toNat - '0'.toNat
  else if 'a' ≤ c then c.toNat - 'a'.toNat + 10
  else c.toNat - 'A'.toNat + 10

def hexValue (cs : List Char) : Nat :=
  cs.foldl (fun n c => 16 * n + hexDigitValue c) 0

/-- The character with a code point; surrogates and numbers beyond the last one have none. -/
def codePoint? (n : Nat) : Option Char :=
  if n.isValidChar then some (Char.ofNat n) else none

/-- Exactly so many hexadecimal digits. -/
def hexDigits (count : Nat) : Parser (List Char) := fun s =>
  let digits := s.take count
  if digits.length = count ∧ digits.all isHexDigit then .done digits (s.drop count)
  else .failed { rest := s }

/-- A mark and the code point of a character. -/
def codeEscape (mark : Char) (count : Nat) : Parser Char := fun s =>
  match (do char mark; hexDigits count : Parser (List Char)) s with
  | .done digits rest =>
    match codePoint? (hexValue digits) with
    | some c => .done c rest
    | none => .failed { rest := s }
  | .failed e => .failed e

/-- What follows a backslash. -/
def escape : Parser Char :=
  label "escape sequence" <|
    (satisfy fun c => c == '"' || c == '\\').or <|
      (codeEscape 'u' 4).or (codeEscape 'U' 6)

theorem codeEscape_length {mark : Char} {count : Nat} {s rest : List Char} {c : Char}
    (h : codeEscape mark count s = .done c rest) : rest.length < s.length := by
  unfold codeEscape at h
  split at h
  next digits r hd =>
    obtain ⟨_, _, hmark, hhex⟩ := bind_eq_done.mp hd
    rw [char_eq_done.mp hmark]
    grind [hexDigits, List.length_drop]
  · contradiction

theorem escape_length {s rest : List Char} {c : Char} (h : escape s = .done c rest) :
    rest.length < s.length := by
  simp only [escape, label_eq_done, or_eq_done, satisfy_eq_done] at h
  obtain ⟨rfl, _⟩ | ⟨_, _, _, h | ⟨_, _, _, h⟩⟩ := h
  · simp
  · exact codeEscape_length h
  · exact codeEscape_length h

/-- The characters up to the closing quote. A literal ends on the line where it began. -/
def quoted (s : List Char) : Outcome (List Char) :=
  match s with
  | [] => .failed ⟨[], true, [.expected (.char '"')]⟩
  | c :: rest =>
    if c = '"' then .done [] rest
    else if c = '\n' then
      .failed ⟨rest, true, [.label "string literal",
        .expected (.phrase "closing quote before the end of the line")]⟩
    else if c = '\\' then
      match _h : escape rest with
      | .done d rest => (quoted rest).map (d :: ·)
      | .failed e => .failed { e with committed := true }
    else (quoted rest).map (c :: ·)
termination_by s.length
decreasing_by
  · have := escape_length _h
    simp
    omega
  · simp

def stringLiteral : Parser String := do
  char '"'
  let cs ← (quoted : Parser (List Char))
  return String.ofList cs

end Phrasebook.Source
