import Phrasebook.Source.Entry
import Phrasebook.Source.Error

/-!
# Reading whole texts

A resource is a sequence of entries with blank lines between them. Recovery from a
malformed entry resumes at the next line that may start an entry; the text up to there is
kept as junk, with the reason and the place of the failure.
-/

namespace Phrasebook

namespace Source

open Alphabet

/-- Skip blank lines in front of an entry, and blanks at the end of the text. -/
def skipBlankLines (s : List Char) : List Char :=
  let rest := (blankLines s).2
  if rest.all isBlank then [] else rest

/-- Text up to the next line whose first character may open an entry. The flag says
whether a line starts here. -/
def junkSpan (lineStart : Bool) : List Char → List Char × List Char
  | [] => ([], [])
  | c :: cs =>
    if lineStart && isEntryOpening c then ([], c :: cs)
    else
      let (text, rest) := junkSpan (c == '\n') cs
      (c :: text, rest)

theorem junkSpan_length (lineStart : Bool) (s : List Char) :
    (junkSpan lineStart s).2.length ≤ s.length := by
  induction s generalizing lineStart with
  | nil => simp [junkSpan]
  | cons c cs ih =>
    simp only [junkSpan]
    split
    · simp
    · exact Nat.le_succ_of_le (ih _)

/-- The malformed entry at the front of a text, which takes at least one character. -/
def junk : List Char → List Char × List Char :=
  junkSpan false

theorem junk_length {s : List Char} (h : s ≠ []) : (junk s).2.length < s.length := by
  cases s with
  | nil => contradiction
  | cons c cs =>
    simpa [junk, junkSpan] using Nat.lt_succ_of_le (junkSpan_length (c == '\n') cs)

theorem blankLines_length (s : List Char) : (blankLines s).2.length ≤ s.length := by
  fun_induction blankLines s with
  | case1 s eol rest h text after heq ih =>
    rw [heq] at ih
    have hrest := lineEnd?_length h
    have hdrop := (List.dropWhile_suffix (l := s) isBlank).length_le
    exact Nat.le_trans ih (Nat.le_trans (Nat.le_of_lt hrest) hdrop)
  | case2 => simp

theorem skipBlankLines_length (s : List Char) : (skipBlankLines s).length ≤ s.length := by
  simp only [skipBlankLines]
  split
  · simp
  · exact blankLines_length s

/-- Why an entry failed, with the place where the reading stopped. -/
def annotation (source : List Char) (failure : Failure) : Annotation :=
  ⟨failure.message "expected a message, term or comment", Position.ofRest source failure.rest⟩

/-- The entries of a text that does not start with a blank line: the end of a source text,
which the places of failures refer to. -/
def entries (mode : Mode) (source s : List Char) : Except ParseError (List Entry) :=
  if _hs : s = [] then .ok []
  else
    match entry s with
    | .done e rest =>
      if rest.length < s.length then
        (entries mode source (skipBlankLines rest)).map (e :: ·)
      else .ok [e]
    | .failed failure =>
      let note := annotation source failure
      match mode with
      | .strict => .error (.malformed note.position note.message)
      | .lenient =>
        let j := junk s
        (entries mode source (skipBlankLines j.2)).map (.junk ⟨String.ofList j.1, [note]⟩ :: ·)
termination_by s.length
decreasing_by
  · have := skipBlankLines_length rest
    omega
  · exact Nat.lt_of_le_of_lt (skipBlankLines_length _) (junk_length _hs)

def dropByteOrderMark : List Char → List Char
  | '\uFEFF' :: cs => cs
  | cs => cs

/-- Run a parser over a whole text. -/
def complete {α : Type} (p : Parser α) (text : String) : Except ParseError α :=
  if text.isEmpty then .error (.unexpectedEnd .start)
  else
    let whole : Parser α := do
      let a ← p
      Parser.endOfInput
      return a
    match whole text.toList with
    | .done a _ => .ok a
    | .failed e =>
      .error (.malformed (Position.ofRest text.toList e.rest)
        (e.message "unexpected trailing input"))

end Source

/-- Read a resource. A byte order mark at the start is not part of the text. -/
def Resource.parse (mode : Mode) (text : String) : Except ParseError Resource :=
  let source := Source.dropByteOrderMark text.toList
  (Source.entries mode source (Source.skipBlankLines source)).map Resource.mk

/-- Read a resource from bytes, which have to be UTF-8. -/
def Resource.parseBytes (mode : Mode) (bytes : ByteArray) : Except ParseError Resource :=
  match String.fromUTF8? bytes with
  | some text => Resource.parse mode text
  | none => .error .notUtf8

/-- Read a pattern that stands by itself. -/
def Pattern.parse (text : String) : Except ParseError Pattern :=
  Source.complete Source.pattern text

/-- Read the name of a message or of one of its attributes. -/
def Reference.parse (text : String) : Except ParseError Reference :=
  Source.complete Source.reference text

end Phrasebook
