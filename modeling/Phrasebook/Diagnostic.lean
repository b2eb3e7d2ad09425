import Phrasebook.Source.Document

/-!
# Diagnostics

Reports on malformed entries for readers of the source file, with the byte where the
reading stopped.
-/

namespace Phrasebook

structure Diagnostic where
  message : String
  help : Option String
  offset : Nat
deriving DecidableEq, Repr

namespace Diagnostic

def code : String := "ftl::syntax"

/-- Marks the place of the failure. -/
def label : String := "here"

/-- Bytes under the mark. -/
def length : Nat := 1

def junkHelp : String :=
  "the whole entry is ignored; fix it or load with --strict to fail early"

/-- A malformed entry that was skipped. -/
def ofJunk (content : List Char) (j : Junk) : Diagnostic :=
  let note := j.annotations.headD ⟨"malformed entry", .start⟩
  ⟨"malformed entry: " ++ note.message, some junkHelp, note.position.byteOffset content⟩

/-- A malformed entry that ended the reading. -/
def ofError (content : List Char) (e : ParseError) : Diagnostic :=
  let message := match e with
    | .malformed _ reason => reason
    | .unexpectedEnd _ => "unexpected end of file"
    | .notUtf8 => "invalid UTF-8"
  ⟨message, none, e.position.byteOffset content⟩

/-- The text of a file; a file that is no text has only its start to point at. -/
def contentOf (bytes : ByteArray) : List Char :=
  ((String.fromUTF8? bytes).getD "").toList

/-- All that is wrong with a file. -/
def ofFile (mode : Mode) (bytes : ByteArray) : List Diagnostic :=
  match Resource.parseBytes mode bytes with
  | .ok r => r.junk.map (ofJunk (contentOf bytes))
  | .error e => [ofError (contentOf bytes) e]

end Diagnostic

end Phrasebook
