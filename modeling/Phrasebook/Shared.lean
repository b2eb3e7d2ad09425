import Phrasebook.Catalogue

/-!
# The shared catalogue

One place that holds a catalogue for a whole program. A catalogue is installed once, by
hand or with the first text that is added, and stays.
-/

namespace Phrasebook

structure Shared where
  installed : Option Catalogue := none

namespace Shared

variable [LocaleData]

/-- Install a catalogue. If there is one already, the new one is handed back. -/
def install (s : Shared) (c : Catalogue) : Shared × Option Catalogue :=
  match s.installed with
  | none => (⟨some c⟩, none)
  | some _ => (s, some c)

def isInstalled (s : Shared) : Bool := s.installed.isSome

/-- Ask the installed catalogue. -/
def withCatalogue {α : Type} (s : Shared) (f : Catalogue → α) : Option α :=
  s.installed.map f

/-- Add a text. A plain catalogue is installed for it first if there is none, also when
the text is then refused. -/
def addText (s : Shared) (tag text : String) : Shared × Except LoadError (List Warning) :=
  let c := s.installed.getD {}
  let (c, answer) := c.addText tag text
  (⟨some c⟩, answer)

/-- Format a message; the answer is `none` also for a missing argument. -/
def format (s : Shared) (locales : List String) (id : String) (args : Arguments) :
    Option String := do
  let c ← s.installed
  match c.formatMessage locales id args with
  | .ok text => text
  | .error _ => none

end Shared

end Phrasebook
