import Phrasebook.Formatting.Rendering

/-!
# Formatting scopes

A scope formats patterns for one locale with one lookup, and keeps a report of the faults
that occurred. A fault that is in the report already is not added again.
-/

namespace Phrasebook

/-- References may be nested so deep if nothing else is said. -/
def defaultMaxDepth : Nat := 64

structure Scope extends Trace where
  locale : String
  lookup : Lookup
  maxDepth : Nat := defaultMaxDepth

/-- A text and the faults that occurred while it was formatted. -/
structure Formatted where
  value : String
  faults : List Fault
deriving DecidableEq, Repr

namespace Scope

/-- Render something from where the trace stands. -/
def run {α : Type} (s : Scope) (x : Rendering α) : Except MissingArgument α × Scope :=
  let (result, trace) := x s.toTrace
  (result, { s with toTrace := trace })

variable [LocaleData]

def enter (s : Scope) : Enter :=
  Phrasebook.enter (Locale.ofTag s.locale) s.lookup s.maxDepth s.maxDepth

def format (s : Scope) (p : Pattern) (args : Arguments) :
    Except MissingArgument String × Scope :=
  s.run (renderElements (Locale.ofTag s.locale) s.lookup s.enter args p)

/-- Format the pattern of an entry, which counts as a reference to it. -/
def formatEntry (s : Scope) (key : String) (p : Pattern) (args : Arguments) :
    Except MissingArgument String × Scope :=
  s.run (s.enter key p args)

/-- Hand the report out and start a new one. -/
def takeReport (s : Scope) : List Fault × Scope :=
  (s.report, { s with report := [] })

end Scope

/-- Format a pattern by itself. -/
def Pattern.format [LocaleData] (p : Pattern) (locale : String) (lookup : Lookup)
    (args : Arguments) : Except MissingArgument Formatted :=
  let (result, scope) := Scope.format { locale, lookup } p args
  result.map fun value => ⟨value, scope.report⟩

end Phrasebook
