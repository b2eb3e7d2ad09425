import Phrasebook.Bundle
import Phrasebook.FileTree
import Phrasebook.Suggestion

/-!
# Catalogues

Bundles for several locales. A message is looked up along a chain of locales, and the
first bundle that has it supplies it.
-/

namespace Phrasebook

/-- What keeps a resource from being loaded. -/
inductive LoadError where
  | unreadable (path reason : String)
  | malformed (path : String) (position : Position) (reason : String)
  | invalidLocale (tag : String)
deriving DecidableEq, Repr

namespace LoadError

def message : LoadError → String
  | .unreadable path reason => "failed to read '" ++ path ++ "': " ++ reason
  | .malformed path position reason => path ++ ":" ++ position.toText ++ ": " ++ reason
  | .invalidLocale tag => "invalid locale tag '" ++ tag ++ "'"

/-- A parse error of a file. -/
def ofParseError (path : String) (e : ParseError) : LoadError :=
  match e with
  | .malformed position reason => .malformed path position reason
  | e => .malformed path e.position e.message

end LoadError

structure Catalogue where
  /-- Malformed entries are errors. -/
  strict : Bool := false
  maxDepth : Nat := defaultMaxDepth
  /-- Locales for callers that name none. -/
  fallback : List String := []
  bundles : List Bundle := []

namespace Catalogue

variable [LocaleData]

def mode (c : Catalogue) : Mode := if c.strict then .strict else .lenient

/-! ## Loading

What adds to a catalogue answers with warnings or an error, and leaves a catalogue behind in
both cases. -/

/-- Add a resource to the bundle of its locale, which is made for it if there is none. -/
def addResource (c : Catalogue) (tag : String) (r : Resource) :
    Catalogue × Except LoadError (List Warning) :=
  match Locale.canonical? tag with
  | none => (c, .error (.invalidLocale tag))
  | some locale =>
    let b := (Keyed.find? locale c.bundles).getD { locale }
    let (b, warnings) := b.addResource r
    ({ c with bundles := Keyed.put b c.bundles }, .ok warnings)

/-- The name under which errors in a text without a file are reported. -/
def textPath : String := "<string>"

def addText (c : Catalogue) (tag text : String) : Catalogue × Except LoadError (List Warning) :=
  match Resource.parse c.mode text with
  | .error e => (c, .error (.ofParseError textPath e))
  | .ok r => c.addResource tag r

def addFile (c : Catalogue) (files : FileTree) (tag path : String) :
    Catalogue × Except LoadError (List Warning) :=
  match files.read path with
  | .error e => (c, .error (.unreadable path e.message))
  | .ok bytes =>
    match Resource.parseBytes c.mode bytes with
    | .error e => (c, .error (.ofParseError path e))
    | .ok r => c.addResource tag r

/-- The directory that a file is in names its locale. -/
def localeOfPath? (path : String) : Option String := do
  FileTree.fileName? (← FileTree.parent? (FileTree.components path))

def isResourcePath (path : String) : Bool :=
  (FileTree.fileName? (FileTree.components path)).bind FileTree.extension? == some "ftl"

/-- The resource files below a directory. -/
def resourceFiles (files : FileTree) (dir : String) : Except LoadError (List String) :=
  match files.walk dir with
  | .ok paths => .ok (paths.filter isResourcePath)
  | .error e =>
    .error (.unreadable dir ("IO error for operation on " ++ dir ++ ": " ++ e.message))

/-- Add files one after the other. An error ends the loading; what was added before it
stays. -/
def addFiles (c : Catalogue) (files : FileTree) :
    List String → Catalogue × Except LoadError (List Warning)
  | [] => (c, .ok [])
  | path :: paths =>
    match localeOfPath? path with
    | none => c.addFiles files paths
    | some tag =>
      match c.addFile files tag path with
      | (c, .error e) => (c, .error e)
      | (c, .ok first) =>
        let (c, rest) := c.addFiles files paths
        (c, rest.map (first ++ ·))

/-- Add every resource file below a directory. -/
def addDirectory (c : Catalogue) (files : FileTree) (dir : String) :
    Catalogue × Except LoadError (List Warning) :=
  match resourceFiles files dir with
  | .error e => (c, .error e)
  | .ok paths => c.addFiles files paths

/-! ## Chains of locales -/

def bundle? (c : Catalogue) (tag : String) : Option Bundle := do
  Keyed.find? (← Locale.canonical? tag) c.bundles

/-- The loaded locales in alphabetical order. -/
def locales (c : Catalogue) : List String :=
  (c.bundles.map Bundle.locale).mergeSort fun a b => a ≤ b

/-- Keep the first bundle of each locale. -/
def firsts : List Bundle → List Bundle
  | [] => []
  | b :: bs => b :: (firsts bs).filter fun other => other.locale != b.locale

/-- The bundles for a list of locales; locales that are invalid or not loaded are skipped. -/
def chain (c : Catalogue) (locales : List String) : List Bundle :=
  firsts ((if locales.isEmpty then c.fallback else locales).filterMap c.bundle?)

/-- The first bundle that has a message or attribute, and its pattern. -/
def findPattern? (chain : List Bundle) (r : Reference) : Option (Bundle × Pattern) :=
  chain.findSome? fun b => (b.pattern? r).map fun p => (b, p)

/-- References are resolved one by one along the chain. -/
def chainLookup (chain : List Bundle) : Lookup where
  message id := chain.findSome? (·.message? id)
  term id := chain.findSome? (·.term? id)

def hasMessage (c : Catalogue) (locales : List String) (id : String) : Bool :=
  match Reference.parse id with
  | .ok r => (findPattern? (c.chain locales) r).isSome
  | .error _ => false

/-- The ids of the messages along a chain, in alphabetical order. -/
def messageIds (c : Catalogue) (locales : List String) : List String :=
  (((c.chain locales).flatMap Bundle.messageIds).mergeSort fun a b => a ≤ b).eraseReps

/-! ## Formatting -/

/-- Format a message or attribute from the first bundle that has it, in the way of that
bundle's locale. -/
def format (c : Catalogue) (locales : List String) (id : String) (args : Arguments) :
    Except MissingArgument (Option Formatted) :=
  match Reference.parse id with
  | .error _ => .ok none
  | .ok r =>
    let chain := c.chain locales
    match findPattern? chain r with
    | none => .ok none
    | some (b, p) =>
      let scope : Scope :=
        { locale := b.locale, lookup := chainLookup chain, maxDepth := c.maxDepth }
      let (result, scope) := scope.formatEntry r.toText p args
      result.map fun value => some ⟨value, scope.report⟩

def formatMessage (c : Catalogue) (locales : List String) (id : String) (args : Arguments) :
    Except MissingArgument (Option String) :=
  (c.format locales id args).map fun formatted => formatted.map Formatted.value

/-- Ids that may have been meant. -/
def suggest (c : Catalogue) (locales : List String) (id : String) : List String :=
  suggestions id (c.messageIds locales)

end Catalogue

end Phrasebook
