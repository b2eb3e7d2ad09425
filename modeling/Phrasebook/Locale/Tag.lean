/-!
# Locale tags

A tag names a language and, optionally, a script, a region, variants and extensions. Tags
are read without regard to case; the written form has one spelling for each of them.
-/

namespace Phrasebook

/-- An extension of a tag: a singleton and the subtags behind it, in their written order. -/
structure LocaleExtension where
  singleton : Char
  subtags : List String
deriving DecidableEq, Repr

structure LocaleTag where
  language : String
  script : Option String := none
  region : Option String := none
  variants : List String := []
  extensions : List LocaleExtension := []
  privateUse : List String := []
deriving DecidableEq, Repr

namespace LocaleTag

def english : LocaleTag := { language := "en" }

/-! ## Subtags -/

def allLetters (s : String) : Bool := s.toList.all Char.isAlpha

def allDigits (s : String) : Bool := s.toList.all Char.isDigit

def allAlphanumeric (s : String) : Bool := s.toList.all Char.isAlphanum

def lengthIn (s : String) (least most : Nat) : Bool :=
  least ≤ s.length && s.length ≤ most

def isLanguage (s : String) : Bool := lengthIn s 2 3 && allLetters s

def isScript (s : String) : Bool := s.length == 4 && allLetters s

def isRegion (s : String) : Bool :=
  (s.length == 2 && allLetters s) || (s.length == 3 && allDigits s)

def isVariant (s : String) : Bool :=
  allAlphanumeric s &&
    (lengthIn s 5 8 || (s.length == 4 && (s.toList.head?.any Char.isDigit)))

/-- Subtags of three to eight characters, which name attributes and types. -/
def isLongSubtag (s : String) : Bool := lengthIn s 3 8 && allAlphanumeric s

/-- Keys of the `u` extension end in a letter. -/
def isKeywordKey (s : String) : Bool :=
  match s.toList with
  | [a, b] => a.isAlphanum && b.isAlpha
  | _ => false

/-- Keys of the `t` extension are a letter and a digit. -/
def isFieldKey (s : String) : Bool :=
  match s.toList with
  | [a, b] => a.isAlpha && b.isDigit
  | _ => false

def lower (s : String) : String := s.map Char.toLower

def titleCase (s : String) : String :=
  match s.toList with
  | c :: cs => String.ofList (c.toUpper :: cs.map Char.toLower)
  | [] => ""

/-- Sort texts by their characters. -/
def sortTexts (xs : List String) : List String :=
  xs.mergeSort fun a b => a ≤ b

/-! ## Reading -/

/-- Take the first subtag if it is of a kind. -/
def takeIf (p : String → Bool) : List String → Option String × List String
  | s :: rest => if p s then (some s, rest) else (none, s :: rest)
  | [] => (none, [])

/-- The language and the optional parts behind it, and the subtags that are left. -/
def readBase : List String → Option (LocaleTag × List String)
  | [] => none
  | language :: rest =>
    if isLanguage language then
      let (script, rest) := takeIf isScript rest
      let (region, rest) := takeIf isRegion rest
      let variants := (rest.takeWhile isVariant).map lower
      if variants.Nodup then
        some ({ language := lower language, script := script.map titleCase,
                region := region.map String.toUpper, variants := sortTexts variants },
          rest.dropWhile isVariant)
      else none
    else none

/-- Group subtags under the keys in front of them. -/
def groupByKey (isKey : String → Bool) : List String → Option (List (String × List String))
  | [] => some []
  | s :: rest =>
    if isKey s then do
      let groups ← groupByKey isKey (rest.dropWhile isLongSubtag)
      return (lower s, (rest.takeWhile isLongSubtag).map lower) :: groups
    else none
termination_by subtags => subtags.length
decreasing_by
  exact Nat.lt_succ_of_le (List.dropWhile_suffix _).length_le

/-- The type `true` says no more than the key alone. -/
def dropTrue (types : List String) : List String :=
  types.filter (· != "true")

/-- Keep the first group of each key and sort by key. -/
def sortGroups (groups : List (String × List String)) : List (String × List String) :=
  let firsts := groups.foldl (fun acc g => if acc.any (·.1 == g.1) then acc else acc ++ [g]) []
  firsts.mergeSort fun a b => a.1 ≤ b.1

/-- The `u` extension: attributes, then keywords with their types. -/
def readKeywords (subtags : List String) : Option (List String) := do
  let attributes := (subtags.takeWhile isLongSubtag).map lower
  let keywords ← groupByKey isKeywordKey (subtags.dropWhile isLongSubtag)
  guard (!subtags.isEmpty)
  return sortTexts attributes.eraseDups ++
    (sortGroups keywords).flatMap fun (key, types) => key :: dropTrue types

/-- The subtags in front of the extensions. -/
def baseSubtags (t : LocaleTag) : List String :=
  t.language :: (t.script.toList ++ t.region.toList ++ t.variants)

/-- The `t` extension: a locale, then fields with at least one type each; the last of a
repeated field counts. -/
def readTransform (subtags : List String) : Option (List String) := do
  guard (!subtags.isEmpty)
  let (base, rest) ←
    if subtags.head?.any isLanguage then
      (readBase subtags).map fun (t, rest) => (t.baseSubtags.map lower, rest)
    else some ([], subtags)
  let fields ← groupByKey isFieldKey rest
  guard (fields.all fun (_, types) => !types.isEmpty)
  return base ++ (sortGroups fields.reverse).flatMap fun (key, types) =>
    key :: if dropTrue types = [] then ["true"] else dropTrue types

/-- The subtags of an extension in their written order. Its singleton is a letter. -/
def readExtension (singleton : Char) (subtags : List String) : Option LocaleExtension :=
  match singleton with
  | 'u' => (readKeywords subtags).map (⟨'u', ·⟩)
  | 't' => (readTransform subtags).map (⟨'t', ·⟩)
  | c =>
    if c.isAlpha && !subtags.isEmpty &&
        subtags.all fun s => lengthIn s 2 8 && allAlphanumeric s then
      some ⟨c, subtags.map lower⟩
    else none

/-- The extensions, each from one singleton to the next, and the subtags for private use,
which run to the end. -/
def readExtensions : List String → Option (List LocaleExtension × List String)
  | [] => some ([], [])
  | s :: rest =>
    match (lower s).toList with
    | ['x'] =>
      if !rest.isEmpty && rest.all fun s => lengthIn s 1 8 then some ([], rest.map lower) else none
    | [singleton] => do
      let extension ← readExtension singleton (rest.takeWhile (·.length != 1))
      let (extensions, privateUse) ← readExtensions (rest.dropWhile (·.length != 1))
      if extensions.all (·.singleton != singleton) then
        some (extension :: extensions, privateUse)
      else none
    | _ => none
termination_by subtags => subtags.length
decreasing_by
  exact Nat.lt_succ_of_le (List.dropWhile_suffix _).length_le

def read? (text : String) : Option LocaleTag := do
  let subtags := text.splitOn "-"
  guard (subtags.all allAlphanumeric)
  let (base, rest) ← readBase subtags
  let (extensions, privateUse) ← readExtensions rest
  return { base with
    extensions := extensions.mergeSort fun a b => a.singleton ≤ b.singleton
    privateUse := privateUse }

/-! ## Writing -/

def subtags (t : LocaleTag) : List String :=
  t.baseSubtags ++
    t.extensions.flatMap (fun e => String.singleton e.singleton :: e.subtags) ++
    if t.privateUse.isEmpty then [] else "x" :: t.privateUse

def toText (t : LocaleTag) : String :=
  "-".intercalate t.subtags

/-! ## Lookup -/

/-- The first type of a keyword of the `u` extension. -/
def keyword? (t : LocaleTag) (key : String) : Option String := do
  let e ← t.extensions.find? (·.singleton == 'u')
  match (e.subtags.dropWhile (· != key)).drop 1 with
  | type :: _ => if isLongSubtag type then some type else none
  | [] => none

/-- Tags to look a locale up by, from the most specific one to the root locale. -/
def fallbacks (t : LocaleTag) : List String :=
  let subtags := t.baseSubtags
  let lengths := (List.range subtags.length).reverse
  lengths.map (fun n => "-".intercalate (subtags.take (n + 1))) ++ ["und"]

/-- What a table holds for a locale or the nearest one above it. -/
def lookup? {α : Type} (t : LocaleTag) (table : List (String × α)) : Option α :=
  t.fallbacks.findSome? fun tag => table.lookup tag

end LocaleTag

end Phrasebook
