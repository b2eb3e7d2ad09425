import Mathlib
import Phrasebook.Catalogue
import Phrasebook.Locale.Builtin
import Phrasebook.Proofs.Bundle

/-!
# Catalogues as replays of what was added

Whether a call that adds to a catalogue succeeds depends on what it is given and on how strict
the catalogue is, but not on the bundles. A call that fails changes nothing. One that succeeds
adds its resource to the bundle of its locale and leaves the other bundles alone. So the bundle
of a locale is a new bundle to which the resources for that locale were added one after the
other, and calls for different locales may change places. A directory is added file by file, up
to the first one that fails.

## Main definitions

* `Addition`: a call that adds to a catalogue.
* `Addition.load`: the locale and the resource of a call, or the error that it ends with.
* `Catalogue.after`: a catalogue after some calls.
* `Catalogue.Agrees`: two catalogues with the same bundle for every locale.
-/

namespace Phrasebook

/-! ## Calls -/

/-- What may be added to a catalogue: a resource, a text, or a file among the files that there
are at that time. -/
inductive Addition where
  | resource (tag : String) (r : Resource)
  | text (tag source : String)
  | file (files : FileTree) (tag path : String)

namespace Addition

def tag : Addition → String
  | .resource tag _ => tag
  | .text tag _ => tag
  | .file _ tag _ => tag

/-- The resource of a call. -/
def read (mode : Mode) : Addition → Except LoadError Resource
  | .resource _ r => .ok r
  | .text _ source => (Resource.parse mode source).mapError (.ofParseError Catalogue.textPath)
  | .file files _ path => do
    let bytes ← (files.read path).mapError fun e => .unreadable path e.message
    (Resource.parseBytes mode bytes).mapError (.ofParseError path)

/-- The locale and the resource of a call, or the error that it ends with. The resource is read
before the locale is looked at. -/
def load [LocaleData] (mode : Mode) (a : Addition) : Except LoadError (String × Resource) := do
  let r ← a.read mode
  match Locale.canonical? a.tag with
  | some locale => return (locale, r)
  | none => throw (.invalidLocale a.tag)

/-- A call that succeeds in a catalogue, whatever its bundles are. -/
def Succeeds [LocaleData] (mode : Mode) (a : Addition) : Prop :=
  ∃ locale r, a.load mode = .ok (locale, r)

/-- What a call brings to a locale: its resource, if the call succeeds and is for that locale. -/
def broughtTo [LocaleData] (mode : Mode) (locale : String) (a : Addition) : List Resource :=
  match a.load mode with
  | .ok (l, r) => if l = locale then [r] else []
  | .error _ => []

/-- The call for a file that was found below a directory, if its path names a locale. -/
def ofPath? (files : FileTree) (path : String) : Option Addition :=
  (Catalogue.localeOfPath? path).map fun tag => .file files tag path

/-- The calls for the files that were found below a directory. -/
def ofPaths (files : FileTree) (paths : List String) : List Addition :=
  paths.filterMap (ofPath? files)

variable {mode : Mode} {a b : Addition} {locale : String} {r : Resource}

theorem ofPaths_cons_of_none {files : FileTree} {path : String} (h : ofPath? files path = none)
    (paths : List String) : ofPaths files (path :: paths) = ofPaths files paths :=
  List.filterMap_cons_none h

theorem ofPaths_cons_of_some {files : FileTree} {path : String} (h : ofPath? files path = some a)
    (paths : List String) : ofPaths files (path :: paths) = a :: ofPaths files paths :=
  List.filterMap_cons_some h

variable [LocaleData]

theorem canonical_of_load (h : a.load mode = .ok (locale, r)) :
    Locale.canonical? a.tag = some locale := by
  simp only [load, bind, Except.bind] at h
  split at h
  · cases h
  · split at h
    · next hlocale =>
      cases h
      exact hlocale
    · cases h

theorem broughtTo_of_ne (h : Locale.canonical? a.tag ≠ some locale) (mode : Mode) :
    a.broughtTo mode locale = [] := by
  unfold broughtTo
  split
  · next l r hload =>
    refine if_neg ?_
    rintro rfl
    exact h (canonical_of_load hload)
  · rfl

/-- No locale gets something from both of two calls for different locales. -/
theorem broughtTo_swap (h : Locale.canonical? a.tag ≠ Locale.canonical? b.tag)
    (mode : Mode) (locale : String) :
    a.broughtTo mode locale ++ b.broughtTo mode locale =
      b.broughtTo mode locale ++ a.broughtTo mode locale := by
  by_cases ha : Locale.canonical? a.tag = some locale
  · have hb : Locale.canonical? b.tag ≠ some locale := fun hb => h (ha.trans hb.symm)
    simp [broughtTo_of_ne hb]
  · simp [broughtTo_of_ne ha]

end Addition

/-! ## Bundles of resources -/

namespace Bundle

/-- A new bundle to which resources were added one after the other. -/
def ofResources (locale : String) (rs : List Resource) : Bundle :=
  rs.foldl (fun b r => (b.addResource r).1) { locale }

/-- What there is for a locale: nothing until a resource is added, not even an empty bundle. -/
def ofResources? (locale : String) : List Resource → Option Bundle
  | [] => none
  | r :: rs => some (ofResources locale (r :: rs))

theorem getD_ofResources? (locale : String) (rs : List Resource) :
    (ofResources? locale rs).getD { locale } = ofResources locale rs := by
  cases rs <;> rfl

theorem ofResources?_concat (locale : String) (rs : List Resource) (r : Resource) :
    ofResources? locale (rs ++ [r]) = some ((ofResources locale rs).addResource r).1 := by
  have hall : ofResources locale (rs ++ [r]) = ((ofResources locale rs).addResource r).1 := by
    simp [ofResources, List.foldl_append]
  rw [← hall]
  cases rs <;> rfl

end Bundle

namespace Catalogue

open Addition

variable {c : Catalogue} {a b : Addition} {locale : String} {r : Resource} {e : LoadError}

/-! ## What is stored -/

/-- The bundle that a resource for a locale is added to. -/
def bundleFor (c : Catalogue) (locale : String) : Bundle :=
  (Keyed.find? locale c.bundles).getD { locale }

/-- The catalogue with one more resource in the bundle of a locale. -/
def store (c : Catalogue) (locale : String) (r : Resource) : Catalogue :=
  { c with bundles := Keyed.put ((c.bundleFor locale).addResource r).1 c.bundles }

/-- A catalogue without its bundles. -/
def bare (c : Catalogue) : Catalogue := { c with bundles := [] }

theorem mode_bare (c : Catalogue) : c.bare.mode = c.mode := rfl

theorem locale_bundleFor (c : Catalogue) (locale : String) :
    (c.bundleFor locale).locale = locale := by
  unfold bundleFor
  cases h : Keyed.find? locale c.bundles with
  | none => rfl
  | some b => exact Keyed.key_of_find? h

theorem key_stored (c : Catalogue) (locale : String) (r : Resource) :
    Keyed.key ((c.bundleFor locale).addResource r).1 = locale :=
  (Bundle.locale_addResource _ r).trans (locale_bundleFor c locale)

theorem find?_store_self (c : Catalogue) (locale : String) (r : Resource) :
    Keyed.find? locale (c.store locale r).bundles =
      some ((c.bundleFor locale).addResource r).1 := by
  have hput := Keyed.find?_put_self ((c.bundleFor locale).addResource r).1 c.bundles
  rwa [key_stored] at hput

theorem find?_store_of_ne {k : String} (h : locale ≠ k) (c : Catalogue) (r : Resource) :
    Keyed.find? k (c.store locale r).bundles = Keyed.find? k c.bundles :=
  Keyed.find?_put_of_ne _ _ (by rwa [key_stored])

section

variable [LocaleData]

/-! ## Calls in a row -/

def add (c : Catalogue) : Addition → Catalogue × Except LoadError (List Warning)
  | .resource tag r => c.addResource tag r
  | .text tag source => c.addText tag source
  | .file files tag path => c.addFile files tag path

/-- The catalogue after some calls; those that fail count as well. -/
def after (c : Catalogue) (calls : List Addition) : Catalogue :=
  calls.foldl (fun c a => (c.add a).1) c

@[simp] theorem after_nil (c : Catalogue) : c.after [] = c := rfl

@[simp] theorem after_cons (c : Catalogue) (a : Addition) (calls : List Addition) :
    c.after (a :: calls) = (c.add a).1.after calls := rfl

theorem after_append (c : Catalogue) (calls more : List Addition) :
    c.after (calls ++ more) = (c.after calls).after more := by
  simp [after, List.foldl_append]

/-! ## One call -/

theorem addResource_eq (c : Catalogue) (tag : String) (r : Resource) :
    c.addResource tag r = match Locale.canonical? tag with
      | none => (c, .error (.invalidLocale tag))
      | some locale => (c.store locale r, .ok ((c.bundleFor locale).addResource r).2) := rfl

theorem add_eq_read (c : Catalogue) (a : Addition) :
    c.add a = match a.read c.mode with
      | .error e => (c, .error e)
      | .ok r => c.addResource a.tag r := by
  cases a with
  | resource tag r => rfl
  | text tag source =>
    simp only [add, addText, Addition.read, Addition.tag]
    cases Resource.parse c.mode source <;> rfl
  | file files tag path =>
    simp only [add, addFile, Addition.read, Addition.tag]
    cases files.read path with
    | error e => rfl
    | ok bytes =>
      simp only [Except.mapError, bind, Except.bind]
      cases Resource.parseBytes c.mode bytes <;> rfl

/-- A call either fails and leaves the catalogue alone, or it stores one more resource. -/
theorem add_eq (c : Catalogue) (a : Addition) :
    c.add a = match a.load c.mode with
      | .error e => (c, .error e)
      | .ok (locale, r) => (c.store locale r, .ok ((c.bundleFor locale).addResource r).2) := by
  rw [add_eq_read, Addition.load]
  cases a.read c.mode with
  | error e => rfl
  | ok r =>
    simp only [addResource_eq, bind, Except.bind]
    cases Locale.canonical? a.tag <;> rfl

theorem add_of_error (h : a.load c.mode = .error e) : c.add a = (c, .error e) := by
  rw [add_eq, h]

theorem add_of_ok (h : a.load c.mode = .ok (locale, r)) :
    c.add a = (c.store locale r, .ok ((c.bundleFor locale).addResource r).2) := by
  rw [add_eq, h]

theorem add_eq_error : (c.add a).2 = .error e ↔ a.load c.mode = .error e := by
  cases hload : a.load c.mode with
  | error e' => simp [add_of_error hload]
  | ok x => simp [add_of_ok hload]

theorem add_unchanged (h : (c.add a).2 = .error e) : (c.add a).1 = c := by
  rw [add_of_error (add_eq_error.mp h)]

@[simp] theorem bare_add (c : Catalogue) (a : Addition) : (c.add a).1.bare = c.bare := by
  cases hload : a.load c.mode with
  | error e => rw [add_of_error hload]
  | ok x =>
    rw [add_of_ok hload]
    rfl

@[simp] theorem mode_add (c : Catalogue) (a : Addition) : (c.add a).1.mode = c.mode := by
  rw [← mode_bare, bare_add, mode_bare]

/-- A call brings its resource to the bundle of its locale, and to no other one. -/
theorem find?_add {rs : List Resource}
    (h : Keyed.find? locale c.bundles = Bundle.ofResources? locale rs) (a : Addition) :
    Keyed.find? locale (c.add a).1.bundles =
      Bundle.ofResources? locale (rs ++ a.broughtTo c.mode locale) := by
  unfold broughtTo
  cases hload : a.load c.mode with
  | error e => simpa [add_of_error hload] using h
  | ok x =>
    obtain ⟨l, r⟩ := x
    rw [add_of_ok hload]
    by_cases hl : l = locale
    · subst hl
      have hfor : c.bundleFor l = Bundle.ofResources l rs := by
        rw [bundleFor, h, Bundle.getD_ofResources?]
      simp [find?_store_self, Bundle.ofResources?_concat, hfor]
    · simp [find?_store_of_ne hl, hl, h]

theorem nodup_add (h : (c.bundles.map Bundle.locale).Nodup) (a : Addition) :
    ((c.add a).1.bundles.map Bundle.locale).Nodup := by
  cases hload : a.load c.mode with
  | error e => rwa [add_of_error hload]
  | ok x =>
    rw [add_of_ok hload]
    exact Keyed.nodup_keys_put h

/-- A call is answered the same behind a call for another locale. -/
theorem answer_add_add (h : Locale.canonical? a.tag ≠ Locale.canonical? b.tag) :
    ((c.add b).1.add a).2 = (c.add a).2 := by
  cases hb : b.load c.mode with
  | error e => rw [add_of_error hb]
  | ok y =>
    obtain ⟨lb, rb⟩ := y
    cases ha : a.load c.mode with
    | error e =>
      rw [add_of_error ha]
      exact add_eq_error.mpr (by rwa [mode_add])
    | ok x =>
      obtain ⟨la, ra⟩ := x
      have hne : lb ≠ la := by
        rintro rfl
        exact h ((canonical_of_load ha).trans (canonical_of_load hb).symm)
      have hstored : (c.add b).1.bundleFor la = c.bundleFor la := by
        rw [add_of_ok hb, bundleFor, find?_store_of_ne hne, bundleFor]
      rw [add_of_ok ha, add_of_ok (by rwa [mode_add]), hstored]

/-! ## Many calls -/

@[simp] theorem bare_after (c : Catalogue) (calls : List Addition) :
    (c.after calls).bare = c.bare := by
  induction calls generalizing c with
  | nil => rfl
  | cons a calls ih => rw [after_cons, ih, bare_add]

@[simp] theorem mode_after (c : Catalogue) (calls : List Addition) :
    (c.after calls).mode = c.mode := by
  rw [← mode_bare, bare_after, mode_bare]

theorem find?_after {rs : List Resource}
    (h : Keyed.find? locale c.bundles = Bundle.ofResources? locale rs) (calls : List Addition) :
    Keyed.find? locale (c.after calls).bundles =
      Bundle.ofResources? locale (rs ++ calls.flatMap (broughtTo c.mode locale)) := by
  induction calls generalizing c rs with
  | nil => simpa using h
  | cons a calls ih =>
    rw [after_cons, ih (find?_add h a), mode_add, List.flatMap_cons, List.append_assoc]

theorem nodup_after (h : (c.bundles.map Bundle.locale).Nodup) (calls : List Addition) :
    ((c.after calls).bundles.map Bundle.locale).Nodup := by
  induction calls generalizing c with
  | nil => exact h
  | cons a calls ih => exact ih (nodup_add h a)

/-- Catalogues that differ at most in the order in which they keep their bundles. -/
structure Agrees (c d : Catalogue) : Prop where
  bare : c.bare = d.bare
  find? (locale : String) : Keyed.find? locale c.bundles = Keyed.find? locale d.bundles

/-- All that matters in a row of calls is what each locale gets. -/
theorem agrees_after {new : Catalogue} (hnew : new.bundles = []) {calls calls' : List Addition}
    (h : ∀ locale, calls.flatMap (broughtTo new.mode locale) =
      calls'.flatMap (broughtTo new.mode locale)) :
    (new.after calls).Agrees (new.after calls') where
  bare := by rw [bare_after, bare_after]
  find? locale := by
    have hnone : Keyed.find? locale new.bundles = Bundle.ofResources? locale [] := by
      rw [hnew]
      rfl
    rw [find?_after hnone, find?_after hnone, h]

/-! ## Directories -/

theorem addFiles_cons_of_none {files : FileTree} {path : String} (h : ofPath? files path = none)
    (c : Catalogue) (paths : List String) :
    c.addFiles files (path :: paths) = c.addFiles files paths := by
  rw [addFiles, Option.map_eq_none_iff.mp h]

theorem addFiles_cons_of_error {files : FileTree} {path : String} (h : ofPath? files path = some a)
    (he : a.load c.mode = .error e) (paths : List String) :
    c.addFiles files (path :: paths) = (c, .error e) := by
  obtain ⟨tag, htag, rfl⟩ := Option.map_eq_some_iff.mp h
  have hadd : c.addFile files tag path = (c, .error e) := add_of_error he
  rw [addFiles, htag]
  simp only [hadd]

theorem addFiles_cons_of_ok {files : FileTree} {path : String} (h : ofPath? files path = some a)
    (ha : a.Succeeds c.mode) : ∃ warnings, ∀ paths, c.addFiles files (path :: paths) =
      (((c.add a).1.addFiles files paths).1,
        ((c.add a).1.addFiles files paths).2.map (warnings ++ ·)) := by
  obtain ⟨tag, htag, rfl⟩ := Option.map_eq_some_iff.mp h
  obtain ⟨locale, r, hload⟩ := ha
  have hadd : c.addFile files tag path = _ := add_of_ok hload
  refine ⟨((c.bundleFor locale).addResource r).2, fun paths => ?_⟩
  rw [addFiles, htag]
  simp only [hadd, add_of_ok hload]

/-- Files that can be added are added one by one in front of the others. -/
theorem addFiles_append {files : FileTree} {front : List String}
    (h : ∀ a ∈ ofPaths files front, a.Succeeds c.mode) :
    ∃ warnings, ∀ rest, c.addFiles files (front ++ rest) =
      (((c.after (ofPaths files front)).addFiles files rest).1,
        ((c.after (ofPaths files front)).addFiles files rest).2.map
          (warnings ++ ·)) := by
  induction front generalizing c with
  | nil =>
    refine ⟨[], fun rest => ?_⟩
    rw [ofPaths, List.filterMap_nil, after_nil, List.nil_append]
    obtain ⟨d, answer⟩ := c.addFiles files rest
    cases answer <;> rfl
  | cons path front ih =>
    cases hpath : ofPath? files path with
    | none =>
      rw [ofPaths_cons_of_none hpath] at h ⊢
      obtain ⟨warnings, hfront⟩ := ih h
      exact ⟨warnings, fun rest => (addFiles_cons_of_none hpath c _).trans (hfront rest)⟩
    | some a =>
      rw [ofPaths_cons_of_some hpath] at h ⊢
      rw [List.forall_mem_cons] at h
      obtain ⟨first, hfirst⟩ := addFiles_cons_of_ok hpath h.1
      obtain ⟨warnings, hfront⟩ := ih (c := (c.add a).1) (by rw [mode_add]; exact h.2)
      refine ⟨first ++ warnings, fun rest => ?_⟩
      rw [List.cons_append, hfirst, hfront, after_cons]
      cases (((c.add a).1.after _).addFiles files rest).2 <;> simp [Except.map]

theorem addDirectory_of_unreadable {files : FileTree} {dir : String}
    (h : resourceFiles files dir = .error e) (c : Catalogue) :
    c.addDirectory files dir = (c, .error e) := by
  rw [addDirectory, h]

theorem addDirectory_of_ok {files : FileTree} {dir : String} {paths : List String}
    (h : resourceFiles files dir = .ok paths)
    (hpaths : ∀ a ∈ ofPaths files paths, a.Succeeds c.mode) :
    ∃ warnings, c.addDirectory files dir =
      (c.after (ofPaths files paths), .ok warnings) := by
  obtain ⟨warnings, hfiles⟩ := addFiles_append hpaths
  refine ⟨warnings, ?_⟩
  rw [addDirectory, h]
  simpa [addFiles, Except.map] using hfiles []

/-- An error ends the loading, with the files in front of it added. -/
theorem addDirectory_of_error {files : FileTree} {dir path : String} {front back : List String}
    (h : resourceFiles files dir = .ok (front ++ path :: back))
    (hfront : ∀ a ∈ ofPaths files front, a.Succeeds c.mode)
    (hpath : ofPath? files path = some a) (he : a.load c.mode = .error e) :
    c.addDirectory files dir = (c.after (ofPaths files front), .error e) := by
  obtain ⟨warnings, hfiles⟩ := addFiles_append hfront
  rw [addDirectory, h]
  simp only [hfiles, addFiles_cons_of_error hpath (mode_after c _ ▸ he), Except.map]

end

/-- Two spellings of one locale, and a call between them that fails. -/
def spellings : List Addition :=
  [.text "de" "a = 1\n", .text "?" "a = 2\n", .text "DE" "a = 3\n"]

open Builtin

end Catalogue

end Phrasebook
