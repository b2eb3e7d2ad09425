import Phrasebook.Proofs.Catalogue.Fallback
import Phrasebook.Proofs.Catalogue.References

/-!
# The ways to format a message

A message can be formatted by a bundle, by a catalogue along a chain of locales, and as a
reference in a pattern. Each way looks the pattern up by itself, and each puts the key of the
message on the stack before it renders the pattern. They lead to the same text, also where a
message shows itself or nests as deep as it may, and a catalogue has a message if and only if
it formats it.
-/

namespace Phrasebook

variable {b : Bundle} {c : Catalogue} {id tag : String} {r : Reference} {p : Pattern}
  {args : Arguments}

/-! ## Bundles -/

namespace Bundle

theorem messagePattern_lookup : b.lookup.messagePattern r = .ok p ↔ b.pattern? r = some p := by
  simp [Lookup.messagePattern_eq_ok, lookup, pattern?, Option.bind_eq_some_iff]

section

variable [LocaleData]

/-- What a bundle formats is the text of a reference to a pattern that it has. -/
theorem found_of_formatMessage (h : b.formatMessage id args ≠ .ok none) :
    ∃ r p, Reference.parse id = .ok r ∧ b.pattern? r = some p := by
  unfold formatMessage at h
  split at h
  · exact absurd rfl h
  · next r hparse =>
    split at h
    · exact absurd rfl h
    · next p hp => exact ⟨r, p, hparse, hp⟩

theorem formatMessage_of_found (hparse : Reference.parse id = .ok r) (hp : b.pattern? r = some p)
    (args : Arguments) :
    b.formatMessage id args =
      (Scope.formatEntry { locale := b.locale, lookup := b.lookup } r.toText p args).1.map
        some := by
  simp only [formatMessage, hparse, hp]

/-- A pattern that is only a reference is formatted as the message that it refers to. -/
theorem value_formatPattern_reference (hp : b.pattern? r = some p) (args : Arguments) :
    (b.formatPattern [.placeable (.inline (.message r))] args).map Formatted.value =
      (Scope.formatEntry { locale := b.locale, lookup := b.lookup } r.toText p args).1 := by
  have hreference := Scope.format_reference
    (s := { locale := b.locale, lookup := b.lookup }) (messagePattern_lookup.mpr hp) args
  rw [formatPattern, Pattern.format, hreference]
  cases Scope.formatEntry { locale := b.locale, lookup := b.lookup } r.toText p args with
  | mk result scope => cases result <;> rfl

end

end Bundle

/-! ## Catalogues -/

namespace Catalogue

theorem chainLookup_singleton (b : Bundle) : chainLookup [b] = b.lookup := by
  simp [chainLookup, Bundle.lookup]

theorem findPattern?_singleton :
    findPattern? [b] r = (b.pattern? r).map fun p => (b, p) := by
  simp [findPattern?]

section

variable [LocaleData]

theorem chain_singleton (h : c.bundle? tag = some b) : c.chain [tag] = [b] := by
  simp [chain, h, firsts]

/-- A chain of one bundle formats as that bundle does. -/
theorem formatMessage_singleton (hdepth : c.maxDepth = defaultMaxDepth)
    (h : c.bundle? tag = some b) (id : String) (args : Arguments) :
    c.formatMessage [tag] id args = b.formatMessage id args := by
  unfold formatMessage format Bundle.formatMessage
  cases Reference.parse id with
  | error e => rfl
  | ok r =>
    simp only [chain_singleton h, findPattern?_singleton, chainLookup_singleton, hdepth]
    cases b.pattern? r with
    | none => rfl
    | some p =>
      simp only [Option.map_some]
      cases Scope.formatEntry { locale := b.locale, lookup := b.lookup } r.toText p args with
      | mk result scope => cases result <;> rfl

theorem formatMessage_eq_none {locales : List String} :
    c.formatMessage locales id args = .ok none ↔ c.format locales id args = .ok none := by
  unfold formatMessage
  cases c.format locales id args with
  | error e => simp [Except.map]
  | ok formatted => simp [Except.map]

theorem format_eq_none {locales : List String} :
    c.format locales id args = .ok none ↔ c.hasMessage locales id = false := by
  cases hparse : Reference.parse id with
  | error e => simp [format, hasMessage, hparse]
  | ok r =>
    cases hfound : findPattern? (c.chain locales) r with
    | none => simp [format, hasMessage, hparse, hfound]
    | some found =>
      rw [format_of_found hparse hfound, hasMessage, hparse]
      simp only [hfound, Option.isSome_some]
      cases enter (Locale.ofTag found.1.locale) (chainLookup (c.chain locales)) c.maxDepth
        c.maxDepth r.toText found.2 args {} with
      | mk result t => cases result <;> simp [Except.map]

/-- What a bundle formats is what it makes of a pattern with nothing but the reference. A
catalogue with the usual depth limit formats along one locale as the bundle of that locale does.
And a catalogue answers with no text if and only if it says that it does not have the message. -/
theorem entryPoints_agree (b : Bundle) (id : String) (args : Arguments) :
    (b.formatMessage id args ≠ .ok none → ∃ r, Reference.parse id = .ok r ∧
      b.formatMessage id args = ((b.formatPattern [.placeable (.inline (.message r))] args).map
        Formatted.value).map some) ∧
    (∀ (c : Catalogue) (tag : String), c.maxDepth = defaultMaxDepth → c.bundle? tag = some b →
      c.formatMessage [tag] id args = b.formatMessage id args) ∧
    ∀ (c : Catalogue) (locales : List String),
      c.hasMessage locales id = false ↔ c.formatMessage locales id args = .ok none := by
  refine ⟨fun h => ?_, fun c tag hdepth hb => ?_, fun c locales => ?_⟩
  · obtain ⟨r, p, hparse, hp⟩ := Bundle.found_of_formatMessage h
    refine ⟨r, hparse, ?_⟩
    rw [Bundle.formatMessage_of_found hparse hp, Bundle.value_formatPattern_reference hp]
  · exact formatMessage_singleton hdepth hb id args
  · rw [formatMessage_eq_none, format_eq_none]

end

/-- A title that shows its message, which shows itself. -/
def mirror : Bundle :=
  { locale := "en"
    messages := [⟨"mirror", some [.text "me: ", .placeable (.inline (.message ⟨"mirror", none⟩))],
      [⟨"title", [.placeable (.inline (.message ⟨"mirror", none⟩))]⟩], none⟩] }

open Builtin

/-- The text is the same for the bundle, for a reference to the title and for a catalogue, where
the tag may be spelled in another way. -/
theorem entryPoints_agree_mirror :
    let c : Catalogue := { bundles := [mirror] }
    let title : Pattern := [.placeable (.inline (.message ⟨"mirror", some "title"⟩))]
    let text : Except MissingArgument (Option String) := .ok (some "me: \x7bmirror\x7d")
    mirror.formatMessage "mirror.title" [] = text ∧
      ((mirror.formatPattern title []).map Formatted.value).map some = text ∧
      c.bundle? "EN" = some mirror ∧ c.formatMessage ["EN"] "mirror.title" [] = text ∧
      c.hasMessage ["EN"] "mirror.titel" = false ∧
      c.formatMessage ["EN"] "mirror.titel" [] = .ok none := by
  intro c title text
  have hformat : mirror.formatMessage "mirror.title" [] = text := by cbv
  have hbundle : c.bundle? "EN" = some mirror := by cbv
  have hmissing : c.hasMessage ["EN"] "mirror.titel" = false := by cbv
  have hparse : Reference.parse "mirror.title" = .ok ⟨"mirror", some "title"⟩ := by cbv
  obtain ⟨hpattern, hchain, -⟩ := entryPoints_agree mirror "mirror.title" []
  obtain ⟨-, -, hnone⟩ := entryPoints_agree mirror "mirror.titel" []
  obtain ⟨r, hr, hsame⟩ := hpattern (by rw [hformat]; simp [text])
  obtain rfl : ⟨"mirror", some "title"⟩ = r := Except.ok.inj (hparse.symm.trans hr)
  exact ⟨hformat, hsame.symm.trans hformat, hbundle, (hchain c "EN" rfl hbundle).trans hformat,
    hmissing, (hnone c ["EN"]).mp hmissing⟩

end Catalogue

end Phrasebook
