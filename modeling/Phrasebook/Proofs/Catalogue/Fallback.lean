import Mathlib
import Phrasebook.Catalogue
import Phrasebook.Locale.Builtin
import Phrasebook.Proofs.Formatting.Lockstep

/-!
# Longer chains

Locales that are added behind a chain are asked last. What the chain has is taken from it as
before, by callers and by references at every depth. So a text that was formatted without an
unknown message or term is formatted in the same way along the longer chain, with the same
faults, even where a locale behind it could have helped with these.
-/

namespace Phrasebook.Catalogue

variable {c : Catalogue} {locales : List String} {chain longer : List Bundle}

/-! ## Chains -/

theorem firsts_isPrefix (bundles more : List Bundle) :
    firsts bundles <+: firsts (bundles ++ more) := by
  induction bundles with
  | nil => exact List.nil_prefix
  | cons b bundles ih =>
    rw [List.cons_append, firsts, firsts, List.cons_prefix_cons]
    exact ⟨rfl, ih.filter _⟩

theorem chain_isPrefix [LocaleData] (h : locales ≠ []) (more : List String) :
    c.chain locales <+: c.chain (locales ++ more) := by
  have hmore : locales ++ more ≠ [] := List.append_ne_nil_of_left_ne_nil h more
  rw [chain, chain, if_neg (by simpa using h), if_neg (by simpa using hmore),
    List.filterMap_append]
  exact firsts_isPrefix _ _

theorem findPattern?_of_isPrefix {r : Reference} {found : Bundle × Pattern} (h : chain <+: longer)
    (hfound : findPattern? chain r = some found) : findPattern? longer r = some found :=
  h.findSome?_eq_some hfound

theorem chainLookup_extends (h : chain <+: longer) :
    (chainLookup longer).Extends (chainLookup chain) :=
  ⟨h.findSome?_eq_some, h.findSome?_eq_some⟩

/-! ## Formatting -/

section

variable [LocaleData] {id : String} {args : Arguments} {f : Formatted}

theorem found_of_format (h : c.format locales id args = .ok (some f)) :
    ∃ r b p, Reference.parse id = .ok r ∧ findPattern? (c.chain locales) r = some (b, p) := by
  unfold format at h
  split at h
  · cases h
  · next r hparse =>
    dsimp only at h
    split at h
    · cases h
    · next b p hfound => exact ⟨r, b, p, hparse, hfound⟩

/-- What is found is entered like a reference to it. -/
theorem format_of_found {r : Reference} {b : Bundle} {p : Pattern}
    (hparse : Reference.parse id = .ok r)
    (hfound : findPattern? (c.chain locales) r = some (b, p)) (args : Arguments) :
    c.format locales id args =
      let (result, t) := enter (Locale.ofTag b.locale) (chainLookup (c.chain locales)) c.maxDepth
        c.maxDepth r.toText p args {}
      result.map fun value => some ⟨value, t.report⟩ := by
  rw [format, hparse]
  simp only [hfound]
  rfl

/-- What is formatted along a chain without an unknown message or term is formatted in the same
way along a chain with more locales behind it. -/
theorem format_append_locales (c : Catalogue) {locales : List String} (more : List String)
    {id : String} {args : Arguments} {f : Formatted} (hlocales : locales ≠ [])
    (hformat : c.format locales id args = .ok (some f))
    (hmessages : ∀ name, .unknownMessage name ∉ f.faults)
    (hterms : ∀ name, .unknownTerm name ∉ f.faults) :
    c.format (locales ++ more) id args = .ok (some f) := by
  have hchain : c.chain locales <+: c.chain (locales ++ more) := chain_isPrefix hlocales more
  obtain ⟨r, b, p, hparse, hfound⟩ := found_of_format hformat
  rw [format_of_found hparse hfound] at hformat
  rw [format_of_found hparse (findPattern?_of_isPrefix hchain hfound)]
  have hfollows := (chainLookup_extends hchain).follows_enter (Locale.ofTag b.locale) c.maxDepth
    c.maxDepth r.toText p args
  have hagree := hfollows.agree {}
  cases hrun : enter (Locale.ofTag b.locale) (chainLookup (c.chain locales)) c.maxDepth
      c.maxDepth r.toText p args {} with
  | mk result t =>
    rw [hrun] at hformat hagree
    cases result with
    | error e => cases hformat
    | ok value =>
      cases hformat
      have hknown : ∀ fault ∈ t.report, fault.OfKnown := fun fault hfault =>
        ⟨fun name h => hmessages name (h ▸ hfault), fun name h => hterms name (h ▸ hfault)⟩
      rw [hagree hknown]
      rfl

end

open Builtin

/-- The title is missing in German, the term is in English, too, and the locale in front is not
loaded. -/
theorem format_append_locales_login :
    let c : Catalogue := { bundles := [
      ⟨"de", [⟨"login", some [.text "Anmelden"], [], none⟩,
        ⟨"hint", some [.placeable (.inline (.message ⟨"login", some "title"⟩)),
          .text ": ", .placeable (.inline (.term ⟨"brand", none⟩))], [], none⟩],
        [⟨"brand", [.text "Marke"], [], none⟩]⟩,
      ⟨"en", [⟨"login", some [.text "Log in"], [⟨"title", [.text "Sign in"]⟩], none⟩],
        [⟨"brand", [.text "Brand"], [], none⟩]⟩] }
    let f : Formatted := ⟨"\x7blogin.title\x7d: Marke", [.unknownAttribute "login" "title"]⟩
    c.format ["fr", "de"] "hint" [] = .ok (some f) ∧
      c.format ["fr", "de", "en"] "hint" [] = .ok (some f) := by
  intro c f
  have hformat : c.format ["fr", "de"] "hint" [] = .ok (some f) := by cbv
  exact ⟨hformat, format_append_locales c ["en"] (by simp) hformat (by simp [f]) (by simp [f])⟩

end Phrasebook.Catalogue
