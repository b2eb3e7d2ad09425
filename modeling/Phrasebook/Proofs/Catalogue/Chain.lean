import Mathlib
import Phrasebook.Catalogue
import Phrasebook.Locale.Builtin
import Phrasebook.Proofs.Keyed

/-!
# Which locales of a list count

The tags of a list may be invalid, spelled in several ways, repeated, or name locales that
are not loaded. What counts is the list of loaded locales, each where it is mentioned first. If
there is none, nothing is found; only callers that give no tags at all are answered along the
fallback. The ids of messages along a chain are those of its bundles, sorted and without
repetition.

## Main definitions

* `Catalogue.loadedTags`: the tags of a list that count.
* `Catalogue.SameAnswers`: two lists of locales for which all questions have the same answer.
-/

namespace Phrasebook

/-! ## Sorted texts without repetitions -/

theorem mem_eraseReps_loop {x a : String} {as acc : List String} :
    x ∈ List.eraseRepsBy.loop (· == ·) a as acc ↔ x = a ∨ x ∈ as ∨ x ∈ acc := by
  induction as generalizing a acc with
  | nil => simp [List.eraseRepsBy.loop, or_comm]
  | cons b as ih =>
    rw [List.eraseRepsBy.loop]
    split
    · next h =>
      obtain rfl : a = b := by simpa using h
      grind
    · grind

theorem mem_eraseReps {x : String} {as : List String} : x ∈ as.eraseReps ↔ x ∈ as := by
  cases as with
  | nil => rfl
  | cons a as => simp [List.eraseReps, List.eraseRepsBy, mem_eraseReps_loop]

/-- The texts that were put aside are smaller than the current one, which is not greater than
any of those that follow. -/
theorem pairwise_eraseReps_loop {a : String} {as acc : List String}
    (hacc : (acc.reverse ++ [a]).Pairwise (· < ·)) (has : (a :: as).Pairwise (· ≤ ·)) :
    (List.eraseRepsBy.loop (· == ·) a as acc).Pairwise (· < ·) := by
  induction as generalizing a acc with
  | nil => simpa [List.eraseRepsBy.loop] using hacc
  | cons b as ih =>
    obtain ⟨hle, htail⟩ := List.pairwise_cons.mp has
    rw [List.eraseRepsBy.loop]
    split
    · exact ih hacc (List.pairwise_cons.mpr
        ⟨fun x hx => hle x (.tail _ hx), (List.pairwise_cons.mp htail).2⟩)
    · next h =>
      have hlt : a < b := lt_of_le_of_ne (hle b (.head _)) (by simpa using h)
      apply ih _ htail
      rw [List.reverse_cons, List.pairwise_append]
      refine ⟨hacc, List.pairwise_singleton _ _, ?_⟩
      intro x hx y hy
      obtain rfl := List.mem_singleton.mp hy
      rcases List.mem_append.mp hx with hx | hx
      · have hxa : x < a := (List.pairwise_append.mp hacc).2.2 x hx a (.head _)
        exact hxa.trans hlt
      · rwa [List.mem_singleton.mp hx]

theorem pairwise_eraseReps {as : List String} (h : as.Pairwise (· ≤ ·)) :
    as.eraseReps.Pairwise (· < ·) := by
  cases as with
  | nil => exact .nil
  | cons a as => exact pairwise_eraseReps_loop (by simp) h

theorem pairwise_mergeSort_texts (as : List String) :
    (as.mergeSort fun a b => a ≤ b).Pairwise (· ≤ ·) := by
  have hsorted := @List.pairwise_mergeSort _ (fun a b : String => decide (a ≤ b))
    (by simpa using fun a b c => String.le_trans) (by simpa using String.le_total) as
  simpa using hsorted

namespace Catalogue

variable {c c' : Catalogue} {locales locales' : List String}

/-! ## First bundles -/

theorem firsts_filter (k : String) (bs : List Bundle) :
    firsts (bs.filter fun b => b.locale != k) = (firsts bs).filter fun b => b.locale != k := by
  induction bs with
  | nil => rfl
  | cons b bs ih =>
    rw [firsts, List.filter_cons, List.filter_cons]
    split
    · rw [firsts, ih, List.filter_comm]
    · next h =>
      -- The filter for the locale of the bundle that is left out was there already.
      obtain rfl : b.locale = k := by simpa using h
      simp [ih]

theorem firsts_firsts (bs : List Bundle) : firsts (firsts bs) = firsts bs := by
  induction bs with
  | nil => rfl
  | cons b bs ih => simp [firsts, firsts_filter, ih]

theorem mem_of_mem_firsts {b : Bundle} {bs : List Bundle} (h : b ∈ firsts bs) : b ∈ bs := by
  induction bs with
  | nil => exact h
  | cons first bs ih =>
    rcases List.mem_cons.mp h with rfl | h
    · exact .head _
    · exact .tail _ (ih (List.mem_of_mem_filter h))

/-- Every locale is kept. -/
theorem exists_mem_firsts {b : Bundle} {bs : List Bundle} (h : b ∈ bs) :
    ∃ first ∈ firsts bs, first.locale = b.locale := by
  induction bs with
  | nil => cases h
  | cons first bs ih =>
    rw [firsts]
    by_cases hlocale : b.locale = first.locale
    · exact ⟨first, .head _, hlocale.symm⟩
    · rcases List.mem_cons.mp h with rfl | h
      · exact absurd rfl hlocale
      · obtain ⟨kept, hkept, hsame⟩ := ih h
        exact ⟨kept, .tail _ (List.mem_filter.mpr ⟨hkept, by simpa [hsame]⟩), hsame⟩

theorem filterMap_find?_ne (bundles : List Bundle) (tag : String) (tags : List String) :
    (tags.filter fun other => !other == tag).filterMap (Keyed.find? · bundles) =
      (tags.filterMap (Keyed.find? · bundles)).filter fun b => b.locale != tag := by
  induction tags with
  | nil => rfl
  | cons other tags ih =>
    cases hfind : Keyed.find? other bundles with
    | none => by_cases h : other = tag <;> simp_all
    | some b =>
      have hlocale : b.locale = other := Keyed.key_of_find? hfind
      by_cases h : other = tag <;> simp_all

/-- To keep the first bundle of each locale is to keep the first of equal tags. -/
theorem firsts_filterMap_find? (bundles : List Bundle) (tags : List String) :
    firsts (tags.filterMap (Keyed.find? · bundles)) =
      tags.eraseDups.filterMap (Keyed.find? · bundles) := by
  induction hn : tags.length using Nat.strong_induction_on generalizing tags with
  | _ n ih =>
    cases tags with
    | nil => rfl
    | cons tag tags =>
      have hlength := List.length_filter_le (fun other => !other == tag) tags
      have hrest := ih _ (by grind) (tags.filter fun other => !other == tag) rfl
      rw [filterMap_find?_ne, firsts_filter] at hrest
      rw [List.eraseDups_cons]
      cases hfind : Keyed.find? tag bundles with
      | none =>
        -- No bundle has the locale, so nothing is left out.
        have hall : ∀ b ∈ firsts (tags.filterMap (Keyed.find? · bundles)), b.locale != tag := by
          intro b hb
          obtain ⟨other, -, hother⟩ := List.mem_filterMap.mp (mem_of_mem_firsts hb)
          have hlocale : b.locale = other := Keyed.key_of_find? hother
          grind
        simp only [List.filterMap_cons, hfind]
        rw [← hrest, List.filter_eq_self.mpr hall]
      | some b =>
        have hlocale : b.locale = tag := Keyed.key_of_find? hfind
        simp only [List.filterMap_cons, hfind]
        rw [firsts, hlocale, hrest]

/-! ## Tags that count -/

section

variable [LocaleData]

/-- The tags of a list in their one spelling, as far as they are valid and loaded, each where it
occurs first. -/
def loadedTags (c : Catalogue) (locales : List String) : List String :=
  ((locales.filterMap Locale.canonical?).filter fun tag =>
    (Keyed.find? tag c.bundles).isSome).eraseDups

theorem bundle?_eq (c : Catalogue) :
    c.bundle? = fun tag => (Locale.canonical? tag).bind (Keyed.find? · c.bundles) := rfl

theorem filterMap_find?_loadedTags (c : Catalogue) (locales : List String) :
    (c.loadedTags locales).filterMap (Keyed.find? · c.bundles) =
      firsts (locales.filterMap c.bundle?) := by
  have hloaded : ∀ tags : List String,
      (tags.filter fun tag => (Keyed.find? tag c.bundles).isSome).filterMap
        (Keyed.find? · c.bundles) = tags.filterMap (Keyed.find? · c.bundles) := by
    intro tags
    rw [List.filterMap_filter]
    refine List.filterMap_congr fun tag _ => ?_
    cases Keyed.find? tag c.bundles <;> rfl
  rw [loadedTags, ← firsts_filterMap_find?, hloaded, List.filterMap_filterMap, bundle?_eq]

theorem chain_of_ne_nil (h : locales ≠ []) :
    c.chain locales = firsts (locales.filterMap c.bundle?) := by
  rw [chain, if_neg (by simpa using h)]

theorem chain_nil (c : Catalogue) : c.chain [] = c.chain c.fallback := by
  by_cases h : c.fallback = [] <;> simp [chain, h]

theorem mem_of_mem_loadedTags {tag : String} (h : tag ∈ c.loadedTags locales) :
    ∃ spelling ∈ locales, Locale.canonical? spelling = some tag := by
  have hmem := List.mem_of_mem_filter (List.mem_eraseDups.mp h)
  exact List.mem_filterMap.mp hmem

/-- The tags that count have the chain of the whole list, if their spelling is the one that
they are given themselves. -/
theorem chain_loadedTags
    (hcanonical : ∀ tag ∈ locales, ∀ locale, Locale.canonical? tag = some locale →
      Locale.canonical? locale = some locale)
    (hlocales : locales ≠ []) (hloaded : c.loadedTags locales ≠ []) :
    c.chain locales = c.chain (c.loadedTags locales) := by
  have hfind : (c.loadedTags locales).filterMap c.bundle? =
      (c.loadedTags locales).filterMap (Keyed.find? · c.bundles) := by
    refine List.filterMap_congr fun tag htag => ?_
    obtain ⟨spelling, hspelling, htag⟩ := mem_of_mem_loadedTags htag
    simp only [bundle?_eq, hcanonical spelling hspelling tag htag, Option.bind_some]
  rw [chain_of_ne_nil hlocales, chain_of_ne_nil hloaded, hfind, filterMap_find?_loadedTags,
    firsts_firsts]

theorem chain_of_loadedTags_nil (hlocales : locales ≠ []) (hloaded : c.loadedTags locales = []) :
    c.chain locales = [] := by
  rw [chain_of_ne_nil hlocales, ← filterMap_find?_loadedTags, hloaded, List.filterMap_nil]

theorem chain_unloaded (c : Catalogue) (locales : List String) :
    { c with bundles := [] }.chain locales = [] := by
  have hnone : ∀ tags : List String, tags.filterMap { c with bundles := [] }.bundle? = [] := by
    intro tags
    simp [bundle?_eq]
  rw [chain, hnone, firsts]

/-! ## Answers -/

/-- Two lists of locales, each for a catalogue, for which every question has the same answer. -/
structure SameAnswers (c : Catalogue) (locales : List String) (c' : Catalogue)
    (locales' : List String) : Prop where
  hasMessage : ∀ id, c.hasMessage locales id = c'.hasMessage locales' id
  messageIds : c.messageIds locales = c'.messageIds locales'
  format : ∀ id args, c.format locales id args = c'.format locales' id args
  formatMessage : ∀ id args, c.formatMessage locales id args = c'.formatMessage locales' id args

/-- All answers come from the chain. -/
theorem SameAnswers.of_chain (hdepth : c.maxDepth = c'.maxDepth)
    (hchain : c.chain locales = c'.chain locales') : SameAnswers c locales c' locales' := by
  have hformat : ∀ id args, c.format locales id args = c'.format locales' id args := by
    intro id args
    simp only [Catalogue.format, hchain, hdepth]
  refine ⟨fun id => ?_, ?_, hformat, fun id args => ?_⟩
  · simp only [Catalogue.hasMessage, hchain]
  · simp only [Catalogue.messageIds, hchain]
  · rw [Catalogue.formatMessage, hformat, Catalogue.formatMessage]

theorem pairwise_messageIds (c : Catalogue) (locales : List String) :
    (c.messageIds locales).Pairwise (· < ·) :=
  pairwise_eraseReps (pairwise_mergeSort_texts _)

theorem bundle?_locale {tag : String} {b : Bundle} (h : c.bundle? tag = some b) :
    Keyed.find? b.locale c.bundles = some b := by
  obtain ⟨locale, -, hfind⟩ := Option.bind_eq_some_iff.mp h
  have hlocale : b.locale = locale := Keyed.key_of_find? hfind
  rwa [hlocale]

/-- No bundle is lost in the chain: tags with the same locale lead to the same bundle. -/
theorem mem_chain {b : Bundle} :
    b ∈ c.chain locales ↔
      ∃ tag ∈ if locales = [] then c.fallback else locales, c.bundle? tag = some b := by
  simp only [chain, List.isEmpty_iff]
  constructor
  · intro h
    exact List.mem_filterMap.mp (mem_of_mem_firsts h)
  · rintro ⟨tag, htag, hb⟩
    obtain ⟨first, hfirst, hlocale⟩ := exists_mem_firsts (List.mem_filterMap.mpr ⟨tag, htag, hb⟩)
    obtain ⟨other, -, hother⟩ := List.mem_filterMap.mp (mem_of_mem_firsts hfirst)
    have hsame : some first = some b := by
      rw [← bundle?_locale hother, ← bundle?_locale hb, hlocale]
    rwa [← Option.some.inj hsame]

theorem mem_messageIds {id : String} :
    id ∈ c.messageIds locales ↔ ∃ b ∈ c.chain locales, id ∈ b.messages.map Message.id := by
  simp only [messageIds, mem_eraseReps, List.mem_mergeSort, List.mem_flatMap, Bundle.messageIds]

/-- A list of locales is answered as the list of its tags that count, if there are any, where
the one spelling of a tag is taken to be its own. If there are none, it is answered as if nothing
were loaded, whatever the fallback is. Only for the empty list the fallback is answered. The ids
of messages come in strictly ascending order, and they are those of all bundles along the
list. -/
theorem answers_of_loadedTags (c : Catalogue) (locales : List String) :
    ((∀ tag ∈ locales, ∀ locale, Locale.canonical? tag = some locale →
        Locale.canonical? locale = some locale) →
      locales ≠ [] → c.loadedTags locales ≠ [] →
        SameAnswers c locales c (c.loadedTags locales)) ∧
    (locales ≠ [] → c.loadedTags locales = [] →
      ∀ locales', SameAnswers c locales { c with bundles := [] } locales') ∧
    SameAnswers c [] c c.fallback ∧
    (c.messageIds locales).Pairwise (· < ·) ∧
    ∀ id, id ∈ c.messageIds locales ↔
      ∃ tag ∈ if locales = [] then c.fallback else locales,
        ∃ b, c.bundle? tag = some b ∧ id ∈ b.messages.map Message.id := by
  refine ⟨fun hcanonical hlocales hloaded => ?_, fun hlocales hloaded locales' => ?_, ?_, ?_, ?_⟩
  · exact .of_chain rfl (chain_loadedTags hcanonical hlocales hloaded)
  · refine .of_chain rfl ?_
    rw [chain_of_loadedTags_nil hlocales hloaded, chain_unloaded]
  · exact .of_chain rfl (chain_nil c)
  · exact pairwise_messageIds c locales
  · intro id
    rw [mem_messageIds]
    grind [mem_chain]

end

/-- Two locales with a fallback that has everything. -/
def signs : Catalogue :=
  { fallback := ["de"]
    bundles := [
      ⟨"de",
        [⟨"open", some [.text "offen"], [], none⟩, ⟨"closed", some [.text "zu"], [], none⟩], []⟩,
      ⟨"en", [⟨"open", some [.text "open"], [], none⟩], []⟩] }

open Builtin

/-- Of five tags, one is invalid, one is not loaded and two are the same. -/
theorem answers_of_loadedTags_signs :
    let locales := ["fr", "EN", "?", "de", "en"]
    signs.loadedTags locales = ["en", "de"] ∧
      SameAnswers signs locales signs ["en", "de"] ∧
      signs.formatMessage ["en", "de"] "open" [] = .ok (some "open") ∧
      signs.loadedTags ["fr", "?"] = [] ∧
      SameAnswers signs ["fr", "?"] { signs with bundles := [] } [] := by
  intro locales
  have hfr : Locale.canonical? "fr" = some "fr" := by cbv
  have hupper : Locale.canonical? "EN" = some "en" := by cbv
  have hinvalid : Locale.canonical? "?" = none := by cbv
  have hde : Locale.canonical? "de" = some "de" := by cbv
  have hen : Locale.canonical? "en" = some "en" := by cbv
  have hcanonical : ∀ tag ∈ locales, ∀ locale, Locale.canonical? tag = some locale →
      Locale.canonical? locale = some locale := by
    simp [locales, hfr, hupper, hinvalid, hde, hen]
  have hloaded : signs.loadedTags locales = ["en", "de"] := by
    simp only [locales, loadedTags, List.filterMap, hfr, hupper, hinvalid, hde, hen]
    decide
  have hunloaded : signs.loadedTags ["fr", "?"] = [] := by
    simp only [loadedTags, List.filterMap, hfr, hinvalid]
    decide
  have hsame := (answers_of_loadedTags signs locales).1 hcanonical (by simp [locales])
    (by simp [hloaded])
  rw [hloaded] at hsame
  refine ⟨hloaded, hsame, by cbv, hunloaded, ?_⟩
  exact (answers_of_loadedTags signs ["fr", "?"]).2.1 (by simp) hunloaded []

end Catalogue

end Phrasebook
