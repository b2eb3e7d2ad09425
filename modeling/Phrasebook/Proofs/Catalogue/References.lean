import Phrasebook.Catalogue
import Phrasebook.Locale.Builtin
import Phrasebook.Proofs.Formatting.Report
import Phrasebook.Proofs.Source.Soundness

/-!
# References along a chain

A caller finds a message or an attribute in the first bundle of a chain that has the pattern.
A reference inside a pattern goes to the first bundle that has the message, and takes the
pattern from there. What the reference leads to is what a caller finds. But a bundle that has
the message without the part that is wanted stops the reference, while a caller goes on to the
bundles behind it.

## Main definitions

* `Catalogue.Shadowed`: a part of a message that lies behind a bundle with that message.
-/

namespace Phrasebook

namespace Catalogue

/-- The first bundle that has the message lacks the part that is referred to, which a bundle
behind it has. -/
def Shadowed (chain : List Bundle) (r : Reference) : Prop :=
  ∃ front b back, chain = front ++ b :: back ∧
    (∀ earlier ∈ front, earlier.message? r.id = none) ∧
    b.message? r.id ≠ none ∧ b.pattern? r = none ∧ ∃ later ∈ back, later.pattern? r ≠ none

variable {b : Bundle} {chain : List Bundle} {r : Reference} {p : Pattern}

theorem shadowed_cons :
    Shadowed (b :: chain) r ↔ (b.message? r.id = none ∧ Shadowed chain r) ∨
      (b.message? r.id ≠ none ∧ b.pattern? r = none ∧
        ∃ later ∈ chain, later.pattern? r ≠ none) := by
  constructor
  · rintro ⟨front, first, back, hchain, hfront, hfirst⟩
    cases front with
    | nil =>
      cases hchain
      exact .inr hfirst
    | cons skipped front =>
      cases hchain
      rw [List.forall_mem_cons] at hfront
      exact .inl ⟨hfront.1, front, first, back, rfl, hfront.2, hfirst⟩
  · rintro (⟨hb, front, first, back, rfl, hfront, hfirst⟩ | hfirst)
    · exact ⟨b :: front, first, back, rfl, List.forall_mem_cons.mpr ⟨hb, hfront⟩, hfirst⟩
    · exact ⟨[], b, chain, rfl, by simp, hfirst⟩

/-! ## Two ways along the chain -/

theorem pattern?_of_message {m : Message} (h : b.message? r.id = some m) :
    b.pattern? r = m.pattern? r.attr := by
  simp [Bundle.pattern?, h]

theorem pattern?_of_none (h : b.message? r.id = none) : b.pattern? r = none := by
  simp [Bundle.pattern?, h]

theorem findPattern?_cons :
    findPattern? (b :: chain) r =
      match b.pattern? r with
      | some p => some (b, p)
      | none => findPattern? chain r := by
  rw [findPattern?, List.findSome?_cons]
  cases b.pattern? r <;> rfl

theorem messagePattern_chain_of_message {m : Message} (h : b.message? r.id = some m) :
    (chainLookup (b :: chain)).messagePattern r = .ok p ↔ m.pattern? r.attr = some p := by
  simp [Lookup.messagePattern_eq_ok, chainLookup, h]

theorem messagePattern_chain_of_none (h : b.message? r.id = none) :
    (chainLookup (b :: chain)).messagePattern r = (chainLookup chain).messagePattern r := by
  simp [Lookup.messagePattern, chainLookup, h]

/-- What a reference leads to is what a caller finds. -/
theorem found_of_messagePattern (h : (chainLookup chain).messagePattern r = .ok p) :
    ∃ b, findPattern? chain r = some (b, p) := by
  induction chain with
  | nil => simp [Lookup.messagePattern_eq_ok, chainLookup] at h
  | cons b chain ih =>
    rw [findPattern?_cons]
    cases hm : b.message? r.id with
    | none =>
      rw [messagePattern_chain_of_none hm] at h
      rw [pattern?_of_none hm]
      exact ih h
    | some m =>
      rw [pattern?_of_message hm, (messagePattern_chain_of_message hm).mp h]
      exact ⟨b, rfl⟩

theorem exists_found : (∃ x, findPattern? chain r = some x) ↔ ∃ b ∈ chain, b.pattern? r ≠ none := by
  rw [← Option.isSome_iff_exists, findPattern?, List.findSome?_isSome_iff]
  simp [Option.isSome_iff_ne_none]

/-- What a caller finds is what a reference leads to, unless it is shadowed. -/
theorem messagePattern_of_found (h : findPattern? chain r = some (b, p)) :
    (chainLookup chain).messagePattern r = .ok p ↔ ¬ Shadowed chain r := by
  induction chain with
  | nil => simp [findPattern?] at h
  | cons first chain ih =>
    rw [findPattern?_cons] at h
    rw [shadowed_cons]
    cases hm : first.message? r.id with
    | none =>
      rw [pattern?_of_none hm] at h
      simp [messagePattern_chain_of_none hm, ih h]
    | some m =>
      rw [messagePattern_chain_of_message hm, ← pattern?_of_message hm]
      cases hp : first.pattern? r with
      | some q =>
        rw [hp] at h
        cases h
        simp
      | none =>
        -- The bundle that has the message decides, and the pattern lies behind it.
        rw [hp] at h
        have hlater : ∃ later ∈ chain, later.pattern? r ≠ none := exists_found.mp ⟨_, h⟩
        simpa using hlater

theorem found_of_shadowed (h : Shadowed chain r) : ∃ x, findPattern? chain r = some x := by
  obtain ⟨front, b, back, rfl, -, -, -, later, hlater, hp⟩ := h
  exact exists_found.mpr ⟨later, by simp [hlater], hp⟩

theorem agree_iff_not_shadowed :
    (∀ b p, findPattern? chain r = some (b, p) → (chainLookup chain).messagePattern r = .ok p) ↔
      ¬ Shadowed chain r := by
  constructor
  · intro h hshadowed
    obtain ⟨⟨b, p⟩, hfound⟩ := found_of_shadowed hshadowed
    exact (messagePattern_of_found hfound).mp (h b p hfound) hshadowed
  · intro h b p hfound
    exact (messagePattern_of_found hfound).mpr h

end Catalogue

/-! ## Placeables -/

theorem Rendering.bind_append_nothing (x : Rendering String) :
    (do let first ← x; let rest ← pure ""; return first ++ rest) = x := by
  funext t
  rw [bind_apply]
  split
  · next first t' hrun =>
    rw [hrun]
    exact congrArg (fun text => (Except.ok text, t')) String.append_empty
  · next hrun => rw [hrun]

/-- A pattern that is only a reference is rendered as the pattern that it leads to. -/
theorem Scope.format_reference [LocaleData] {s : Scope} {r : Reference} {p : Pattern}
    (h : s.lookup.messagePattern r = .ok p) (args : Arguments) :
    s.format [.placeable (.inline (.message r))] args = s.formatEntry r.toText p args := by
  have hrender : renderElements (Locale.ofTag s.locale) s.lookup s.enter args
      [.placeable (.inline (.message r))] = s.enter r.toText p args := by
    rw [renderElements, renderElements, Expression.render, Inline.render, h]
    exact Rendering.bind_append_nothing _
  rw [Scope.format, hrender, Scope.formatEntry]

theorem Reference.wellFormed_of_parse {text : String} {r : Reference}
    (h : Reference.parse text = .ok r) : r.WellFormed :=
  Source.yields_reference _ _ _ (Source.complete_eq_ok.mp h).2

namespace Catalogue

section

variable [LocaleData]

/-- The dead ends that are reported are dead ends of the chain. -/
theorem founded_of_format {c : Catalogue} {locales : List String} {id : String}
    {args : Arguments} {f : Formatted} (h : c.format locales id args = .ok (some f)) :
    ∀ fault ∈ f.faults, (chainLookup (c.chain locales)).Founded fault := by
  intro fault hfault
  unfold format at h
  split at h
  · cases h
  · next r hr =>
    dsimp only at h
    split at h
    · cases h
    · next b p hfound =>
      let scope : Scope :=
        { locale := b.locale, lookup := chainLookup (c.chain locales), maxDepth := c.maxDepth }
      have hreport := (Rendering.reports_closed scope.lookup).enter (Locale.ofTag b.locale)
        c.maxDepth c.maxDepth r.toText p args scope.toTrace fault
      cases hresult : (scope.formatEntry r.toText p args).1 with
      | error e =>
        rw [hresult] at h
        cases h
      | ok value =>
        rw [hresult] at h
        cases h
        exact (hreport hfault).resolve_left List.not_mem_nil

theorem hasMessage_eq_true {c : Catalogue} {locales : List String} {text : String} {r : Reference}
    (hr : Reference.parse text = .ok r) :
    c.hasMessage locales text = true ↔ ∃ x, findPattern? (c.chain locales) r = some x := by
  rw [hasMessage, hr]
  exact Option.isSome_iff_exists

/-- What a reference leads to is what a caller finds, and what a caller finds is what a reference
leads to if and only if no bundle of the chain shadows it. Then a placeable with a reference to
a message that is there shows its pattern, and no text that is formatted along the chain has the
reference reported as a dead end. -/
theorem references_agree (c : Catalogue) (locales : List String) (r : Reference) :
    let chain := c.chain locales
    (∀ p, (chainLookup chain).messagePattern r = .ok p →
      ∃ b, findPattern? chain r = some (b, p)) ∧
    ((∀ b p, findPattern? chain r = some (b, p) → (chainLookup chain).messagePattern r = .ok p) ↔
      ¬ Shadowed chain r) ∧
    ∀ text, Reference.parse text = .ok r → c.hasMessage locales text = true →
      ¬ Shadowed chain r →
        (∃ b p, findPattern? chain r = some (b, p) ∧ ∀ s : Scope, s.lookup = chainLookup chain →
          ∀ args, s.format [.placeable (.inline (.message r))] args =
            s.formatEntry r.toText p args) ∧
        ∀ id args f, c.format locales id args = .ok (some f) →
          ∀ fault ∈ r.deadEnds, fault ∉ f.faults := by
  intro chain
  refine ⟨fun p => found_of_messagePattern, agree_iff_not_shadowed, ?_⟩
  intro text hparse hhas hshadowed
  obtain ⟨⟨b, p⟩, hfound⟩ := (hasMessage_eq_true hparse).mp hhas
  have hpattern : (chainLookup chain).messagePattern r = .ok p :=
    (messagePattern_of_found hfound).mpr hshadowed
  refine ⟨⟨b, p, hfound, ?_⟩, ?_⟩
  · intro s hs args
    apply Scope.format_reference
    rwa [hs]
  · intro id args f hformat fault hmem hfault
    have hr := Reference.wellFormed_of_parse hparse
    exact Lookup.not_founded_of_ok hr hpattern hmem (founded_of_format hformat fault hfault)

end

/-- English messages behind some German ones. -/
def signIn (german : List Message) : Catalogue :=
  { bundles := [⟨"de", german, []⟩, ⟨"en", [
      ⟨"login", some [.text "Log in"], [⟨"title", [.text "Sign in"]⟩], none⟩,
      ⟨"hint", some [.placeable (.inline (.message ⟨"login", some "title"⟩))], [], none⟩], []⟩] }

open Builtin

/-- The title is only there in English, and so is the message. -/
theorem references_agree_signIn :
    let c := signIn [⟨"logout", some [.text "Abmelden"], [], none⟩]
    ¬ Shadowed (c.chain ["de", "en"]) ⟨"login", some "title"⟩ ∧
    c.hasMessage ["de", "en"] "login.title" = true ∧
    ∃ f, c.format ["de", "en"] "hint" [] = .ok (some f) ∧
      .unknownAttribute "login" "title" ∉ f.faults := by
  intro c
  have hparse : Reference.parse "login.title" = .ok ⟨"login", some "title"⟩ := by cbv
  have hhas : c.hasMessage ["de", "en"] "login.title" = true := by cbv
  have hformat : c.format ["de", "en"] "hint" [] = .ok (some ⟨"Sign in", []⟩) := by cbv
  have hnested : (chainLookup (c.chain ["de", "en"])).messagePattern ⟨"login", some "title"⟩ =
      .ok [.text "Sign in"] := by cbv
  obtain ⟨b, hfound⟩ := found_of_messagePattern hnested
  have hshadowed := (messagePattern_of_found hfound).mp hnested
  have hagree := references_agree c ["de", "en"] ⟨"login", some "title"⟩
  obtain ⟨-, hfaults⟩ := hagree.2.2 _ hparse hhas hshadowed
  exact ⟨hshadowed, hhas, _, hformat, hfaults _ _ _ hformat _ (by simp [Reference.deadEnds])⟩

/-- A message that is translated without its title shadows the title. -/
theorem references_agree_shadowed :
    let c := signIn [⟨"login", some [.text "Anmelden"], [], none⟩]
    c.hasMessage ["de", "en"] "login.title" = true ∧
    c.format ["de", "en"] "login.title" [] = .ok (some ⟨"Sign in", []⟩) ∧
    c.format ["de", "en"] "hint" [] =
      .ok (some ⟨"\x7blogin.title\x7d", [.unknownAttribute "login" "title"]⟩) := by
  refine ⟨by cbv, by cbv, by cbv⟩

end Catalogue

end Phrasebook
