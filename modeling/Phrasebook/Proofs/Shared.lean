import Phrasebook.Locale.Builtin
import Phrasebook.Proofs.Catalogue.Replay
import Phrasebook.Shared

/-!
# The shared catalogue is one catalogue

Until a catalogue is installed or a text is added, whoever asks gets no answer. From then on
everything is answered as by a catalogue in the hands of one owner, who makes the additions that
succeed and nothing else; to install another one is refused. An addition that fails changes
nothing in the catalogue that is installed. Where there was none, it leaves a plain one behind.

## Main definitions

* `Shared.Step`: what may be done with the shared catalogue.
* `Shared.after`: the shared catalogue after some steps.
* `Catalogue.afterSteps`, `Catalogue.answer`: the catalogue of an owner who takes the same steps,
  and its answers.
-/

namespace Phrasebook

namespace Shared

inductive Step : Type 1 where
  | install (c : Catalogue)
  | isInstalled
  | addText (tag text : String)
  | format (locales : List String) (id : String) (args : Arguments)
  | withCatalogue (α : Type) (f : Catalogue → α)

namespace Step

def Answer : Step → Type
  | .install _ => Option Catalogue
  | .isInstalled => Bool
  | .addText _ _ => Except LoadError (List Warning)
  | .format _ _ _ => Option String
  | .withCatalogue α _ => Option α

/-- Steps that only ask. -/
def Asks : Step → Prop
  | .install _ => False
  | .addText _ _ => False
  | _ => True

/-- What is answered to those who ask while there is no catalogue. -/
def Unanswered : (step : Step) → step.Answer → Prop
  | .install _, _ => False
  | .isInstalled, answer => answer = false
  | .addText _ _, _ => False
  | .format _ _ _, answer => answer = none
  | .withCatalogue _ _, answer => answer = none

/-- The answer to a step that installs or adds, and succeeds. -/
def Succeeds : (step : Step) → step.Answer → Prop
  | .install _, refused => refused = none
  | .isInstalled, _ => False
  | .addText _ _, answer => ∃ warnings, answer = .ok warnings
  | .format _ _ _, _ => False
  | .withCatalogue _ _, _ => False

/-- The catalogue that is there after a step where there was none, and the answer to the step:
the catalogue that was given, or a plain one with the text added. -/
def Opens [LocaleData] : (step : Step) → Catalogue → step.Answer → Prop
  | .install given, c, refused => c = given ∧ refused = none
  | .isInstalled, _, _ => False
  | .addText tag text, c, answer => ({} : Catalogue).addText tag text = (c, answer)
  | .format _ _ _, _, _ => False
  | .withCatalogue _ _, _, _ => False

end Step

section

variable [LocaleData]

def perform (s : Shared) : (step : Step) → Shared × step.Answer
  | .install c => s.install c
  | .isInstalled => (s, s.isInstalled)
  | .addText tag text => s.addText tag text
  | .format locales id args => (s, s.format locales id args)
  | .withCatalogue _ f => (s, s.withCatalogue f)

def after (s : Shared) (steps : List Step) : Shared :=
  steps.foldl (fun s step => (s.perform step).1) s

@[simp] theorem after_nil (s : Shared) : s.after [] = s := rfl

@[simp] theorem after_cons (s : Shared) (step : Step) (steps : List Step) :
    s.after (step :: steps) = (s.perform step).1.after steps := rfl

theorem after_append (s : Shared) (steps more : List Step) :
    s.after (steps ++ more) = (s.after steps).after more := by
  simp [after, List.foldl_append]

end

end Shared

namespace Catalogue

open Shared

variable [LocaleData]

/-- An owner makes an addition if it succeeds, and changes nothing in any other step. -/
def afterStep (c : Catalogue) : Step → Catalogue
  | .addText tag text =>
    match c.addText tag text with
    | (added, .ok _) => added
    | (_, .error _) => c
  | _ => c

def afterSteps (c : Catalogue) (steps : List Step) : Catalogue :=
  steps.foldl afterStep c

/-- What the owner of a catalogue answers to a step. Nobody can install another one. -/
def answer (c : Catalogue) : (step : Step) → step.Answer
  | .install given => some given
  | .isInstalled => true
  | .addText tag text => (c.addText tag text).2
  | .format locales id args =>
    match c.formatMessage locales id args with
    | .ok text => text
    | .error _ => none
  | .withCatalogue _ f => some (f c)

theorem addText_unchanged {c : Catalogue} {tag text : String} {e : LoadError}
    (h : (c.addText tag text).2 = .error e) : (c.addText tag text).1 = c :=
  add_unchanged (a := .text tag text) h

theorem afterStep_addText (c : Catalogue) (tag text : String) :
    c.afterStep (.addText tag text) = (c.addText tag text).1 := by
  rw [afterStep]
  split
  · next hadd => rw [hadd]
  · next hadd => exact (addText_unchanged (congrArg Prod.snd hadd)).symm

end Catalogue

namespace Shared

section

variable [LocaleData] {s : Shared} {c : Catalogue}

/-! ## Before a catalogue is installed -/

theorem perform_asks {step : Step} (h : step.Asks) : (s.perform step).1 = s := by
  cases step with
  | install c => exact h.elim
  | addText tag text => exact h.elim
  | isInstalled => rfl
  | format locales id args => rfl
  | withCatalogue α f => rfl

theorem after_asks {steps : List Step} (h : ∀ step ∈ steps, step.Asks) : s.after steps = s := by
  induction steps with
  | nil => rfl
  | cons step steps ih =>
    rw [List.forall_mem_cons] at h
    rw [after_cons, perform_asks h.1, ih h.2]

theorem unanswered_perform {step : Step} (h : step.Asks) :
    step.Unanswered (({} : Shared).perform step).2 := by
  cases step with
  | install c => exact h
  | addText tag text => exact h
  | isInstalled => rfl
  | format locales id args => rfl
  | withCatalogue α f => rfl

theorem exists_opens {first : Step} (h : first.Succeeds (({} : Shared).perform first).2) :
    ∃ c, first.Opens c (({} : Shared).perform first).2 ∧
      (({} : Shared).perform first).1 = ⟨some c⟩ := by
  cases first with
  | install c => exact ⟨c, ⟨rfl, rfl⟩, rfl⟩
  | addText tag text => exact ⟨(({} : Catalogue).addText tag text).1, rfl, rfl⟩
  | isInstalled => exact h.elim
  | format locales id args => exact h.elim
  | withCatalogue α f => exact h.elim

/-! ## While a catalogue is installed -/

/-- A step finds the catalogue of the owner and leaves the catalogue of the owner. -/
theorem perform_installed (c : Catalogue) (step : Step) :
    Shared.perform ⟨some c⟩ step = (⟨some (c.afterStep step)⟩, c.answer step) := by
  cases step with
  | addText tag text =>
    rw [Catalogue.afterStep_addText]
    rfl
  | install given => rfl
  | isInstalled => rfl
  | format locales id args => rfl
  | withCatalogue α f => rfl

theorem after_installed (c : Catalogue) (steps : List Step) :
    Shared.after ⟨some c⟩ steps = ⟨some (c.afterSteps steps)⟩ := by
  induction steps generalizing c with
  | nil => rfl
  | cons step steps ih =>
    rw [after_cons, perform_installed, ih]
    rfl

/-- While steps only ask, nothing is answered. The first step that installs or adds leaves, if it
succeeds, the catalogue that was given, or a plain one with the text added. From then on the
shared catalogue is that of an owner who makes the same additions, and answers every step as this
owner does; whoever wants to install a catalogue gets it back, and nothing changes. -/
theorem perform_after_first {before : List Step} {first : Step}
    (hbefore : ∀ step ∈ before, step.Asks)
    (hfirst : first.Succeeds ((({} : Shared).after before).perform first).2) :
    (∀ earlier, earlier <+: before → ∀ step : Step, step.Asks →
      step.Unanswered ((({} : Shared).after earlier).perform step).2) ∧
    ∃ c, first.Opens c ((({} : Shared).after before).perform first).2 ∧
      ∀ later step,
        let s := ({} : Shared).after (before ++ first :: later)
        let own := c.afterSteps later
        s.installed = some own ∧ (s.perform step).2 = own.answer step ∧
          ∀ given, s.install given = (s, some given) := by
  have hstart := after_asks (s := {}) hbefore
  rw [hstart] at hfirst ⊢
  obtain ⟨c, hopens, hinstalled⟩ := exists_opens hfirst
  refine ⟨fun earlier hearlier step hasks => ?_, c, hopens, fun later step => ?_⟩
  · rw [after_asks fun asked hasked => hbefore asked (hearlier.subset hasked)]
    exact unanswered_perform hasks
  · have hafter : ({} : Shared).after (before ++ first :: later) = ⟨some (c.afterSteps later)⟩ := by
      rw [after_append, hstart, after_cons, hinstalled, after_installed]
    simp only [hafter, perform_installed, install, implies_true, and_self]

end

section

open Builtin

/-- A German text is added where no catalogue is installed. Later another catalogue is refused,
and so is a text. -/
theorem perform_after_first_german :
    let before : List Step := [.isInstalled, .format ["de"] "a" []]
    let first : Step := .addText "de" "a = Ja\n"
    let s := ({} : Shared).after
      (before ++ first :: [.install { strict := true }, .addText "?" "a = Nein\n"])
    (∀ step ∈ before, step.Asks) ∧
      first.Succeeds ((({} : Shared).after before).perform first).2 ∧
      (s.perform (.format ["de"] "a" [])).2 = some "Ja" ∧ s.install {} = (s, some {}) := by
  intro before first s
  have hasks : ∀ step ∈ before, step.Asks := by simp [before, Step.Asks]
  have hfirst : first.Succeeds ((({} : Shared).after before).perform first).2 := ⟨[], by cbv⟩
  obtain ⟨-, c, hopens, hlater⟩ := perform_after_first hasks hfirst
  obtain ⟨-, hanswer, hinstall⟩ := hlater
    [.install { strict := true }, .addText "?" "a = Nein\n"] (.format ["de"] "a" [])
  obtain rfl : (({} : Catalogue).addText "de" "a = Ja\n").1 = c := congrArg Prod.fst hopens
  exact ⟨hasks, hfirst, hanswer.trans (by cbv), hinstall {}⟩

end

/-! ## Additions that fail -/

section

variable [LocaleData]

theorem addText_of_error {s : Shared} {tag text : String} {e : LoadError}
    (h : (s.addText tag text).2 = .error e) :
    (s.addText tag text).1 = ⟨some (s.installed.getD {})⟩ :=
  congrArg (fun c => Shared.mk (some c)) (Catalogue.addText_unchanged h)

/-- An addition that fails changes nothing where a catalogue is installed. Where there is none, it
leaves a plain one without bundles behind, and no other one can be installed. -/
theorem addText_refused {steps : List Step} {tag text : String} {e : LoadError}
    (h : ((({} : Shared).after steps).addText tag text).2 = .error e) :
    let s := ({} : Shared).after steps
    let left := (s.addText tag text).1
    (s.isInstalled = true → left = s) ∧
      (s.isInstalled = false → left = ⟨some {}⟩ ∧ ∀ c, left.install c = (left, some c)) := by
  intro s left
  have hleft : left = ⟨some (s.installed.getD {})⟩ := addText_of_error h
  rw [hleft]
  obtain ⟨installed⟩ := s
  cases installed with
  | none => exact ⟨nofun, fun _ => ⟨rfl, fun _ => rfl⟩⟩
  | some c => exact ⟨fun _ => rfl, nofun⟩

end

open Builtin

theorem addText_refused_german :
    let s := ({} : Shared).after [.addText "de" "a = Ja\n"]
    (s.addText "?" "a = b\n").2 = .error (.invalidLocale "?") ∧ s.isInstalled = true ∧
      (s.addText "?" "a = b\n").1 = s := by
  intro s
  have herror : (s.addText "?" "a = b\n").2 = .error (.invalidLocale "?") := by cbv
  have hinstalled : s.isInstalled = true := by cbv
  exact ⟨herror, hinstalled, (addText_refused herror).1 hinstalled⟩

/-- Where no catalogue is installed, an addition that fails is seen: there is a catalogue
afterwards, and one that could be installed before is refused. -/
theorem addText_refused_uninstalled :
    let s : Shared := {}
    let left := (s.addText "?" "a = b\n").1
    (s.addText "?" "a = b\n").2 = .error (.invalidLocale "?") ∧ left ≠ s ∧
      s.isInstalled = false ∧ left.isInstalled = true ∧
      ∀ c, (s.install c).2 = none ∧ (left.install c).2 = some c := by
  intro s left
  have herror : (s.addText "?" "a = b\n").2 = .error (.invalidLocale "?") := by cbv
  have hleft : left = ⟨some {}⟩ := addText_of_error herror
  rw [hleft]
  exact ⟨herror, by simp [s], rfl, rfl, fun c => ⟨rfl, rfl⟩⟩

end Shared

end Phrasebook
