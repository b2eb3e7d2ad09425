import Mathlib
import Phrasebook.Proofs.Formatting.Dependence
import Phrasebook.Proofs.Formatting.Lockstep

/-!
# Missing arguments

Nothing but a missing argument ends a formatting call. More arguments than were needed change
nothing. An argument that is found missing has not been given, or it is mentioned behind a term
reference, where none is given. So a pattern is formatted to some text if all arguments in reach
are given and terms need none, whatever else is wrong with its references.

## Main definitions

* `Arguments.Extends`: a list of arguments that has all values of another one.
* `Rendering.Upholds`: a rendering that has every result of another one.
* `Rendering.Misses`: the arguments that a rendering may find missing.
* `Lookup.ReachesByTerm`: the patterns that references lead to behind a term reference.
-/

namespace Phrasebook

/-! ## More arguments -/

/-- The larger list has the same values for the names of the other one. -/
def Arguments.Extends (larger args : Arguments) : Prop :=
  ∀ {name v}, args.get? name = some v → larger.get? name = some v

theorem Arguments.extends_append (args more : Arguments) :
    Arguments.Extends (args ++ more) args := by
  intro name v h
  obtain ⟨arg, harg, rfl⟩ := Option.map_eq_some_iff.mp h
  unfold Keyed.find? at harg
  simp only [Arguments.get?, Keyed.find?, List.find?_append, harg, Option.some_or, Option.map_some]

namespace Rendering

variable {α β : Type} {x y : Rendering α} {f g : α → Rendering β}

/-- If the first rendering has a result, so has the second one, and leaves the same trace. -/
def Upholds (x y : Rendering α) : Prop :=
  ∀ t a t', x t = (.ok a, t') → y t = (.ok a, t')

theorem Upholds.bind (hx : Upholds x y) (hf : ∀ a, Upholds (f a) (g a)) :
    Upholds (x >>= f) (y >>= g) := by
  intro t b t' h
  rw [bind_apply] at h ⊢
  cases hrun : x t with
  | mk result t₁ =>
    rw [hrun] at h
    cases result with
    | ok a =>
      rw [hx t a t₁ hrun]
      exact hf a t₁ b t' h
    | error e => cases h

theorem Upholds.within (hx : Upholds x y) (key : String) :
    Upholds (x.within key) (y.within key) := by
  intro t a t' h
  simp only [Rendering.within] at h ⊢
  cases hrun : x { t with stack := t.stack ++ [key] } with
  | mk result t₁ =>
    rw [hrun] at h
    obtain ⟨rfl, rfl⟩ := Prod.mk.inj h
    rw [hx _ a t₁ hrun]

theorem upholds_congruence : Congruence Upholds where
  refl _ := fun _ _ _ h => h
  bind := .bind
  within key hx := hx.within key

theorem Upholds.argument {args larger : Arguments} (h : larger.Extends args) (name : String) :
    Upholds (argument args name) (argument larger name) := by
  unfold Rendering.argument
  cases hname : args.get? name with
  | some v =>
    rw [h hname]
    exact fun _ _ _ h => h
  | none =>
    intro t a t' hrun
    cases hrun

end Rendering

open Rendering

section

variable (l : Locale) (lookup : Lookup) {enter : Enter} {args larger : Arguments}

theorem upholds_elements (h : larger.Extends args)
    (henter : ∀ key q, Upholds (enter key q args) (enter key q larger)) (p : Pattern) :
    Upholds (renderElements l lookup enter args p) (renderElements l lookup enter larger p) := by
  refine upholds_congruence.elements (upholds_congruence.alike l lookup ?_ henter ?_) p
  · exact Upholds.argument h
  · -- Terms are without arguments either way.
    exact fun _ _ _ _ _ h => h

theorem upholds_enter (h : larger.Extends args) (maxDepth levels : Nat) (key : String)
    (p : Pattern) :
    Upholds (Phrasebook.enter l lookup maxDepth levels key p args)
      (Phrasebook.enter l lookup maxDepth levels key p larger) := by
  induction levels generalizing key p with
  | zero => exact fun _ _ _ h => h
  | succ levels ih =>
    refine .bind (fun _ _ _ h => h) fun stack => ?_
    split
    · exact fun _ _ _ h => h
    · exact .within (upholds_elements l lookup h ih p) key

end

/-! ## Behind term references -/

/-- The patterns that terms lead to, and all patterns that references lead to from there. -/
inductive Lookup.ReachesByTerm (lookup : Lookup) (p : Pattern) : Pattern → Prop
  | term {q q' : Pattern} {r : Reference} : lookup.Reaches p q → .term r ∈ q.inlines →
      lookup.termPattern r = .ok q' → ReachesByTerm lookup p q'
  | message {q q' : Pattern} {r : Reference} : ReachesByTerm lookup p q →
      .message r ∈ q.inlines → lookup.messagePattern r = .ok q' → ReachesByTerm lookup p q'
  | innerTerm {q q' : Pattern} {r : Reference} : ReachesByTerm lookup p q →
      .term r ∈ q.inlines → lookup.termPattern r = .ok q' → ReachesByTerm lookup p q'

/-- An argument may be missing for two reasons: it is needed and not given, or it is mentioned
where a term reference leads. -/
def Lookup.Lacks (lookup : Lookup) (p : Pattern) (args : Arguments) (name : String) : Prop :=
  lookup.Needs p name ∧ args.get? name = none ∨
    ∃ q, lookup.ReachesByTerm p q ∧ .argument name ∈ q.inlines

namespace Lookup

variable {lookup : Lookup} {p q q' : Pattern} {r : Reference} {args : Arguments} {name : String}

theorem ReachesByTerm.after_message (hr : .message r ∈ p.inlines)
    (hq : lookup.messagePattern r = .ok q) (h : lookup.ReachesByTerm q q') :
    lookup.ReachesByTerm p q' := by
  induction h with
  | term hreach hmentions hpattern => exact .term (.after hr hq hreach) hmentions hpattern
  | message _ hmentions hpattern ih => exact .message ih hmentions hpattern
  | innerTerm _ hmentions hpattern ih => exact .innerTerm ih hmentions hpattern

theorem ReachesByTerm.of_reaches (hr : .term r ∈ p.inlines) (hq : lookup.termPattern r = .ok q)
    (h : lookup.Reaches q q') : lookup.ReachesByTerm p q' := by
  induction h with
  | refl => exact .term .refl hr hq
  | message _ hmentions hpattern ih => exact .message ih hmentions hpattern

theorem ReachesByTerm.after_term (hr : .term r ∈ p.inlines) (hq : lookup.termPattern r = .ok q)
    (h : lookup.ReachesByTerm q q') : lookup.ReachesByTerm p q' := by
  induction h with
  | term hreach hmentions hpattern => exact .innerTerm (.of_reaches hr hq hreach) hmentions hpattern
  | message _ hmentions hpattern ih => exact .message ih hmentions hpattern
  | innerTerm _ hmentions hpattern ih => exact .innerTerm ih hmentions hpattern

/-- What is reached behind a term reference is reached from the last term on the way. -/
theorem ReachesByTerm.exists_term (h : lookup.ReachesByTerm p q) :
    ∃ r t, lookup.termPattern r = .ok t ∧ lookup.Reaches t q := by
  induction h with
  | term _ _ hpattern => exact ⟨_, _, hpattern, .refl⟩
  | message _ hmentions hpattern ih =>
    obtain ⟨r, t, ht, hreach⟩ := ih
    exact ⟨r, t, ht, .message hreach hmentions hpattern⟩
  | innerTerm _ _ hpattern _ => exact ⟨_, _, hpattern, .refl⟩

theorem Lacks.of_message (hr : .message r ∈ p.inlines) (hq : lookup.messagePattern r = .ok q)
    (h : lookup.Lacks q args name) : lookup.Lacks p args name := by
  rcases h with ⟨hneeds, hmissing⟩ | ⟨q', hreach, hname⟩
  · exact .inl ⟨.of_message hr hq hneeds, hmissing⟩
  · exact .inr ⟨q', .after_message hr hq hreach, hname⟩

theorem Lacks.of_term (hr : .term r ∈ p.inlines) (hq : lookup.termPattern r = .ok q)
    (h : lookup.Lacks q [] name) : lookup.Lacks p args name := by
  rcases h with ⟨⟨q', hreach, hname⟩, -⟩ | ⟨q', hreach, hname⟩
  · exact .inr ⟨q', .of_reaches hr hq hreach, hname⟩
  · exact .inr ⟨q', .after_term hr hq hreach, hname⟩

end Lookup

/-! ## What may be missing -/

namespace Rendering

variable {α β : Type} {P P' : String → Prop} {x : Rendering α} {f : α → Rendering β}

/-- Only arguments with the property are found missing. -/
def Misses (P : String → Prop) (x : Rendering α) : Prop :=
  ∀ t e, (x t).1 = .error e → P e.name

theorem Misses.mono (h : Misses P x) (hP : ∀ name, P name → P' name) : Misses P' x :=
  fun t e he => hP e.name (h t e he)

theorem Misses.pure (a : α) : Misses P (pure a : Rendering α) := fun _ _ h => by cases h

theorem Misses.faulty (fault : Fault) (text : String) : Misses P (faulty fault text) :=
  fun _ _ h => by cases h

theorem Misses.stack : Misses P Rendering.stack := fun _ _ h => by cases h

theorem Misses.bind (hx : Misses P x) (hf : ∀ a, Misses P (f a)) : Misses P (x >>= f) := by
  intro t e h
  rw [bind_apply] at h
  have hfirst := hx t
  cases hrun : x t with
  | mk result t₁ =>
    rw [hrun] at h hfirst
    cases result with
    | ok a => exact hf a t₁ e h
    | error _ =>
      cases h
      exact hfirst e rfl

theorem Misses.within (hx : Misses P x) (key : String) : Misses P (x.within key) :=
  fun t => hx { t with stack := t.stack ++ [key] }

theorem Misses.argument {args : Arguments} {name : String} (h : args.get? name = none → P name) :
    Misses P (argument args name) := by
  unfold Rendering.argument
  split
  · exact .pure _
  · next hnone =>
    intro t e he
    cases he
    exact h hnone

theorem misses_compositional (lookup : Lookup) (P : String → Prop) :
    Compositional lookup (Misses P) where
  pure := .pure
  bind := .bind
  unformattable _ text := .faulty _ text
  noMessage _ := .faulty _ _
  noTerm _ := .faulty _ _

end Rendering

section

variable {l : Locale} {lookup : Lookup} {enter : Enter}

theorem misses_elements
    (henter : ∀ key q args, Misses (lookup.Lacks q args) (enter key q args)) (p : Pattern)
    (args : Arguments) :
    Misses (lookup.Lacks p args) (renderElements l lookup enter args p) := by
  refine (misses_compositional lookup _).elements p fun i hi => ?_
  cases i with
  | argument name => exact .argument fun hnone => .inl ⟨.of_mentions hi, hnone⟩
  | message r => exact fun q hq => (henter _ q args).mono fun name h => h.of_message hi hq
  | term r => exact fun q hq => (henter _ q []).mono fun name h => h.of_term hi hq
  | _ => trivial

theorem misses_enter (maxDepth levels : Nat) (key : String) (p : Pattern) (args : Arguments) :
    Misses (lookup.Lacks p args)
      (Phrasebook.enter l lookup maxDepth levels key p args) := by
  induction levels generalizing key p args with
  | zero => exact .bind .stack fun stack => .faulty _ _
  | succ levels ih =>
    refine .bind .stack fun stack => ?_
    split
    · exact .faulty _ _
    · exact .within (misses_elements ih p args) key

end

/-! ## Formatting -/

/-- All arguments that the pattern mentions are given. -/
def Arguments.Covers (args : Arguments) (p : Pattern) : Prop :=
  ∀ name, .argument name ∈ p.inlines → args.get? name ≠ none

theorem Lookup.Reaches.covers {lookup : Lookup} {p q : Pattern} {args : Arguments}
    (h : lookup.Reaches p q) (hp : args.Covers p)
    (hmessages : ∀ r q, lookup.messagePattern r = .ok q → args.Covers q) : args.Covers q := by
  cases h with
  | refl => exact hp
  | message _ _ hpattern => exact hmessages _ q hpattern

theorem Lookup.Lacks.false {lookup : Lookup} {p : Pattern} {args : Arguments} {name : String}
    (h : lookup.Lacks p args name) (hp : args.Covers p)
    (hmessages : ∀ r q, lookup.messagePattern r = .ok q → args.Covers q)
    (hterms : ∀ r t, lookup.termPattern r = .ok t → ¬ lookup.Needs t name) : False := by
  rcases h with ⟨⟨q, hreach, hname⟩, hmissing⟩ | ⟨q, hreach, hname⟩
  · exact hreach.covers hp hmessages name hname hmissing
  · obtain ⟨r, t, ht, hreach⟩ := hreach.exists_term
    exact hterms r t ht ⟨q, hreach, hname⟩

namespace Scope

variable [LocaleData] (s : Scope) (p : Pattern) (args : Arguments)

theorem format_extends {text : String} {larger : Arguments} (h : (s.format p args).1 = .ok text)
    (hlarger : larger.Extends args) : s.format p larger = s.format p args := by
  have henter := upholds_enter (Locale.ofTag s.locale) s.lookup hlarger s.maxDepth s.maxDepth
  have hupholds := upholds_elements (Locale.ofTag s.locale) s.lookup hlarger henter p
  have hsame := hupholds s.toTrace text _ (Prod.ext h rfl)
  apply Prod.ext
  · exact (congrArg (·.1) hsame).trans h.symm
  · exact congrArg (fun run => { s with toTrace := run.2 }) hsame

theorem lacks_of_format {e : MissingArgument} (h : (s.format p args).1 = .error e) :
    s.lookup.Lacks p args e.name :=
  misses_elements (misses_enter s.maxDepth s.maxDepth) p args s.toTrace e h

/-- If there is a text, larger lists of arguments give the same text and the same report. An
argument that is missing is needed and has not been given, or it is mentioned behind a term. There
is a text if all arguments that the pattern or any message mentions are given, and nothing in reach
of a term mentions one. -/
theorem format_missing :
    (∀ text larger, (s.format p args).1 = .ok text → larger.Extends args →
      s.format p larger = s.format p args) ∧
    (∀ name, (s.format p args).1 = .error ⟨name⟩ → s.lookup.Lacks p args name) ∧
    (args.Covers p → (∀ r q, s.lookup.messagePattern r = .ok q → args.Covers q) →
      (∀ r t name, s.lookup.termPattern r = .ok t → ¬ s.lookup.Needs t name) →
      ∃ text, (s.format p args).1 = .ok text) := by
  refine ⟨fun text larger => s.format_extends p args, fun name => s.lacks_of_format p args, ?_⟩
  intro hp hmessages hterms
  cases hresult : (s.format p args).1 with
  | ok text => exact ⟨text, rfl⟩
  | error e =>
    have hlacks := s.lacks_of_format p args hresult
    exact (hlacks.false hp hmessages fun r t => hterms r t e.name).elim

end Scope

/-- Each message greets someone, shows itself, the next message, a term, and one that is not
there. -/
def visitors : Lookup where
  message id :=
    some (.make id (some [.placeable (.inline (.argument "who")),
      .placeable (.inline (.message ⟨id, none⟩)), .placeable (.inline (.message ⟨id ++ "s", none⟩)),
      .placeable (.inline (.term ⟨"house", none⟩)), .placeable (.inline (.term ⟨"gone", none⟩))])
      [] none)
  term id := if id = "house" then some (.make id [.text "Inn"] [] none) else none

theorem visitors_message {r : Reference} {q : Pattern} {name : String}
    (h : visitors.messagePattern r = .ok q) (hname : .argument name ∈ q.inlines) :
    name = "who" := by
  obtain ⟨id, attr⟩ := r
  cases attr with
  | some attr => simp [Lookup.messagePattern, visitors, Message.make, Message.pattern?,
      Attribute.merge] at h
  | none =>
    obtain rfl : _ = q := by
      simpa [Lookup.messagePattern, visitors, Message.make, Message.pattern?] using h
    have hname : Inline.argument name ∈ [.argument "who", .message ⟨id, none⟩,
      .message ⟨id ++ "s", none⟩, .term ⟨"house", none⟩, .term ⟨"gone", none⟩] := hname
    simpa using hname

theorem visitors_term {r : Reference} {t : Pattern} (h : visitors.termPattern r = .ok t)
    (name : String) : ¬ visitors.Needs t name := by
  have ht : t.inlines = [] := by
    obtain ⟨id, attr⟩ := r
    by_cases hid : id = "house"
    · cases attr with
      | some attr => simp [Lookup.termPattern, visitors, hid, Term.make, Term.pattern?,
          Attribute.merge] at h
      | none =>
        obtain rfl : _ = t := by
          simpa [Lookup.termPattern, visitors, hid, Term.make, Term.pattern?] using h
        rfl
    · simp [Lookup.termPattern, visitors, hid] at h
  have hinlines : ∀ q, visitors.Reaches t q → q.inlines = [] := by
    intro q hreach
    induction hreach with
    | refl => exact ht
    | message _ hr _ ih => simp [ih] at hr
  rintro ⟨q, hreach, hname⟩
  simp [hinlines q hreach] at hname

open Builtin

/-- Cycles, a message too deep and a term that is not there do no harm to a text, and neither does
an argument that nothing mentions. Behind a term an argument is missing although it is given. -/
theorem Scope.format_missing_visitors :
    let p : Pattern := [.placeable (.inline (.message ⟨"guest", none⟩))]
    let args : Arguments := [⟨"who", .text "Ann"⟩]
    let larger : Arguments := [⟨"who", .text "Ann"⟩, ⟨"secret", .text "x"⟩]
    let s : Scope := { locale := "en", lookup := visitors, maxDepth := 2 }
    let brand : Pattern := [.placeable (.inline (.term ⟨"brand", none⟩))]
    (s.format p args).2.report = [.cycle ["guest", "guest"], .cycle ["guest", "guests", "guests"],
        .tooDeep, .unknownTerm "gone"] ∧
      (∃ text, (s.format p args).1 = .ok text) ∧
      s.format p larger = s.format p args ∧
      (Scope.format { locale := "en", lookup := imprint } brand larger).1 = .error ⟨"secret"⟩ ∧
      ∃ q, imprint.ReachesByTerm brand q ∧ .argument "secret" ∈ q.inlines := by
  intro p args larger s brand
  obtain ⟨hextends, -, htext⟩ := Scope.format_missing s p args
  obtain ⟨-, hlacks, -⟩ := Scope.format_missing { locale := "en", lookup := imprint } brand larger
  have hreport : (s.format p args).2.report = [.cycle ["guest", "guest"],
      .cycle ["guest", "guests", "guests"], .tooDeep, .unknownTerm "gone"] := by cbv
  have hp : args.Covers p := by
    intro name hname
    have hname : Inline.argument name ∈ [.message ⟨"guest", none⟩] := hname
    simp at hname
  have hmessages : ∀ r q, visitors.messagePattern r = .ok q → args.Covers q := by
    intro r q hq name hname
    rw [visitors_message hq hname]
    decide
  obtain ⟨text, htext⟩ := htext hp hmessages fun r t name ht => visitors_term ht name
  have hlarger : larger.Extends args := Arguments.extends_append args _
  have hmissing :
      (Scope.format { locale := "en", lookup := imprint } brand larger).1 = .error ⟨"secret"⟩ := by
    cbv
  refine ⟨hreport, ⟨text, htext⟩, hextends text larger htext hlarger, hmissing, ?_⟩
  rcases hlacks "secret" hmissing with ⟨-, hnone⟩ | hreach
  · cases hnone
  · exact hreach

end Phrasebook
