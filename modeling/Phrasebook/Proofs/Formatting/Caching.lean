import Mathlib
import Phrasebook.Proofs.Cache
import Phrasebook.Proofs.Formatting.Stepwise

/-!
# Formatting with caches

A thread has its plural rules and number formats in caches, which one formatting call leaves to
the next. Here the machine of single steps knows nothing of a locale: for a number that a step
shows or sorts it asks the formatters at hand, and sees no more of the locale than their answer.

Whatever the formatters were asked for before, by calls for whatever locales, the machine takes
the steps that it takes with the locale itself, and at every moment the caches are sound. So the
answers of a thread are those of scopes that look up rules and formats for each number.

## Main definitions

* `Machine.request?`: what the next step asks about a number.
* `Clerk`: a machine and the formatters that it has at hand.
* `Clerk.Completes`: one formatting call from its start to its end.
* `Formatters.Handles`: formatting calls one after the other, and the formatters after them.
-/

namespace Phrasebook

/-! ## What a step asks -/

/-- The number that has to be sorted to choose one of the keys: none if a key has its value. -/
def SelectorValue.unsorted? (keys : List VariantKey) : SelectorValue → Option Decimal
  | .text _ => none
  | .number x decimal => if keys.any (·.isNumber x) then none else decimal

def Task.request? : Task → Option Locale.Request
  | .elements args (.placeable (.select selector variants _) :: _) =>
    ((selector.direct? args).bind (·.unsorted? (variants.map Variant.key))).map .category
  | .inline _ (.number literal) => literal.toDecimal?.map .text
  | .inline args (.argument name) => ((args.get? name).bind Value.toDecimal?).map .text
  | _ => none

/-- After a missing argument nothing is asked any more. -/
def Machine.request? : Machine → Option Locale.Request
  | ⟨task :: _, .ok _, _⟩ => task.request?
  | _ => none

section

variable {l l' : Locale} {lookup : Lookup} {maxDepth : Nat}

theorem SelectorValue.choose?_congr {keys : List VariantKey} {value : SelectorValue}
    (h : ∀ d ∈ value.unsorted? keys, l.pluralCategory d = l'.pluralCategory d) :
    value.choose? l keys = value.choose? l' keys := by
  cases value with
  | text t => rfl
  | number x decimal =>
    cases hnumber : keys.findIdx? (·.isNumber x) with
    | some i => simp only [choose?, hnumber, Option.some_or]
    | none =>
      have hany : ¬ keys.any (·.isNumber x) = true := by
        simpa [List.findIdx?_eq_none_iff] using hnumber
      rw [unsorted?, if_neg hany] at h
      cases decimal with
      | none => simp only [choose?]
      | some d => simp only [choose?, h d rfl]

theorem NumberLiteral.render_congr {n : NumberLiteral}
    (h : ∀ d ∈ n.toDecimal?, l.formatNumber? d = l'.formatNumber? d) :
    n.render l = n.render l' := by
  have hbind : n.toDecimal?.bind l.formatNumber? = n.toDecimal?.bind l'.formatNumber? :=
    Option.bind_congr h
  unfold NumberLiteral.render
  rw [hbind]

theorem Value.render_congr {v : Value}
    (h : ∀ d ∈ v.toDecimal?, l.formatNumber? d = l'.formatNumber? d) :
    v.render l = v.render l' := by
  have hbind : v.toDecimal?.bind l.formatNumber? = v.toDecimal?.bind l'.formatNumber? :=
    Option.bind_congr h
  unfold Value.render
  rw [hbind]

/-- A task depends on the locale only in the answer to its request. -/
theorem Task.perform_congr {task : Task} (h : ∀ r ∈ task.request?, r.Agree l l')
    (tasks : List Task) (text : String) (t : Trace) :
    task.perform l lookup maxDepth tasks text t = task.perform l' lookup maxDepth tasks text t := by
  match task with
  | .elements args (.placeable (.select selector variants default) :: p) =>
    simp only [perform]
    split
    · next _ value hvalue =>
      have hchoose : value.choose? l (variants.map Variant.key) =
          value.choose? l' (variants.map Variant.key) :=
        SelectorValue.choose?_congr fun d hd => h (.category d) (by simp_all [request?])
      simp only [SelectorValue.chosen, hchoose]
    · rfl
    · rfl
  | .inline args (.number literal) =>
    have hrender : literal.render l = literal.render l' :=
      NumberLiteral.render_congr fun d hd => h (.text d) (by simp_all [request?])
    simp only [perform, hrender]
  | .inline args (.argument name) =>
    simp only [perform]
    cases hget : args.get? name with
    | none =>
      have hmissing : ∀ l, (Rendering.argument args name >>= Value.render l) t =
          (.error ⟨name⟩, t) := by
        intro l
        rw [Rendering.bind_apply, Rendering.argument, hget]
      rw [Machine.write_of_error (hmissing l), Machine.write_of_error (hmissing l')]
    | some v =>
      have hrender : v.render l = v.render l' :=
        Value.render_congr fun d hd => h (.text d) (by simp_all [request?])
      simp only [Machine.write, Rendering.argument, hget, pure_bind, hrender]
  | .elements _ [] | .elements _ (.text _ :: _) | .elements _ (.placeable (.inline _) :: _) => rfl
  | .inline _ (.text _) | .inline _ (.message _) | .inline _ (.term _) => rfl
  | .choose .. | .enter .. | .leave => rfl

theorem Machine.step_congr {m : Machine} (h : ∀ r ∈ m.request?, r.Agree l l') :
    m.step l lookup maxDepth = m.step l' lookup maxDepth := by
  obtain ⟨_ | ⟨task, tasks⟩, e | text, t⟩ := m
  · rfl
  · rfl
  · rfl
  · rw [step, step, Task.perform_congr h]

end

/-! ## Machines with formatters -/

section

variable [LocaleData]

open LocaleData (Tag)

/-- A machine and the formatters that it has at hand. -/
structure Clerk where
  machine : Machine
  formatters : Formatters

namespace Clerk

/-- One step, which knows of the locale what the formatters answer to its request. -/
def step (t : Tag) (lookup : Lookup) (maxDepth : Nat) (c : Clerk) : Option Clerk :=
  let (l, f) := match c.machine.request? with
    | some r => c.formatters.serve t r
    | none => (.unknown, c.formatters)
  (c.machine.step l lookup maxDepth).map fun m => ⟨m, f⟩

def Runs (t : Tag) (lookup : Lookup) (maxDepth : Nat) : Clerk → Clerk → Prop :=
  Relation.ReflTransGen fun c c' => c.step t lookup maxDepth = some c'

variable {t : Tag} {lookup : Lookup} {maxDepth : Nat} {c c' : Clerk} {m m' : Machine}

/-- With sound caches, a step is the one of the machine that knows the locale. -/
theorem step_eq (h : c.formatters.Sound) (t : Tag) (lookup : Lookup) (maxDepth : Nat) :
    ∃ f : Formatters, f.Sound ∧ c.step t lookup maxDepth =
      (c.machine.step (.ofData t) lookup maxDepth).map fun m => ⟨m, f⟩ := by
  cases hrequest : c.machine.request? with
  | none =>
    refine ⟨c.formatters, h, ?_⟩
    have hstep : c.machine.step .unknown lookup maxDepth =
        c.machine.step (.ofData t) lookup maxDepth :=
      Machine.step_congr (by simp [hrequest])
    simp only [step, hrequest, hstep]
  | some r =>
    obtain ⟨hagree, hsound⟩ := h.serve t r
    refine ⟨_, hsound, ?_⟩
    have hstep : c.machine.step (c.formatters.serve t r).1 lookup maxDepth =
        c.machine.step (.ofData t) lookup maxDepth :=
      Machine.step_congr (by simpa [hrequest] using hagree)
    simp only [step, hrequest, hstep]

/-- At every moment the caches are sound, and the machine is where it comes with the locale. -/
theorem Runs.sound (hruns : c.Runs t lookup maxDepth c') (h : c.formatters.Sound) :
    c'.formatters.Sound ∧ c.machine.Runs (.ofData t) lookup maxDepth c'.machine := by
  induction hruns with
  | refl => exact ⟨h, .refl⟩
  | tail _ hstep ih =>
    obtain ⟨f, hf, heq⟩ := step_eq ih.1 t lookup maxDepth
    obtain ⟨m, hm, rfl⟩ := Option.map_eq_some_iff.mp (heq.symm.trans hstep)
    exact ⟨hf, ih.2.tail hm⟩

/-- Wherever the machine comes with the locale, it comes with formatters. -/
theorem runs_of_machine {f : Formatters} (h : f.Sound)
    (hruns : m.Runs (.ofData t) lookup maxDepth m') :
    ∃ f', Runs t lookup maxDepth ⟨m, f⟩ ⟨m', f'⟩ := by
  induction hruns with
  | refl => exact ⟨f, .refl⟩
  | tail _ hstep ih =>
    obtain ⟨f', hf'⟩ := ih
    obtain ⟨f'', -, heq⟩ := step_eq (hf'.sound h).1 t lookup maxDepth
    exact ⟨f'', hf'.tail (by rw [heq, hstep, Option.map_some])⟩

/-! ## Calls -/

/-- A call from its start with some formatters to its end, and the formatters that it leaves. -/
def Completes (s : Scope) (request : Scope.Request) (f : Formatters) (m : Machine)
    (f' : Formatters) : Prop :=
  Runs (Locale.resolve s.locale) s.lookup s.maxDepth ⟨s.start request, f⟩ ⟨m, f'⟩ ∧
    step (Locale.resolve s.locale) s.lookup s.maxDepth ⟨m, f'⟩ = none

variable {s : Scope} {request : Scope.Request} {f f' : Formatters}

theorem Completes.sound (hcall : Completes s request f m f') (h : f.Sound) : f'.Sound :=
  (hcall.1.sound h).1

/-- With sound caches, a call comes to its end where the scope by itself has answered. -/
theorem completes_iff (h : f.Sound) (s : Scope) (request : Scope.Request) :
    (∃ f', Completes s request f m f') ↔ m = s.finish request := by
  have hfinish : (s.start request).Runs (.ofData (Locale.resolve s.locale)) s.lookup s.maxDepth
      (s.finish request) := s.runs_finish request
  constructor
  · rintro ⟨f', hruns, hend⟩
    obtain ⟨hf', hm⟩ := hruns.sound h
    obtain ⟨_, -, heq⟩ := step_eq hf' (Locale.resolve s.locale) s.lookup s.maxDepth
    exact hm.eq_of_ends (Option.map_eq_none_iff.mp (heq.symm.trans hend)) hfinish rfl
  · rintro rfl
    obtain ⟨f', hruns⟩ := runs_of_machine h hfinish
    obtain ⟨_, -, heq⟩ := step_eq (hruns.sound h).1 (Locale.resolve s.locale) s.lookup s.maxDepth
    exact ⟨f', hruns, heq⟩

end Clerk

namespace Formatters

/-- Calls that are handled one after the other. Each begins with the formatters that the one before
it has left, and runs to its end. -/
inductive Handles : Formatters → List (Scope × Scope.Request) → List Machine → Formatters → Prop
  | nil {f : Formatters} : Handles f [] [] f
  | cons {s : Scope} {request : Scope.Request} {calls : List (Scope × Scope.Request)}
      {m : Machine} {ends : List Machine} {f f' f'' : Formatters} :
      Clerk.Completes s request f m f' → Handles f' calls ends f'' →
      Handles f ((s, request) :: calls) (m :: ends) f''

variable {f f' : Formatters} {calls : List (Scope × Scope.Request)} {ends : List Machine}

theorem Handles.sound (hcalls : Handles f calls ends f') (h : f.Sound) : f'.Sound := by
  induction hcalls with
  | nil => exact h
  | cons hcall _ ih => exact ih (hcall.sound h)

/-- Whatever the caches have been used for, the calls come to an end, and each has the answer that
its scope gives by itself. -/
theorem Sound.handles_iff (h : f.Sound) :
    (∃ f', Handles f calls ends f') ↔ ends = calls.map fun call => call.1.finish call.2 := by
  induction calls generalizing f ends with
  | nil =>
    constructor
    · rintro ⟨_, ⟨⟩⟩
      rfl
    · rintro rfl
      exact ⟨f, .nil⟩
  | cons call calls ih =>
    obtain ⟨s, request⟩ := call
    constructor
    · rintro ⟨_, hcalls⟩
      cases hcalls with
      | cons hcall hothers =>
        have hfirst := (Clerk.completes_iff h s request).mp ⟨_, hcall⟩
        rw [hfirst, (ih (hcall.sound h)).mp ⟨_, hothers⟩, List.map_cons]
    · rintro rfl
      obtain ⟨f', hcall⟩ := (Clerk.completes_iff h s request).mpr rfl
      obtain ⟨f'', hothers⟩ := (ih (hcall.sound h)).mpr rfl
      exact ⟨f'', .cons hcall hothers⟩

/-- The calls of a thread, of which the first finds its caches empty. -/
theorem handles_new :
    (∃ f', Handles {} calls ends f') ↔ ends = calls.map fun call => call.1.finish call.2 :=
  sound_new.handles_iff

end Formatters

end

end Phrasebook
