import Mathlib
import Phrasebook.Proofs.Formatting.Adequacy
import Phrasebook.Proofs.Formatting.Reuse

/-!
# Formatting step by step

The same formatting as a machine that does one thing at a time: it writes some text, it begins
with a reference or it is done with one. No number bounds its steps, and a missing argument does
not end it at once: the keys that are being resolved are taken off the stack one by one.

Whatever refers to whatever, the machine comes to a halt, and then it has the answer of the
scope. On the way the stack never has more keys than the limit allows, and no key twice.

## Main definitions

* `Task`, `Machine`: what is left to do, and what has been done so far.
* `Machine.step`: one step; there is none when nothing is left to do.
* `Machine.Runs`: any number of steps.
-/

namespace Phrasebook

/-- What a machine may have to do next. -/
inductive Task where
  /-- Write the rest of a pattern. -/
  | elements (args : Arguments) (p : Pattern)
  | inline (args : Arguments) (e : Inline)
  /-- Choose a variant by the text that has been written for a selector, and go on with the
  text that had been written before. -/
  | choose (args : Arguments) (before : String) (variants : List (Variant Pattern)) (default : Nat)
  /-- Resolve a reference under its key. -/
  | enter (key : String) (args : Arguments) (p : Pattern)
  /-- Take the last key off the stack. -/
  | leave

/-- The tasks that are left, the text so far or the argument that is missing, and the trace. -/
structure Machine where
  tasks : List Task
  output : Except MissingArgument String
  trace : Trace

namespace Machine

/-- The machine that has written what a rendering gives. -/
def write (x : Rendering String) (tasks : List Task) (text : String) (t : Trace) : Machine :=
  ⟨tasks, (x t).1.map (text ++ ·), (x t).2⟩

end Machine

section

variable (l : Locale) (lookup : Lookup) (maxDepth : Nat)

/-- Do a task. Others may come of it that go before those that are left. -/
def Task.perform (tasks : List Task) (text : String) (t : Trace) : Task → Machine
  | .elements _ [] => ⟨tasks, .ok text, t⟩
  | .elements args (.text value :: p) => ⟨.elements args p :: tasks, .ok (text ++ value), t⟩
  | .elements args (.placeable (.inline e) :: p) =>
    ⟨.inline args e :: .elements args p :: tasks, .ok text, t⟩
  | .elements args (.placeable (.select selector variants default) :: p) =>
    match selector.direct? args, selector with
    | some value, _ =>
      ⟨.elements args (value.chosen l variants default) :: .elements args p :: tasks, .ok text, t⟩
    | none, .argument name => ⟨.elements args p :: tasks, .error ⟨name⟩, t⟩
    -- The text of a reference is written apart.
    | none, _ =>
      ⟨.inline args selector :: .choose args text variants default :: .elements args p :: tasks,
        .ok "", t⟩
  | .inline _ (.text value) => .write (pure value) tasks text t
  | .inline _ (.number literal) => .write (literal.render l) tasks text t
  | .inline args (.argument name) =>
    .write (Rendering.argument args name >>= Value.render l) tasks text t
  | .inline args (.message r) =>
    match lookup.messagePattern r with
    | .ok p => ⟨.enter r.toText args p :: tasks, .ok text, t⟩
    | .error fault => .write (.placeholder fault r.toText) tasks text t
  | .inline _ (.term r) =>
    match lookup.termPattern r with
    | .ok p => ⟨.enter r.toTermText [] p :: tasks, .ok text, t⟩
    | .error fault => .write (.placeholder fault r.toTermText) tasks text t
  | .choose args before variants default =>
    ⟨.elements args ((SelectorValue.text text).chosen l variants default) :: tasks, .ok before, t⟩
  | .enter key args p =>
    match refusal? maxDepth t.stack key with
    | some fault => .write (.placeholder fault key) tasks text t
    | none => ⟨.elements args p :: .leave :: tasks, .ok text, { t with stack := t.stack ++ [key] }⟩
  | .leave => ⟨tasks, .ok text, { t with stack := t.stack.dropLast }⟩

/-- What is left of a task when an argument is missing: only keys are still taken off. -/
def Task.abandon (t : Trace) : Task → Trace
  | .leave => { t with stack := t.stack.dropLast }
  | _ => t

def Machine.step : Machine → Option Machine
  | ⟨[], _, _⟩ => none
  | ⟨task :: tasks, .ok text, t⟩ => some (task.perform l lookup maxDepth tasks text t)
  | ⟨task :: tasks, .error e, t⟩ => some ⟨tasks, .error e, task.abandon t⟩

def Machine.Runs : Machine → Machine → Prop :=
  Relation.ReflTransGen fun m m' => m.step l lookup maxDepth = some m'

end

open Rendering

theorem Rendering.map_id {α : Type} (x : Rendering α) : id <$> x = x := by
  funext t
  change (x >>= fun a => pure a) t = x t
  rw [bind_apply]
  rcases x t with ⟨_ | _, _⟩ <;> rfl

theorem Rendering.bind_bind {α β γ : Type} (x : Rendering α) (f : α → Rendering β)
    (g : β → Rendering γ) : x >>= f >>= g = x >>= fun a => f a >>= g := by
  funext t
  simp only [bind_apply]
  rcases x t with ⟨_ | _, _⟩ <;> rfl

instance : LawfulMonad Rendering :=
  .mk' Rendering Rendering.map_id (fun _ _ => rfl) Rendering.bind_bind

variable {l : Locale} {lookup : Lookup} {maxDepth : Nat}

/-! ## The stack -/

/-- A stack within the limit, on which no key is twice. -/
def Bounded (maxDepth : Nat) (stack : List String) : Prop :=
  stack.length ≤ maxDepth ∧ stack.Nodup

namespace Machine

@[simp] theorem stack_write {x : Rendering String} (hx : Framed x) (tasks : List Task)
    (text : String) (t : Trace) : (write x tasks text t).trace.stack = t.stack := by
  rw [write, show x t = _ from hx.run t.stack t.report]

end Machine

/-- A task leaves the stack, takes the last key off, or puts on one that is not refused. -/
theorem Task.stack_perform (task : Task) (tasks : List Task) (text : String) (t : Trace) :
    let stack := (task.perform l lookup maxDepth tasks text t).trace.stack
    stack = t.stack ∨ stack = t.stack.dropLast ∨
      ∃ key, stack = t.stack ++ [key] ∧ refusal? maxDepth t.stack key = none := by
  cases task with
  | elements args p =>
    left
    match p with
    | [] => rfl
    | .text value :: p => rfl
    | .placeable (.inline e) :: p => rfl
    | .placeable (.select selector variants default) :: p =>
      simp only [perform]
      split <;> rfl
  | inline args e =>
    left
    cases e with
    | text value => rfl
    | number literal => exact Machine.stack_write ((framed_closed lookup).literal l literal) ..
    | argument name =>
      exact Machine.stack_write ((Framed.argument args name).bind fun v => framed_value l v) ..
    | message r =>
      simp only [perform]
      split
      · rfl
      · exact Machine.stack_write (.placeholder _ _) ..
    | term r =>
      simp only [perform]
      split
      · rfl
      · exact Machine.stack_write (.placeholder _ _) ..
  | choose args before variants default => exact .inl rfl
  | enter key args p =>
    simp only [perform]
    split
    · exact .inl (Machine.stack_write (.placeholder _ key) ..)
    · next h => exact .inr (.inr ⟨key, rfl, h⟩)
  | leave => exact .inr (.inl rfl)

theorem Task.stack_abandon (task : Task) (t : Trace) :
    (task.abandon t).stack = t.stack ∨ (task.abandon t).stack = t.stack.dropLast := by
  cases task with
  | leave => exact .inr rfl
  | _ => exact .inl rfl

namespace Bounded

variable {stack : List String}

theorem dropLast (h : Bounded maxDepth stack) : Bounded maxDepth stack.dropLast := by
  refine ⟨?_, h.2.sublist (List.dropLast_sublist stack)⟩
  have := h.1
  rw [List.length_dropLast]
  omega

theorem push (h : Bounded maxDepth stack) {key : String}
    (hkey : refusal? maxDepth stack key = none) : Bounded maxDepth (stack ++ [key]) := by
  obtain ⟨hnew, hdepth⟩ := refusal?_eq_none.mp hkey
  refine ⟨by simpa using hdepth, ?_⟩
  rw [← List.concat_eq_append]
  exact h.2.concat hnew

end Bounded

namespace Machine

theorem step_leave (tasks : List Task) (output : Except MissingArgument String) (t : Trace) :
    step l lookup maxDepth ⟨.leave :: tasks, output, t⟩ =
      some ⟨tasks, output, { t with stack := t.stack.dropLast }⟩ := by
  cases output <;> rfl

theorem bounded_step {m m' : Machine} (hstep : m.step l lookup maxDepth = some m')
    (h : Bounded maxDepth m.trace.stack) : Bounded maxDepth m'.trace.stack := by
  obtain ⟨_ | ⟨task, tasks⟩, e | text, t⟩ := m
  · cases hstep
  · cases hstep
  · cases hstep
    rcases task.stack_abandon t with hstack | hstack
    · rw [hstack]
      exact h
    · rw [hstack]
      exact h.dropLast
  · cases hstep
    rcases task.stack_perform tasks text t with hstack | hstack | ⟨key, hstack, hkey⟩
    · rw [hstack]
      exact h
    · rw [hstack]
      exact h.dropLast
    · rw [hstack]
      exact h.push hkey

theorem bounded_runs {m m' : Machine} (hruns : m.Runs l lookup maxDepth m')
    (h : Bounded maxDepth m.trace.stack) : Bounded maxDepth m'.trace.stack := by
  induction hruns with
  | refl => exact h
  | tail _ hstep ih => exact bounded_step hstep ih

/-- There is only one way to run, so all of it is on the way to the end. -/
theorem Runs.of_finish {m m' finish : Machine} (hm : m.Runs l lookup maxDepth m')
    (hfinish : m.Runs l lookup maxDepth finish) (hend : finish.step l lookup maxDepth = none) :
    m'.Runs l lookup maxDepth finish := by
  have hunique : Relator.RightUnique fun m m' => step l lookup maxDepth m = some m' := by
    intro m a b ha hb
    exact Option.some.inj (ha.symm.trans hb)
  rcases hm.total_of_right_unique hunique hfinish with h | h
  · exact h
  · rcases h.cases_head with rfl | ⟨next, hnext, -⟩
    · exact .refl
    · rw [hend] at hnext
      cases hnext

/-- There is only one end. -/
theorem Runs.eq_of_ends {m m' finish : Machine} (hm : m.Runs l lookup maxDepth m')
    (hend : m'.step l lookup maxDepth = none) (hfinish : m.Runs l lookup maxDepth finish)
    (hend' : finish.step l lookup maxDepth = none) : m' = finish := by
  rcases (hm.of_finish hfinish hend').cases_head with h | ⟨next, hnext, -⟩
  · exact h
  · rw [hend] at hnext
    cases hnext

/-! ## What has been written -/

section

variable {x : Rendering String} {tasks : List Task} {text a : String} {t t' : Trace}

theorem write_of_ok (h : x t = (.ok a, t')) :
    write x tasks text t = ⟨tasks, .ok (text ++ a), t'⟩ := by
  rw [write, h]
  rfl

theorem write_of_error {e : MissingArgument} (h : x t = (.error e, t')) :
    write x tasks text t = ⟨tasks, .error e, t'⟩ := by
  rw [write, h]
  rfl

theorem write_nothing : write (pure "") tasks text t = ⟨tasks, .ok text, t⟩ := by
  have h : (pure "" : Rendering String) t = (.ok "", t) := rfl
  rw [write_of_ok h, String.append_empty]

theorem write_start : write x [] "" t = ⟨[], (x t).1, (x t).2⟩ := by
  rw [write]
  rcases x t with ⟨_ | a, t'⟩
  · rfl
  · simp [Except.map]

theorem write_append :
    write (do return a ++ (← x)) tasks text t = write x tasks (text ++ a) t := by
  cases hrun : x t with
  | mk result t' =>
    cases result with
    | ok b =>
      have hbind : (do return a ++ (← x) : Rendering String) t = (.ok (a ++ b), t') := by
        rw [bind_apply, hrun]
        rfl
      rw [write_of_ok hrun, write_of_ok hbind, String.append_assoc]
    | error e =>
      have hbind : (do return a ++ (← x) : Rendering String) t = (.error e, t') := by
        rw [bind_apply, hrun]
      rw [write_of_error hrun, write_of_error hbind]

end

/-- A rendering is followed by one that depends on its text. If an argument is missing, the
task that would have written it is dropped. -/
theorem Runs.andThen {x : Rendering String} {f : String → Rendering String} {m : Machine}
    {task : Task} {tasks : List Task} {text : String} {stack : List String} {report : List Fault}
    (hx : Framed x) (htask : ∀ t, task.abandon t = t)
    (hfirst : m.Runs l lookup maxDepth (write x (task :: tasks) text ⟨stack, report⟩))
    (hnext : ∀ a report, Runs l lookup maxDepth ⟨task :: tasks, .ok (text ++ a), ⟨stack, report⟩⟩
      (write (f a) tasks text ⟨stack, report⟩)) :
    m.Runs l lookup maxDepth (write (x >>= f) tasks text ⟨stack, report⟩) := by
  refine hfirst.trans ?_
  have hrun := hx.run stack report
  cases h : x.result stack with
  | ok a =>
    rw [h] at hrun
    rw [write_of_ok hrun, write, hx.bind_of_ok h]
    exact hnext a _
  | error e =>
    rw [h] at hrun
    rw [write_of_error hrun, write_of_error (hx.bind_of_error h report)]
    exact .single (by rw [step, htask])

end Machine

/-! ## Tasks and renderings -/

/-- From a stack on, the task does what the rendering does. -/
def Task.Performs (l : Locale) (lookup : Lookup) (maxDepth : Nat) (stack : List String)
    (task : Task) (x : Rendering String) : Prop :=
  ∀ tasks text report, Machine.Runs l lookup maxDepth ⟨task :: tasks, .ok text, ⟨stack, report⟩⟩
    (.write x tasks text ⟨stack, report⟩)

/-- A reference may be entered in steps. -/
def Stepwise (l : Locale) (lookup : Lookup) (maxDepth : Nat) (stack : List String)
    (enter : Enter) : Prop :=
  ∀ key p args, Task.Performs l lookup maxDepth stack (.enter key args p) (enter key p args)

section

variable {enter : Enter} {args : Arguments} {stack : List String}

theorem performs_nil : Task.Performs l lookup maxDepth stack (.elements args []) (pure "") := by
  intro tasks text report
  rw [Machine.write_nothing]
  exact .single rfl

theorem performs_inline (hsteps : Stepwise l lookup maxDepth stack enter) (e : Inline) :
    Task.Performs l lookup maxDepth stack (.inline args e) (e.render l lookup enter args) := by
  intro tasks text report
  cases e with
  | text value => exact .single rfl
  | number literal => exact .single rfl
  | argument name => exact .single rfl
  | message r =>
    simp only [Inline.render]
    cases h : lookup.messagePattern r with
    | ok p =>
      refine .head (b := ⟨.enter r.toText args p :: tasks, .ok text, ⟨stack, report⟩⟩) ?_ ?_
      · simp [Machine.step, Task.perform, h]
      · exact hsteps _ _ _ _ _ _
    | error fault => exact .single (by simp [Machine.step, Task.perform, h])
  | term r =>
    simp only [Inline.render]
    cases h : lookup.termPattern r with
    | ok p =>
      refine .head (b := ⟨.enter r.toTermText [] p :: tasks, .ok text, ⟨stack, report⟩⟩) ?_ ?_
      · simp [Machine.step, Task.perform, h]
      · exact hsteps _ _ _ _ _ _
    | error fault => exact .single (by simp [Machine.step, Task.perform, h])

theorem select_of_direct {e : Inline} {value : SelectorValue} (h : e.direct? args = some value) :
    e.select l lookup enter args = pure value := by
  cases e with
  | text t =>
    cases h
    rfl
  | number literal =>
    cases h
    rfl
  | argument name =>
    obtain ⟨v, hv, rfl⟩ := Option.map_eq_some_iff.mp h
    rw [select_argument, Rendering.argument, hv]
    rfl
  | message r => cases h
  | term r => cases h

/-- A selector that is no reference and has no value is an argument that is missing. -/
theorem select_of_missing {e : Inline} (he : e.isReference = false) (h : e.direct? args = none) :
    ∃ name, e = .argument name ∧
      ∀ t, e.select l lookup enter args t = (.error ⟨name⟩, t) := by
  cases e with
  | argument name =>
    refine ⟨name, rfl, fun t => ?_⟩
    rw [select_argument, Rendering.argument, Option.map_eq_none_iff.mp h]
    rfl
  | text t => cases h
  | number literal => cases h
  | message r => cases he
  | term r => cases he

section

variable (variants : List (Variant Pattern)) (default : Nat) (p : Pattern) (tasks : List Task)
  (text : String) (t : Trace)

theorem step_of_direct {selector : Inline} {value : SelectorValue}
    (h : selector.direct? args = some value) :
    Machine.step l lookup maxDepth
        ⟨.elements args (.placeable (.select selector variants default) :: p) :: tasks,
          .ok text, t⟩ =
      some ⟨.elements args (value.chosen l variants default) :: .elements args p :: tasks,
        .ok text, t⟩ := by
  simp only [Machine.step, Task.perform, h]

theorem step_of_isReference {selector : Inline} (h : selector.isReference = true) :
    Machine.step l lookup maxDepth
        ⟨.elements args (.placeable (.select selector variants default) :: p) :: tasks,
          .ok text, t⟩ =
      some ⟨.inline args selector :: .choose args text variants default ::
        .elements args p :: tasks, .ok "", t⟩ := by
  cases selector with
  | message r => rfl
  | term r => rfl
  | _ => cases h

end

/-- A selection is done by choosing a variant and writing it. The text of a reference that it
selects by is written in between. -/
theorem runs_selection (hframed : ∀ key p args, Framed (enter key p args))
    (hsteps : Stepwise l lookup maxDepth stack enter) (selector : Inline)
    (variants : List (Variant Pattern)) (default : Nat)
    (hvariants : ∀ index, Task.Performs l lookup maxDepth stack
      (.elements args (variantAt variants index))
      (renderVariant l lookup enter args variants index))
    (p : Pattern) (tasks : List Task) (text : String) (report : List Fault) :
    Machine.Runs l lookup maxDepth
      ⟨.elements args (.placeable (.select selector variants default) :: p) :: tasks, .ok text,
        ⟨stack, report⟩⟩
      (.write ((Expression.select selector variants default).render l lookup enter args)
        (.elements args p :: tasks) text ⟨stack, report⟩) := by
  rw [Expression.render]
  cases hdirect : selector.direct? args with
  | some value =>
    rw [select_of_direct hdirect, pure_bind]
    exact .head (step_of_direct variants default p tasks text _ hdirect) (hvariants _ _ _ _)
  | none =>
    cases href : selector.isReference with
    | false =>
      obtain ⟨name, rfl, hmissing⟩ := select_of_missing href hdirect
      rw [Machine.write_of_error (by rw [bind_apply, hmissing])]
      exact .single (by simp [Machine.step, Task.perform, hdirect])
    | true =>
      rw [select_of_isReference href, bind_assoc]
      have hx : Framed (selector.render l lookup enter args) := framed_inline hframed selector
      refine .head (step_of_isReference variants default p tasks text _ href)
        (.trans (performs_inline hsteps selector _ _ _) ?_)
      have hrun := hx.run stack report
      cases h : (selector.render l lookup enter args).result stack with
      | ok value =>
        rw [h] at hrun
        rw [Machine.write_of_ok hrun, Machine.write, hx.bind_of_ok h, pure_bind,
          String.empty_append]
        exact .head rfl (hvariants _ _ _ _)
      | error e =>
        rw [h] at hrun
        rw [Machine.write_of_error hrun, Machine.write_of_error (hx.bind_of_error h report)]
        exact .single rfl

mutual

theorem runs_placeable (hframed : ∀ key p args, Framed (enter key p args))
    (hsteps : Stepwise l lookup maxDepth stack enter) : ∀ (e : Expression) (p : Pattern)
      (tasks : List Task) (text : String) (report : List Fault),
      Machine.Runs l lookup maxDepth
        ⟨.elements args (.placeable e :: p) :: tasks, .ok text, ⟨stack, report⟩⟩
        (.write (e.render l lookup enter args) (.elements args p :: tasks) text ⟨stack, report⟩)
  | .inline e, p, tasks, text, report => by
    rw [Expression.render]
    exact .head rfl (performs_inline hsteps e _ _ _)
  | .select selector variants default, p, tasks, text, report =>
    runs_selection hframed hsteps selector variants default
      (performs_variant hframed hsteps variants) p tasks text report
termination_by structural e => e

theorem performs_variant (hframed : ∀ key p args, Framed (enter key p args))
    (hsteps : Stepwise l lookup maxDepth stack enter) :
    ∀ (variants : List (Variant Pattern)) (index : Nat), Task.Performs l lookup maxDepth stack
      (.elements args (variantAt variants index))
      (renderVariant l lookup enter args variants index)
  | [], _ => by
    rw [renderVariant]
    exact performs_nil
  | ⟨_, value⟩ :: _, 0 => by
    rw [renderVariant]
    exact performs_elements hframed hsteps value
  | _ :: variants, index + 1 => by
    rw [renderVariant]
    exact performs_variant hframed hsteps variants index
termination_by structural variants => variants

theorem performs_elements (hframed : ∀ key p args, Framed (enter key p args))
    (hsteps : Stepwise l lookup maxDepth stack enter) : ∀ p : List (Element Expression),
      Task.Performs l lookup maxDepth stack (.elements args p)
        (renderElements l lookup enter args p)
  | [] => by
    rw [renderElements]
    exact performs_nil
  | .text value :: p => by
    intro tasks text report
    rw [renderElements, Machine.write_append]
    exact .head rfl (performs_elements hframed hsteps p _ _ _)
  | .placeable e :: p => by
    intro tasks text report
    rw [renderElements]
    refine .andThen (framed_expression hframed e) (fun _ => rfl)
      (runs_placeable hframed hsteps e p tasks text report) fun first report => ?_
    rw [Machine.write_append]
    exact performs_elements hframed hsteps p _ _ _
termination_by structural p => p

end

end

/-! ## References -/

section

variable {levels : Nat} {key : String} {p : Pattern} {args : Arguments} {stack : List String}
  {report : List Fault}

theorem runs_refused {fault : Fault} (h : refusal? maxDepth stack key = some fault)
    (tasks : List Task) (text : String) :
    Machine.Runs l lookup maxDepth ⟨.enter key args p :: tasks, .ok text, ⟨stack, report⟩⟩
      (.write (enter l lookup maxDepth levels key p args) tasks text ⟨stack, report⟩) := by
  refine .single ?_
  simp only [Machine.step, Task.perform, h, Machine.write, enter_of_refused h]

/-- The key goes on the stack, the pattern is written, and the key comes off again. -/
theorem runs_allowed (h : refusal? maxDepth stack key = none)
    (hbody : Task.Performs l lookup maxDepth (stack ++ [key]) (.elements args p)
      (renderElements l lookup (enter l lookup maxDepth levels) args p))
    (tasks : List Task) (text : String) :
    Machine.Runs l lookup maxDepth ⟨.enter key args p :: tasks, .ok text, ⟨stack, report⟩⟩
      (.write (enter l lookup maxDepth (levels + 1) key p args) tasks text ⟨stack, report⟩) := by
  have hpush : Machine.step l lookup maxDepth
      ⟨.enter key args p :: tasks, .ok text, ⟨stack, report⟩⟩ =
      some ⟨.elements args p :: .leave :: tasks, .ok text, ⟨stack ++ [key], report⟩⟩ := by
    simp only [Machine.step, Task.perform, h]
  have hpop : Machine.step l lookup maxDepth (.write (renderElements l lookup
      (enter l lookup maxDepth levels) args p) (.leave :: tasks) text ⟨stack ++ [key], report⟩) =
      some (.write (enter l lookup maxDepth (levels + 1) key p args) tasks text
        ⟨stack, report⟩) := by
    rw [Machine.write, Machine.step_leave, Machine.write, enter_of_allowed h]
    rfl
  exact .head hpush ((hbody _ _ _).tail hpop)

end

/-- By induction on the levels that are left. They never run out: where there are none, the
stack is full, and the machine refuses every reference as well. -/
theorem stepwise_enter (levels : Nat) {stack : List String}
    (hlevels : maxDepth ≤ levels + stack.length) :
    Stepwise l lookup maxDepth stack (enter l lookup maxDepth levels) := by
  induction levels generalizing stack with
  | zero =>
    intro key p args tasks text report
    cases h : refusal? maxDepth stack key with
    | some fault => exact runs_refused h tasks text
    | none =>
      obtain ⟨-, hdepth⟩ := refusal?_eq_none.mp h
      omega
  | succ levels ih =>
    intro key p args tasks text report
    cases h : refusal? maxDepth stack key with
    | some fault => exact runs_refused h tasks text
    | none =>
      have hstack : maxDepth ≤ levels + (stack ++ [key]).length := by
        rw [List.length_append, List.length_singleton]
        omega
      exact runs_allowed h
        (performs_elements (framed_enter l lookup maxDepth levels) (ih hstack) p) tasks text

/-! ## Scopes -/

namespace Scope

/-- What there is to do to answer. -/
def task : Request → Task
  | .pattern p args => .elements args p
  | .entry key p args => .enter key args p

variable [LocaleData]

/-- The machine that is about to answer. -/
def start (s : Scope) (request : Request) : Machine :=
  ⟨[task request], .ok "", s.toTrace⟩

/-- The machine that has answered. -/
def finish (s : Scope) (request : Request) : Machine :=
  ⟨[], (s.answer request).1, (s.answer request).2.toTrace⟩

theorem runs_finish (s : Scope) (request : Request) :
    (s.start request).Runs (Locale.ofTag s.locale) s.lookup s.maxDepth (s.finish request) := by
  have hsteps : Stepwise (Locale.ofTag s.locale) s.lookup s.maxDepth s.stack s.enter :=
    stepwise_enter s.maxDepth (Nat.le_add_right _ _)
  have hperforms : (task request).Performs (Locale.ofTag s.locale) s.lookup s.maxDepth s.stack
      (s.rendering request) := by
    cases request with
    | pattern p args => exact performs_elements (framed_enter _ _ _ _) hsteps p
    | entry key p args => exact hsteps key p args
  have hfinish : s.finish request = .write (s.rendering request) [] "" s.toTrace := by
    rw [finish, answer_eq_run, Machine.write_start]
    rfl
  rw [hfinish]
  exact hperforms [] "" s.report

/-- Whatever has been asked before, a request is answered after finitely many steps: every moment
of the evaluation leads on to the answer, and there it ends. At every moment the stack has at
most as many keys as the limit allows, and all of them are different. -/
theorem answer_within_limit (locale : String) (lookup : Lookup) (maxDepth : Nat)
    (uses : List Use) (request : Request) :
    let s := (fresh locale lookup maxDepth).after uses
    let l := Locale.ofTag locale
    (s.finish request).step l lookup maxDepth = none ∧
      ∀ m, (s.start request).Runs l lookup maxDepth m →
        m.Runs l lookup maxDepth (s.finish request) ∧
          m.trace.stack.length ≤ maxDepth ∧ m.trace.stack.Nodup := by
  intro s l
  have hnew : (fresh locale lookup maxDepth).toTrace = {} := rfl
  obtain ⟨report, -, hs⟩ := after_framed hnew List.nodup_nil uses
  have hs : s = { fresh locale lookup maxDepth with report } := hs
  have hfinish : (s.start request).Runs l lookup maxDepth (s.finish request) := by
    rw [hs]
    exact runs_finish { fresh locale lookup maxDepth with report } request
  have hstart : Bounded maxDepth (s.start request).trace.stack := by
    rw [hs]
    exact ⟨Nat.zero_le _, List.nodup_nil⟩
  refine ⟨rfl, fun m hm => ⟨hm.of_finish hfinish rfl, Machine.bounded_runs hm hstart⟩⟩

end Scope

/-- Every message refers to one with a longer name. -/
def endless : Lookup where
  message id :=
    some (.make id (some [.placeable (.inline (.message ⟨id ++ "+", none⟩))]) [] none)
  term _ := none

open Builtin

/-- The second message has just been entered and would go on to a third one. -/
theorem Scope.answer_within_limit_endless :
    let s := fresh "en" endless 2
    let request : Request := .pattern [.placeable (.inline (.message ⟨"m", none⟩))] []
    let m : Machine := ⟨[.elements [] [.placeable (.inline (.message ⟨"m++", none⟩))], .leave,
      .elements [] [], .leave, .elements [] []], .ok "", ⟨["m", "m+"], []⟩⟩
    (s.start request).Runs (Locale.ofTag "en") endless 2 m ∧
      m.Runs (Locale.ofTag "en") endless 2 (s.finish request) ∧
      m.trace.stack.length ≤ 2 ∧ m.trace.stack.Nodup ∧
      (s.answer request).1 = .ok "\x7bm++\x7d" ∧ (s.answer request).2.report = [.tooDeep] := by
  intro s request m
  have hm : (s.start request).Runs (Locale.ofTag "en") endless 2 m :=
    .head rfl (.head rfl (.head rfl (.head rfl (.head rfl (.head rfl .refl)))))
  obtain ⟨hfinish, hlength, hnodup⟩ := (answer_within_limit "en" endless 2 [] request).2 m hm
  exact ⟨hm, hfinish, hlength, hnodup, by cbv, by cbv⟩

end Phrasebook
