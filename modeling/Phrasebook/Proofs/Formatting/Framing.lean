import Phrasebook.Proofs.Formatting.Closure

/-!
# Renderings leave no trace but their faults

Every rendering leaves the stack as it found it, also when an argument is missing deep
inside of nested references. What was reported before has no influence on it: it has the
result that it would have with an empty report, and the report gets the faults that it
would report alone, without those that are in it already.

## Main definitions

* `Fault.extend`: a report and the faults that are new to it.
* `Rendering.result`, `Rendering.faults`: what a rendering gives with an empty report.
* `Rendering.Framed`: a rendering that changes the trace in no other way.
-/

namespace Phrasebook

/-! ## Reports -/

namespace Fault

/-- A report, and behind it the faults that it does not have yet. -/
def extend (report faults : List Fault) : List Fault :=
  report ++ faults.filter (· ∉ report)

@[simp] theorem extend_nil (report : List Fault) : extend report [] = report := by
  simp [extend]

@[simp] theorem nil_extend (faults : List Fault) : extend [] faults = faults := by
  simp [extend]

theorem extend_eq_nil {report faults : List Fault} :
    extend report faults = [] ↔ report = [] ∧ faults = [] := by
  constructor
  · intro h
    obtain ⟨rfl, -⟩ := List.append_eq_nil_iff.mp h
    exact ⟨rfl, by rwa [nil_extend] at h⟩
  · rintro ⟨rfl, rfl⟩
    rfl

theorem mem_extend {report faults : List Fault} {fault : Fault} :
    fault ∈ extend report faults ↔ fault ∈ report ∨ fault ∈ faults := by
  by_cases h : fault ∈ report <;> simp [extend, h]

theorem extend_extend (report faults more : List Fault) :
    extend (extend report faults) more = extend report (extend faults more) := by
  have hnew : more.filter (· ∉ extend report faults) =
      (more.filter (· ∉ faults)).filter (· ∉ report) := by
    rw [List.filter_filter]
    refine List.filter_congr fun fault _ => ?_
    simp [mem_extend, not_or]
  rw [extend, hnew]
  simp [extend]

theorem nodup_extend {report faults : List Fault} (hreport : report.Nodup)
    (hfaults : faults.Nodup) : (extend report faults).Nodup := by
  refine List.nodup_append.mpr ⟨hreport, hfaults.filter _, ?_⟩
  rintro fault hmem _ hnew rfl
  simp [hmem] at hnew

theorem record_eq_extend (report : List Fault) (fault : Fault) :
    record report fault = extend report [fault] := by
  by_cases h : fault ∈ report <;> simp [record, extend, h]

end Fault

/-! ## Framed renderings -/

namespace Rendering

variable {α β : Type} {x : Rendering α} {f : α → Rendering β}

/-- The result with an empty report. -/
def result (x : Rendering α) (stack : List String) : Except MissingArgument α :=
  (x ⟨stack, []⟩).1

/-- The report of a rendering that starts with an empty one. -/
def faults (x : Rendering α) (stack : List String) : List Fault :=
  (x ⟨stack, []⟩).2.report

structure Framed (x : Rendering α) : Prop where
  run : ∀ stack report,
    x ⟨stack, report⟩ = (x.result stack, ⟨stack, Fault.extend report (x.faults stack)⟩)
  nodup : ∀ stack, (x.faults stack).Nodup

/-- It is enough to know some result and some faults that do not depend on the report. -/
theorem Framed.of_run (h : ∀ stack, ∃ answer new, new.Nodup ∧
    ∀ report, x ⟨stack, report⟩ = (answer, ⟨stack, Fault.extend report new⟩)) : Framed x := by
  refine ⟨fun stack report => ?_, fun stack => ?_⟩
  · obtain ⟨answer, new, -, hrun⟩ := h stack
    simp only [result, faults, hrun, Fault.nil_extend]
  · obtain ⟨answer, new, hnodup, hrun⟩ := h stack
    simpa only [faults, hrun, Fault.nil_extend] using hnodup

theorem Framed.bind_of_ok (hx : Framed x) {a : α} {stack : List String}
    (h : x.result stack = .ok a) (report : List Fault) :
    (x >>= f) ⟨stack, report⟩ = f a ⟨stack, Fault.extend report (x.faults stack)⟩ := by
  rw [bind_apply, hx.run, h]

theorem Framed.bind_of_error (hx : Framed x) {e : MissingArgument} {stack : List String}
    (h : x.result stack = .error e) (report : List Fault) :
    (x >>= f) ⟨stack, report⟩ =
      (.error e, ⟨stack, Fault.extend report (x.faults stack)⟩) := by
  rw [bind_apply, hx.run, h]

theorem Framed.pure (a : α) : Framed (pure a : Rendering α) :=
  .of_run fun stack => ⟨.ok a, [], .nil, fun report => by rw [Fault.extend_nil]; rfl⟩

theorem Framed.bind (hx : Framed x) (hf : ∀ a, Framed (f a)) : Framed (x >>= f) := by
  refine .of_run fun stack => ?_
  cases h : x.result stack with
  | ok a =>
    refine ⟨(f a).result stack, Fault.extend (x.faults stack) ((f a).faults stack),
      Fault.nodup_extend (hx.nodup stack) ((hf a).nodup stack), fun report => ?_⟩
    rw [hx.bind_of_ok h, (hf a).run, Fault.extend_extend]
  | error e => exact ⟨.error e, x.faults stack, hx.nodup stack, hx.bind_of_error h⟩

theorem Framed.faulty (fault : Fault) (text : String) : Framed (faulty fault text) :=
  .of_run fun stack => ⟨.ok text, [fault], by simp, fun report => by
    rw [Rendering.faulty, Fault.record_eq_extend]⟩

theorem Framed.placeholder (fault : Fault) (key : String) : Framed (placeholder fault key) :=
  .faulty fault _

theorem Framed.argument (args : Arguments) (name : String) : Framed (argument args name) := by
  unfold Rendering.argument
  split
  · exact .pure _
  · exact .of_run fun stack => ⟨_, [], .nil, fun report => by rw [Fault.extend_nil]⟩

theorem Framed.stack : Framed Rendering.stack :=
  .of_run fun stack => ⟨.ok stack, [], .nil, fun report => by rw [Fault.extend_nil]; rfl⟩

/-- The key goes on the stack and comes off again. -/
theorem Framed.within (hx : Framed x) (key : String) : Framed (x.within key) :=
  .of_run fun stack => ⟨x.result (stack ++ [key]), x.faults (stack ++ [key]), hx.nodup _,
    fun report => by simp only [Rendering.within, hx.run, List.dropLast_concat]⟩

/-- All renderings are composed of framed ones. -/
theorem framed_closed (lookup : Lookup) : Closed lookup Framed where
  pure := .pure
  bind := .bind
  argument := .argument
  stack := .stack
  faulty text _ := .faulty _ text
  within key hx := hx.within key

end Rendering

open Rendering

theorem framed_value (l : Locale) (v : Value) : Framed (v.render l) :=
  (framed_closed ⟨fun _ => none, fun _ => none⟩).value l v

section

variable {l : Locale} {lookup : Lookup} {enter : Enter} {args : Arguments}
  (henter : ∀ key p args, Framed (enter key p args))
include henter

theorem framed_inline (e : Inline) : Framed (e.render l lookup enter args) :=
  (framed_closed lookup).inline henter e

theorem framed_select (e : Inline) : Framed (e.select l lookup enter args) :=
  (framed_closed lookup).select henter e

theorem framed_expression (e : Expression) : Framed (e.render l lookup enter args) :=
  (framed_closed lookup).expression henter e

theorem framed_variant (variants : List (Variant Pattern)) (index : Nat) :
    Framed (renderVariant l lookup enter args variants index) :=
  (framed_closed lookup).variant henter variants index

theorem framed_elements (p : Pattern) : Framed (renderElements l lookup enter args p) :=
  (framed_closed lookup).elements henter p

end

/-- Entering a reference leaves the stack as it was, whatever happens inside. -/
theorem framed_enter (l : Locale) (lookup : Lookup) (maxDepth levels : Nat) (key : String)
    (p : Pattern) (args : Arguments) :
    Framed (Phrasebook.enter l lookup maxDepth levels key p args) :=
  (framed_closed lookup).enter l maxDepth levels key p args

/-! ## References -/

section

variable {l : Locale} {lookup : Lookup} {maxDepth levels : Nat} {key : String} {p : Pattern}
  {args : Arguments} {stack : List String} {report : List Fault}

theorem enter_of_refused {fault : Fault} (h : refusal? maxDepth stack key = some fault) :
    enter l lookup maxDepth levels key p args ⟨stack, report⟩ =
      placeholder fault key ⟨stack, report⟩ := by
  cases levels with
  | zero => simp [enter, bind_apply, Rendering.stack, h]
  | succ levels => simp [enter, bind_apply, Rendering.stack, h]

/-- Without levels, a reference that the stack allows is still too deep. -/
theorem enter_zero_of_allowed (h : refusal? maxDepth stack key = none) :
    enter l lookup maxDepth 0 key p args ⟨stack, report⟩ =
      placeholder .tooDeep key ⟨stack, report⟩ := by
  simp [enter, bind_apply, Rendering.stack, h]

theorem enter_of_allowed (h : refusal? maxDepth stack key = none) :
    enter l lookup maxDepth (levels + 1) key p args ⟨stack, report⟩ =
      (renderElements l lookup (enter l lookup maxDepth levels) args p).within key
        ⟨stack, report⟩ := by
  simp [enter, bind_apply, Rendering.stack, h]

end

/-! ## Scopes -/

/-- A scope that has not been used. -/
def Scope.fresh (locale : String) (lookup : Lookup) (maxDepth : Nat) : Scope :=
  { locale, lookup, maxDepth }

end Phrasebook
