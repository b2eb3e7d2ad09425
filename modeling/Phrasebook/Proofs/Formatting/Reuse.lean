import Phrasebook.Proofs.Formatting.Framing

/-!
# Scopes may be used again

A scope that has been used answers as a new one would. Nothing is left of earlier uses but
their faults in the report, each of them once, and even those are gone when the report is
taken.

## Main definitions

* `Scope.Use`: what may be done with a scope.
* `Scope.after`: a scope after some uses.
-/

namespace Phrasebook.Scope

/-- What a scope may be asked to format: a pattern, or the pattern of an entry. -/
inductive Request where
  | pattern (p : Pattern) (args : Arguments)
  | entry (key : String) (p : Pattern) (args : Arguments)

variable [LocaleData]

def answer (s : Scope) : Request → Except MissingArgument String × Scope
  | .pattern p args => s.format p args
  | .entry key p args => s.formatEntry key p args

inductive Use where
  | ask (request : Request)
  | takeReport

/-- The scope after one use; answers that fail count as well. -/
def use (s : Scope) : Use → Scope
  | .ask request => (s.answer request).2
  | .takeReport => s.takeReport.2

def after (s : Scope) (uses : List Use) : Scope :=
  uses.foldl use s

/-! ## One use -/

variable {new : Scope} {report : List Fault}

/-- What a scope renders to answer. -/
def rendering (s : Scope) : Request → Rendering String
  | .pattern p args => renderElements (Locale.ofTag s.locale) s.lookup s.enter args p
  | .entry key p args => s.enter key p args

theorem answer_eq_run (s : Scope) (request : Request) :
    s.answer request = s.run (s.rendering request) := by
  cases request <;> rfl

theorem framed_rendering (s : Scope) (request : Request) : (s.rendering request).Framed := by
  cases request with
  | pattern p args => exact framed_elements (framed_enter _ _ _ _) p
  | entry key p args => exact framed_enter _ _ _ _ key p args

/-- An answer is what a new scope would give, and the report gets its faults. -/
theorem answer_framed (hnew : new.toTrace = {}) (report : List Fault) (request : Request) :
    { new with report }.answer request = ((new.answer request).1,
      { new with report := Fault.extend report (new.answer request).2.report }) := by
  have hx := framed_rendering new request
  have hsame : { new with report }.rendering request = new.rendering request := by
    cases request <;> rfl
  rw [answer_eq_run, answer_eq_run, hsame]
  simp only [run, hnew, hx.run, Fault.nil_extend]

theorem nodup_answer (hnew : new.toTrace = {}) (request : Request) :
    (new.answer request).2.report.Nodup := by
  rw [answer_eq_run, run, hnew]
  exact (framed_rendering new request).nodup []

/-- One use changes nothing but the report, and repeats no fault in it. -/
theorem use_framed (hnew : new.toTrace = {}) (hreport : report.Nodup) (u : Use) :
    ∃ report', report'.Nodup ∧ { new with report }.use u = { new with report := report' } := by
  cases u with
  | ask request =>
    refine ⟨_, Fault.nodup_extend hreport (nodup_answer hnew request), ?_⟩
    rw [use, answer_framed hnew]
  | takeReport => exact ⟨[], .nil, rfl⟩

/-! ## Many uses -/

theorem after_framed (hnew : new.toTrace = {}) (hreport : report.Nodup) (uses : List Use) :
    ∃ report', report'.Nodup ∧
      { new with report }.after uses = { new with report := report' } := by
  induction uses generalizing report with
  | nil => exact ⟨report, hreport, rfl⟩
  | cons u uses ih =>
    obtain ⟨report₁, hreport₁, huse⟩ := use_framed hnew hreport u
    obtain ⟨report₂, hreport₂, hafter⟩ := ih hreport₁
    refine ⟨report₂, hreport₂, ?_⟩
    rw [after, List.foldl_cons, huse]
    exact hafter

/-- After any uses the stack is empty again and the report has no fault twice. Whatever is
asked next is answered as by a new scope, and the report gets the faults that the new scope
would report, without those that it has. When it is taken, the scope is new again. -/
theorem answer_after_uses (locale : String) (lookup : Lookup) (maxDepth : Nat)
    (uses : List Use) :
    let new := fresh locale lookup maxDepth
    let s := new.after uses
    s.stack = [] ∧ s.report.Nodup ∧
      (∀ request, s.answer request = ((new.answer request).1,
        { s with report := s.report ++ (new.answer request).2.report.filter (· ∉ s.report) })) ∧
      s.takeReport = (s.report, new) := by
  intro new s
  have hnew : new.toTrace = {} := rfl
  obtain ⟨report, hreport, hs⟩ := after_framed hnew List.nodup_nil uses
  have hs : s = { new with report } := hs
  rw [hs]
  exact ⟨rfl, hreport, answer_framed hnew report, rfl⟩

end Phrasebook.Scope
