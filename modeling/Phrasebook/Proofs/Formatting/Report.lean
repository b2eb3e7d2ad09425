import Phrasebook.Proofs.Formatting.Closure
import Phrasebook.Proofs.Resource.WellFormed

/-!
# What reports are founded on

A rendering reports no dead end of its own making. Every fault that it adds to the report is
the answer of the lookup to some reference, unless it is about the nesting of references or
about a number. So a reference that leads to a pattern is never reported as a dead end,
wherever it stands.

## Main definitions

* `Rendering.Reports`: a rendering that adds only certain faults to the report.
* `Reference.deadEnds`: the faults that say that a message reference leads nowhere.
-/

namespace Phrasebook

open Alphabet

namespace Rendering

variable {α β : Type} {P : Fault → Prop} {x : Rendering α} {f : α → Rendering β}

/-- Faults that are new in the report have the property `P`. -/
def Reports (P : Fault → Prop) (x : Rendering α) : Prop :=
  ∀ t, ∀ fault ∈ (x t).2.report, fault ∈ t.report ∨ P fault

theorem Reports.pure (a : α) : Reports P (pure a : Rendering α) := fun _ _ h => .inl h

theorem Reports.bind (hx : Reports P x) (hf : ∀ a, Reports P (f a)) : Reports P (x >>= f) := by
  intro t fault hfault
  have hfirst := hx t fault
  rw [bind_apply] at hfault
  split at hfault
  · next a t' hrun =>
    rw [hrun] at hfirst
    rcases hf a t' fault hfault with h | h
    · exact hfirst h
    · exact .inr h
  · next e t' hrun =>
    rw [hrun] at hfirst
    exact hfirst hfault

theorem Reports.faulty {fault : Fault} (h : P fault) (text : String) :
    Reports P (faulty fault text) := by
  intro t fault' hfault
  simp only [Rendering.faulty, Fault.record] at hfault
  split at hfault
  · exact .inl hfault
  · rcases List.mem_append.mp hfault with hfault | hfault
    · exact .inl hfault
    · obtain rfl := List.mem_singleton.mp hfault
      exact .inr h

theorem Reports.argument (args : Arguments) (name : String) :
    Reports P (argument args name) := by
  unfold Rendering.argument
  split
  · exact .pure _
  · exact fun _ _ h => .inl h

theorem Reports.stack : Reports P Rendering.stack := fun _ _ h => .inl h

theorem Reports.within (hx : Reports P x) (key : String) : Reports P (x.within key) :=
  fun t => hx { t with stack := t.stack ++ [key] }

/-- Every fault that is reported has a reason. -/
theorem reports_closed (lookup : Lookup) : Closed lookup (Reports lookup.Founded) where
  pure := .pure
  bind := .bind
  argument := .argument
  stack := .stack
  faulty text h := .faulty h text
  within key hx := hx.within key

end Rendering

/-! ## Dead ends -/

/-- The ways to say that there is no pattern where a message reference leads. -/
def Reference.deadEnds (r : Reference) : List Fault :=
  match r.attr with
  | some name => [.unknownMessage r.id, .unknownAttribute r.id name]
  | none => [.unknownMessage r.id, .noValue r.id]

theorem Reference.mem_deadEnds {r : Reference} {fault : Fault} :
    fault ∈ r.deadEnds ↔ fault = .unknownMessage r.id ∨
      (∃ name, r.attr = some name ∧ fault = .unknownAttribute r.id name) ∨
      (r.attr = none ∧ fault = .noValue r.id) := by
  unfold deadEnds
  split
  · next name h => simp [h]
  · next h => simp [h]

/-- A minus opens no name, so the owner of an attribute is never taken for a term. -/
theorem Reference.WellFormed.id_ne_minus {r : Reference} (h : r.WellFormed) (id : String) :
    r.id ≠ "-" ++ id := by
  intro hid
  obtain ⟨c, cs, hname, hc, -⟩ := h.1
  obtain ⟨rfl, -⟩ : '-' = c ∧ id.toList = cs := by simpa [hid] using hname
  simp [isNameStart, isLetter] at hc

namespace Lookup

variable {lookup : Lookup} {r : Reference} {p : Pattern} {fault : Fault}

theorem messagePattern_eq_ok :
    lookup.messagePattern r = .ok p ↔
      ∃ m, lookup.message r.id = some m ∧ m.pattern? r.attr = some p := by
  unfold messagePattern
  split
  · next h => simp [h]
  · next m h =>
    simp only [h, Option.some.injEq, exists_eq_left']
    split <;> simp_all

theorem messagePattern_ne_error {r' : Reference} (h : lookup.messagePattern r = .ok p)
    (hmem : fault ∈ r.deadEnds) : lookup.messagePattern r' ≠ .error fault := by
  obtain ⟨m, hm, hp⟩ := messagePattern_eq_ok.mp h
  intro herror
  unfold messagePattern at herror
  -- The fault names the message and the attribute, so it is about the reference itself.
  split at herror
  · cases herror
    grind [Reference.mem_deadEnds]
  · split at herror
    · cases herror
    all_goals
      cases herror
      grind [Reference.mem_deadEnds]

theorem termPattern_ne_error {r' : Reference} (hr : r.WellFormed) (hmem : fault ∈ r.deadEnds) :
    lookup.termPattern r' ≠ .error fault := by
  intro herror
  unfold termPattern at herror
  split at herror
  · cases herror
    simp [Reference.mem_deadEnds] at hmem
  · split at herror
    · cases herror
    · cases herror
      obtain ⟨-, hid⟩ : r.attr = some (r'.attr.getD "") ∧ "-" ++ r'.id = r.id := by
        simpa [Reference.mem_deadEnds] using hmem
      exact hr.id_ne_minus r'.id hid.symm

/-- A reference that leads to a pattern is not reported as a dead end. -/
theorem not_founded_of_ok (hr : r.WellFormed) (h : lookup.messagePattern r = .ok p)
    (hmem : fault ∈ r.deadEnds) : ¬ lookup.Founded fault := by
  intro hfounded
  cases hfounded with
  | message herror => exact messagePattern_ne_error h hmem herror
  | term herror => exact termPattern_ne_error hr hmem herror
  | _ => simp [Reference.mem_deadEnds] at hmem

end Lookup

end Phrasebook
