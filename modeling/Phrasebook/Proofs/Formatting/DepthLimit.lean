import Mathlib
import Phrasebook.Locale.Builtin
import Phrasebook.Proofs.Formatting.Lockstep

/-!
# The depth limit

A limit that was not hit might as well be higher. Cycles are refused before depth is looked at,
so a higher limit does not turn one refusal into another. It lets in only what was too deep
before, and that has been reported.
-/

namespace Phrasebook

open Rendering

variable {maxDepth maxDepth' : Nat}

/-- Under a higher limit a reference is refused for the same reason, unless it was too deep. -/
theorem refusal?_raise (h : maxDepth ≤ maxDepth') (stack : List String) (key : String) :
    refusal? maxDepth stack key = some .tooDeep ∨
      refusal? maxDepth' stack key = refusal? maxDepth stack key := by
  unfold refusal?
  by_cases hkey : key ∈ stack
  · simp [hkey]
  · by_cases hdepth : maxDepth ≤ stack.length
    · simp [hkey, hdepth]
    · have hdepth' : ¬ maxDepth' ≤ stack.length := by omega
      simp [hkey, hdepth, hdepth']

section

variable {l : Locale} {lookup : Lookup} {levels levels' : Nat} {key : String} {p : Pattern}
  {args : Arguments} {stack : List String} {report : List Fault}

/-- A reference that is refused, but not as too deep, gets the same placeholder. -/
theorem enter_raise_of_refused {fault : Fault} (h : maxDepth ≤ maxDepth')
    (hrefusal : refusal? maxDepth stack key = some fault)
    (hshallow : ∀ fault ∈ (enter l lookup maxDepth levels key p args ⟨stack, report⟩).2.report,
      fault ≠ .tooDeep) :
    enter l lookup maxDepth' levels' key p args ⟨stack, report⟩ =
      enter l lookup maxDepth levels key p args ⟨stack, report⟩ := by
  rw [enter_of_refused hrefusal] at hshallow ⊢
  have hfault : fault ≠ .tooDeep := hshallow fault (mem_report_faulty _ _ _)
  rcases refusal?_raise h stack key with hdeep | hsame
  · rw [hrefusal] at hdeep
    exact absurd (Option.some.inj hdeep) hfault
  · exact enter_of_refused (hsame.trans hrefusal)

theorem refusal?_raise_of_allowed (h : maxDepth ≤ maxDepth')
    (hrefusal : refusal? maxDepth stack key = none) : refusal? maxDepth' stack key = none := by
  rcases refusal?_raise h stack key with hdeep | hsame
  · rw [hrefusal] at hdeep
    cases hdeep
  · exact hsame.trans hrefusal

end

/-- A pattern is rendered alike if what it refers to is entered alike. -/
theorem Rendering.Follows.elements {P : Fault → Prop} {enter enter' : Enter}
    (henter : ∀ key p args, Follows P (enter key p args) (enter' key p args)) (l : Locale)
    (lookup : Lookup) (args : Arguments) (p : Pattern) :
    Follows P (renderElements l lookup enter args p) (renderElements l lookup enter' args p) := by
  have hR := follows_congruence P
  refine hR.elements (hR.alike l lookup ?_ ?_ ?_) p
  · exact fun name => .refl (.argument args name)
  · exact fun key q => henter key q args
  · exact fun key q => henter key q []

/-- By induction on the levels that are left under the lower limit. There are always as many under
the higher one. -/
theorem follows_raise (l : Locale) (lookup : Lookup) (h : maxDepth ≤ maxDepth')
    {levels levels' : Nat} (hlevels : levels ≤ levels') (key : String) (p : Pattern)
    (args : Arguments) :
    Follows (· ≠ .tooDeep) (enter l lookup maxDepth levels key p args)
      (enter l lookup maxDepth' levels' key p args) := by
  induction levels generalizing levels' key p args with
  | zero =>
    refine ⟨framed_enter l lookup maxDepth 0 key p args, fun ⟨stack, report⟩ hshallow => ?_⟩
    cases hrefusal : refusal? maxDepth stack key with
    | some fault => exact enter_raise_of_refused h hrefusal hshallow
    | none =>
      rw [enter_zero_of_allowed hrefusal] at hshallow
      exact absurd rfl (hshallow .tooDeep (mem_report_faulty _ _ _))
  | succ levels ih =>
    obtain ⟨levels', rfl⟩ : ∃ k, levels' = k + 1 := ⟨levels' - 1, by omega⟩
    have hbody := Follows.elements (ih (by omega : levels ≤ levels')) l lookup args p
    refine ⟨framed_enter l lookup maxDepth _ key p args, fun ⟨stack, report⟩ hshallow => ?_⟩
    cases hrefusal : refusal? maxDepth stack key with
    | some fault => exact enter_raise_of_refused h hrefusal hshallow
    | none =>
      rw [enter_of_allowed hrefusal] at hshallow ⊢
      rw [enter_of_allowed (refusal?_raise_of_allowed h hrefusal)]
      exact (hbody.within key).agree _ hshallow

/-- If nothing was too deep for a new scope, one with a higher limit gives the same text or misses
the same argument, and has the same report. -/
theorem Scope.format_raise [LocaleData] (locale : String) (lookup : Lookup)
    {maxDepth maxDepth' : Nat} (p : Pattern) (args : Arguments) (h : maxDepth ≤ maxDepth')
    (hshallow : .tooDeep ∉ ((fresh locale lookup maxDepth).format p args).2.report) :
    ((fresh locale lookup maxDepth').format p args).1 =
        ((fresh locale lookup maxDepth).format p args).1 ∧
      ((fresh locale lookup maxDepth').format p args).2.report =
        ((fresh locale lookup maxDepth).format p args).2.report := by
  have henter := follows_raise (Locale.ofTag locale) lookup h h
  have hfollows := Follows.elements henter (Locale.ofTag locale) lookup args p
  have hagree := hfollows.agree {} fun fault hfault hdeep => hshallow (hdeep ▸ hfault)
  exact ⟨congrArg (·.1) hagree, congrArg (·.2.report) hagree⟩

/-- A message that shows itself, and one that is not there. -/
def echo : Lookup where
  message id :=
    if id = "echo" then
      some (.make id (some [.text "a ", .placeable (.inline (.message ⟨"echo", none⟩)),
        .placeable (.inline (.message ⟨"gone", none⟩))]) [] none)
    else none
  term _ := none

open Builtin

/-- The stack is full where the message comes upon itself, but this counts as a cycle. -/
theorem Scope.format_raise_echo :
    let p : Pattern := [.placeable (.inline (.message ⟨"echo", none⟩))]
    let report : List Fault := [.cycle ["echo", "echo"], .unknownMessage "gone"]
    ((fresh "en" echo 1).format p []).2.report = report ∧
      ((fresh "en" echo 64).format p []).1 = .ok "a \x7becho\x7d\x7bgone\x7d" ∧
      ((fresh "en" echo 64).format p []).2.report = report := by
  intro p report
  have hresult : ((fresh "en" echo 1).format p []).1 = .ok "a \x7becho\x7d\x7bgone\x7d" := by cbv
  have hreport : ((fresh "en" echo 1).format p []).2.report = report := by cbv
  have hshallow : .tooDeep ∉ ((fresh "en" echo 1).format p []).2.report := by
    rw [hreport]
    simp [report]
  obtain ⟨hsame, hsame'⟩ := format_raise "en" echo p [] (by decide : 1 ≤ 64) hshallow
  exact ⟨hreport, hsame.trans hresult, hsame'.trans hreport⟩

end Phrasebook
