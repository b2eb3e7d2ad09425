import Phrasebook.Proofs.Formatting.Framing

/-!
# Two renderings in lockstep

The same pattern may be rendered twice under different conditions. As long as arguments and
references are rendered alike, so is the pattern: a relation of renderings that is kept where
one step follows another, and where a key is being resolved, relates the two runs as a whole.

A lookup that knows more than another one renders whatever the other one renders without
coming upon an unknown message or term, and in the same way.

## Main definitions

* `Rendering.Congruence`: a relation of renderings that composition keeps.
* `Rendering.Alike`: arguments and references are rendered alike under two conditions.
* `Rendering.Follows`: a rendering that does what another one does, unless that one reports
  certain faults.
* `Lookup.Extends`: a lookup that has whatever another one has.
-/

namespace Phrasebook

namespace Rendering

/-- Renderings that leave no trace but their faults are related to themselves, and what is
composed of related renderings is related. -/
structure Congruence (R : ∀ {α : Type}, Rendering α → Rendering α → Prop) : Prop where
  refl : ∀ {α : Type} {x : Rendering α}, Framed x → R x x
  bind : ∀ {α β : Type} {x y : Rendering α} {f g : α → Rendering β},
    R x y → (∀ a, R (f a) (g a)) → R (x >>= f) (y >>= g)
  within : ∀ {α : Type} {x y : Rendering α} (key), R x y → R (x.within key) (y.within key)

/-- Related renderings of arguments and references, where all that differs comes from. -/
structure Alike (R : ∀ {α : Type}, Rendering α → Rendering α → Prop) (l : Locale)
    (lookup lookup' : Lookup) (enter enter' : Enter) (args args' : Arguments) : Prop where
  argument : ∀ name, R (argument args name) (argument args' name)
  message : ∀ r, R (Inline.render l lookup enter args (.message r))
    (Inline.render l lookup' enter' args' (.message r))
  term : ∀ r, R (Inline.render l lookup enter args (.term r))
    (Inline.render l lookup' enter' args' (.term r))

namespace Congruence

variable {R : ∀ {α : Type}, Rendering α → Rendering α → Prop} (hR : Congruence R)
  {l : Locale} {lookup lookup' : Lookup} {enter enter' : Enter} {args args' : Arguments}
include hR

/-- With one lookup, references are rendered alike if the patterns that they lead to are
entered alike. -/
theorem alike (l : Locale) (lookup : Lookup)
    (hargument : ∀ name, R (argument args name) (argument args' name))
    (hmessage : ∀ key p, R (enter key p args) (enter' key p args'))
    (hterm : ∀ key p, R (enter key p []) (enter' key p [])) :
    Alike R l lookup lookup enter enter' args args' where
  argument := hargument
  message r := by
    simp only [Inline.render]
    split
    · exact hmessage _ _
    · exact hR.refl (.placeholder _ _)
  term r := by
    simp only [Inline.render]
    split
    · exact hterm _ _
    · exact hR.refl (.placeholder _ _)

theorem inline (h : Alike R l lookup lookup' enter enter' args args') (i : Inline) :
    R (i.render l lookup enter args) (i.render l lookup' enter' args') := by
  cases i with
  | text value => exact hR.refl (.pure value)
  | number literal => exact hR.refl ((framed_closed lookup).literal l literal)
  | argument name => exact hR.bind (h.argument name) fun v => hR.refl (framed_value l v)
  | message r => exact h.message r
  | term r => exact h.term r

theorem select (h : Alike R l lookup lookup' enter enter' args args') (i : Inline) :
    R (i.select l lookup enter args) (i.select l lookup' enter' args') := by
  cases i with
  | text value => exact hR.refl (.pure _)
  | number literal => exact hR.refl (.pure _)
  | argument name =>
    refine hR.bind (h.argument name) fun v => ?_
    cases v <;> exact hR.refl (.pure _)
  | message r => exact hR.bind (h.message r) fun text => hR.refl (.pure _)
  | term r => exact hR.bind (h.term r) fun text => hR.refl (.pure _)

mutual

theorem expression (h : Alike R l lookup lookup' enter enter' args args') : ∀ e : Expression,
    R (e.render l lookup enter args) (e.render l lookup' enter' args')
  | .inline i => by
    rw [Expression.render, Expression.render]
    exact hR.inline h i
  | .select selector variants default => by
    rw [Expression.render, Expression.render]
    exact hR.bind (hR.select h selector) fun value => variant h variants _
termination_by structural e => e

theorem variant (h : Alike R l lookup lookup' enter enter' args args') :
    ∀ (variants : List (Variant Pattern)) (index : Nat),
      R (renderVariant l lookup enter args variants index)
        (renderVariant l lookup' enter' args' variants index)
  | [], _ => by
    rw [renderVariant, renderVariant]
    exact hR.refl (.pure "")
  | ⟨_, value⟩ :: _, 0 => by
    rw [renderVariant, renderVariant]
    exact elements h value
  | _ :: variants, index + 1 => by
    rw [renderVariant, renderVariant]
    exact variant h variants index
termination_by structural variants => variants

theorem elements (h : Alike R l lookup lookup' enter enter' args args') :
    ∀ p : List (Element Expression),
      R (renderElements l lookup enter args p) (renderElements l lookup' enter' args' p)
  | [] => by
    rw [renderElements, renderElements]
    exact hR.refl (.pure "")
  | .text t :: p => by
    rw [renderElements, renderElements]
    exact hR.bind (elements h p) fun rest => hR.refl (.pure _)
  | .placeable e :: p => by
    rw [renderElements, renderElements]
    exact hR.bind (expression h e) fun first =>
      hR.bind (elements h p) fun rest => hR.refl (.pure _)
termination_by structural p => p

end

end Congruence

/-! ## Renderings that follow others -/

variable {α β : Type} {P : Fault → Prop} {x y : Rendering α} {f g : α → Rendering β}

theorem Framed.mem_report (hx : Framed x) {t : Trace} {fault : Fault} (h : fault ∈ t.report) :
    fault ∈ (x t).2.report := by
  rw [show x t = _ from hx.run t.stack t.report]
  exact Fault.mem_extend.mpr (.inl h)

/-- The second rendering has the result of the first one and leaves the same trace, if all
faults in that trace have the property `P`. -/
structure Follows (P : Fault → Prop) (x y : Rendering α) : Prop where
  framed : Framed x
  agree : ∀ t, (∀ fault ∈ (x t).2.report, P fault) → y t = x t

theorem Follows.refl (hx : Framed x) : Follows P x x := ⟨hx, fun _ _ => rfl⟩

theorem Follows.bind (hx : Follows P x y) (hf : ∀ a, Follows P (f a) (g a)) :
    Follows P (x >>= f) (y >>= g) := by
  refine ⟨hx.framed.bind fun a => (hf a).framed, fun t h => ?_⟩
  have hfirst := hx.agree t
  rw [bind_apply] at h ⊢
  rw [bind_apply]
  cases hrun : x t with
  | mk result t' =>
    rw [hrun] at h hfirst
    cases result with
    | ok a =>
      -- The faults of the first part are still there at the end.
      have hkept : ∀ fault ∈ t'.report, P fault := fun fault hfault =>
        h fault ((hf a).framed.mem_report hfault)
      rw [hfirst hkept]
      exact (hf a).agree t' h
    | error e => rw [hfirst h]

theorem Follows.within (hx : Follows P x y) (key : String) :
    Follows P (x.within key) (y.within key) := by
  refine ⟨hx.framed.within key, fun t h => ?_⟩
  simp only [Rendering.within] at h ⊢
  rw [hx.agree _ h]

theorem follows_congruence (P : Fault → Prop) : Congruence (Follows P) where
  refl := .refl
  bind := .bind
  within key hx := hx.within key

theorem mem_report_faulty (fault : Fault) (text : String) (t : Trace) :
    fault ∈ (faulty fault text t).2.report := by
  rw [Rendering.faulty, Fault.record_eq_extend]
  exact Fault.mem_extend.mpr (.inr (.head _))

/-- Where a fault without the property is reported, anything may follow. -/
theorem Follows.of_faulty {fault : Fault} {y : Rendering String} (h : ¬ P fault)
    (text : String) : Follows P (faulty fault text) y :=
  ⟨.faulty fault text, fun t hreport => absurd (hreport fault (mem_report_faulty fault text t)) h⟩

end Rendering

/-! ## Larger lookups -/

/-- The fault is not that a message or a term is unknown. -/
def Fault.OfKnown (fault : Fault) : Prop :=
  (∀ id, fault ≠ .unknownMessage id) ∧ ∀ id, fault ≠ .unknownTerm id

/-- The larger lookup leads to the same messages and terms where the other one leads to any. -/
structure Lookup.Extends (larger lookup : Lookup) : Prop where
  message : ∀ {id m}, lookup.message id = some m → larger.message id = some m
  term : ∀ {id t}, lookup.term id = some t → larger.term id = some t

namespace Lookup.Extends

open Rendering

variable {larger lookup : Lookup} (h : larger.Extends lookup)
include h

theorem messagePattern (r : Reference) :
    lookup.messagePattern r = .error (.unknownMessage r.id) ∨
      larger.messagePattern r = lookup.messagePattern r := by
  unfold Lookup.messagePattern
  cases hm : lookup.message r.id with
  | none => exact .inl rfl
  | some m => simp [h.message hm]

theorem termPattern (r : Reference) :
    lookup.termPattern r = .error (.unknownTerm r.id) ∨
      larger.termPattern r = lookup.termPattern r := by
  unfold Lookup.termPattern
  cases ht : lookup.term r.id with
  | none => exact .inl rfl
  | some t => simp [h.term ht]

/-- References are rendered alike with the larger lookup, if entering a pattern is. -/
theorem alike {enter enter' : Enter}
    (henter : ∀ key p args, Follows Fault.OfKnown (enter key p args) (enter' key p args))
    (l : Locale) (args : Arguments) :
    Alike (Follows Fault.OfKnown) l lookup larger enter enter' args args where
  argument name := .refl (.argument args name)
  message r := by
    simp only [Inline.render]
    obtain hunknown | hsame := h.messagePattern r
    · rw [hunknown]
      exact .of_faulty (fun hknown => hknown.1 r.id rfl) _
    · rw [hsame]
      split
      · exact henter _ _ _
      · exact .refl (.placeholder _ _)
  term r := by
    simp only [Inline.render]
    obtain hunknown | hsame := h.termPattern r
    · rw [hunknown]
      exact .of_faulty (fun hknown => hknown.2 r.id rfl) _
    · rw [hsame]
      split
      · exact henter _ _ _
      · exact .refl (.placeholder _ _)

/-- By induction on the levels that are left, entering a pattern is. -/
theorem follows_enter (l : Locale) (maxDepth levels : Nat) (key : String) (p : Pattern)
    (args : Arguments) :
    Follows Fault.OfKnown (enter l lookup maxDepth levels key p args)
      (enter l larger maxDepth levels key p args) := by
  induction levels generalizing key p args with
  | zero => exact .refl (framed_enter l lookup maxDepth 0 key p args)
  | succ levels ih =>
    refine .bind (.refl .stack) fun stack => ?_
    split
    · exact .refl (.placeholder _ key)
    · exact .within ((follows_congruence _).elements (h.alike ih l args) p) key

end Lookup.Extends

end Phrasebook
