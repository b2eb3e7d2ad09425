import Mathlib
import Phrasebook.Locale.Builtin
import Phrasebook.Proofs.Formatting.Framing
import Phrasebook.Proofs.Formatting.Meaning

/-!
# Rendering gives the meaning of a pattern

A text that is rendered without a fault is the meaning of the pattern. Conversely, a
meaning whose references are nested no deeper than the limit is rendered without a fault:
the guard against cycles stops no reference that has a meaning. A reference that is being
resolved already would have to have a meaning inside of its own meaning, and then a less
nested derivation of it, and so on without end. This holds even when the inner one is
without arguments, because what has a meaning without arguments has the same with any.

## Main definitions

* `Rendering.Gives`: a result without any fault.
* `Free`: no key on the stack has a meaning that is nested less deep than the current one.
-/

namespace Phrasebook

/-! ## Results without faults -/

namespace Rendering

variable {α β : Type} {x : Rendering α} {f : α → Rendering β} {stack : List String} {a : α} {b : β}

def Gives (x : Rendering α) (stack : List String) (a : α) : Prop :=
  x ⟨stack, []⟩ = (.ok a, ⟨stack, []⟩)

theorem Framed.gives_iff (hx : Framed x) :
    x.Gives stack a ↔ x.result stack = .ok a ∧ x.faults stack = [] := by
  rw [Gives, hx.run, Fault.nil_extend]
  simp

@[simp] theorem gives_pure {a' : α} : (pure a' : Rendering α).Gives stack a ↔ a' = a := by
  simp [Gives, Pure.pure, Rendering.pure]

/-- A sequence gives a result if all of its parts do. -/
theorem Framed.gives_bind (hx : Framed x) (hf : ∀ a, Framed (f a)) :
    (x >>= f).Gives stack b ↔ ∃ a, x.Gives stack a ∧ (f a).Gives stack b := by
  cases h : x.result stack with
  | error e =>
    rw [Gives, hx.bind_of_error h]
    simp [hx.gives_iff, h]
  | ok a =>
    rw [Gives, hx.bind_of_ok h, Fault.nil_extend, (hf a).run]
    simp only [Prod.mk.injEq, Trace.mk.injEq, true_and, Fault.extend_eq_nil]
    constructor
    · rintro ⟨hb, hfirst, hrest⟩
      exact ⟨a, hx.gives_iff.mpr ⟨h, hfirst⟩, (hf a).gives_iff.mpr ⟨hb, hrest⟩⟩
    · rintro ⟨a', hx', hf'⟩
      obtain ⟨ha, hfirst⟩ := hx.gives_iff.mp hx'
      obtain rfl := Except.ok.inj (h.symm.trans ha)
      obtain ⟨hb, hrest⟩ := (hf a).gives_iff.mp hf'
      exact ⟨hb, hfirst, hrest⟩

@[simp] theorem not_gives_faulty {fault : Fault} {text out : String} :
    ¬ (faulty fault text).Gives stack out := by
  simp [Gives, faulty, Fault.record]

@[simp] theorem not_gives_placeholder {fault : Fault} {key out : String} :
    ¬ (placeholder fault key).Gives stack out :=
  not_gives_faulty

@[simp] theorem gives_argument {args : Arguments} {name : String} {v : Value} :
    (argument args name).Gives stack v ↔ args.get? name = some v := by
  unfold argument
  split
  · simp_all
  · simp_all [Gives]

@[simp] theorem gives_stack {s : List String} : Rendering.stack.Gives stack s ↔ stack = s := by
  simp [Gives, Rendering.stack]

theorem Framed.gives_within (hx : Framed x) {key : String} :
    (x.within key).Gives stack a ↔ x.Gives (stack ++ [key]) a := by
  rw [hx.gives_iff, Gives]
  simp only [Rendering.within, hx.run, List.dropLast_concat, Fault.nil_extend]
  simp

end Rendering

open Rendering

/-! ## Inline expressions -/

theorem gives_literal {l : Locale} {literal : NumberLiteral} {stack : List String} {out : String} :
    (literal.render l).Gives stack out ↔
      ∃ d, literal.toDecimal? = some d ∧ l.formatNumber? d = some out := by
  rw [← Option.bind_eq_some_iff]
  unfold NumberLiteral.render
  cases literal.toDecimal?.bind l.formatNumber? <;> simp

theorem gives_value {l : Locale} {v : Value} {stack : List String} {out : String} :
    (v.render l).Gives stack out ↔ v.shown? l = some out := by
  cases v with
  | text t => simp [Value.render, Value.shown?]
  | integer n =>
    simp only [Value.render, Value.toDecimal?, Value.shown?, Option.bind_some]
    cases l.formatNumber? (.ofInt n) <;> simp
  | float x =>
    simp only [Value.render, Value.toDecimal?, Value.shown?]
    cases x.toDecimal?.bind l.formatNumber? <;> simp

section Inline

variable {l : Locale} {lookup : Lookup} {enter : Enter} {args : Arguments}
  {stack : List String} {out : String}

theorem gives_argumentValue {name : String} :
    ((Inline.argument name).render l lookup enter args).Gives stack out ↔
      ∃ v, args.get? name = some v ∧ v.shown? l = some out := by
  rw [Inline.render, (Framed.argument args name).gives_bind fun v => framed_value l v]
  simp only [gives_argument, gives_value]

theorem gives_message {r : Reference} :
    ((Inline.message r).render l lookup enter args).Gives stack out ↔
      ∃ q, lookup.messagePattern r = .ok q ∧ (enter r.toText q args).Gives stack out := by
  simp only [Inline.render]
  split <;> simp_all

theorem gives_term {r : Reference} :
    ((Inline.term r).render l lookup enter args).Gives stack out ↔
      ∃ q, lookup.termPattern r = .ok q ∧ (enter r.toTermText q []).Gives stack out := by
  simp only [Inline.render]
  split <;> simp_all

theorem select_argument (name : String) :
    (Inline.argument name).select l lookup enter args =
      argument args name >>= fun v => pure v.selector := by
  rw [Inline.select]
  congr
  funext v
  cases v <;> rfl

theorem select_of_isReference {e : Inline} (he : e.isReference = true) :
    e.select l lookup enter args =
      e.render l lookup enter args >>= fun t => pure (.text t) := by
  cases e with
  | message r => rfl
  | term r => rfl
  | _ => cases he

/-- A selector gives what it is compared by: the text of a reference, or else its value. -/
theorem gives_select (henter : ∀ key p args, Framed (enter key p args)) {e : Inline}
    {value : SelectorValue} :
    (e.select l lookup enter args).Gives stack value ↔
      e.direct? args = some value ∨ e.isReference = true ∧
        ∃ t, (e.render l lookup enter args).Gives stack t ∧ .text t = value := by
  cases he : e.isReference with
  | true =>
    rw [select_of_isReference he, (framed_inline henter e).gives_bind fun t => .pure _]
    cases e <;> simp_all [Inline.direct?, Inline.isReference]
  | false =>
    cases e with
    | text t => simp [Inline.select, Inline.direct?]
    | number literal => simp [Inline.select, Inline.direct?]
    | argument name =>
      rw [select_argument, (Framed.argument args name).gives_bind fun v => .pure _]
      simp [Inline.direct?]
    | message r => cases he
    | term r => cases he

end Inline

/-! ## Patterns -/

section Patterns

variable {l : Locale} {lookup : Lookup} {enter : Enter} {args : Arguments}
  (henter : ∀ key p args, Framed (enter key p args)) {stack : List String} {out : String}

theorem renderVariant_eq (variants : List (Variant Pattern)) (index : Nat) :
    renderVariant l lookup enter args variants index =
      renderElements l lookup enter args (variantAt variants index) := by
  induction variants generalizing index with
  | nil => simp [renderVariant, variantAt, renderElements]
  | cons v variants ih =>
    cases index with
    | zero => simp [renderVariant, variantAt]
    | succ index => simpa [renderVariant, variantAt] using ih index

@[simp] theorem gives_nil : (renderElements l lookup enter args []).Gives stack out ↔ "" = out := by
  rw [renderElements, gives_pure]

include henter

theorem gives_text {t : String} {p : Pattern} :
    (renderElements l lookup enter args (.text t :: p)).Gives stack out ↔
      ∃ rest, (renderElements l lookup enter args p).Gives stack rest ∧ t ++ rest = out := by
  rw [renderElements, (framed_elements henter p).gives_bind fun rest => .pure _]
  simp only [gives_pure]

theorem gives_placeable {e : Expression} {p : Pattern} :
    (renderElements l lookup enter args (.placeable e :: p)).Gives stack out ↔
      ∃ first rest, (e.render l lookup enter args).Gives stack first ∧
        (renderElements l lookup enter args p).Gives stack rest ∧ first ++ rest = out := by
  rw [renderElements, (framed_expression henter e).gives_bind fun first =>
    (framed_elements henter p).bind fun rest => .pure _]
  refine exists_congr fun first => ?_
  rw [(framed_elements henter p).gives_bind fun rest => .pure _]
  simp

theorem gives_selection {selector : Inline} {variants : List (Variant Pattern)} {default : Nat} :
    ((Expression.select selector variants default).render l lookup enter args).Gives stack out ↔
      ∃ value, (selector.select l lookup enter args).Gives stack value ∧
        (renderElements l lookup enter args (value.chosen l variants default)).Gives stack out := by
  rw [Expression.render, (framed_select henter selector).gives_bind fun value =>
    framed_variant henter variants _]
  simp only [renderVariant_eq, SelectorValue.chosen]

end Patterns

/-! ## References -/

section References

variable {l : Locale} {lookup : Lookup} {maxDepth levels : Nat} {key : String} {p : Pattern}
  {args : Arguments} {stack : List String} {out : String}

theorem refusal?_eq_none :
    refusal? maxDepth stack key = none ↔ key ∉ stack ∧ stack.length < maxDepth := by
  unfold refusal?
  split
  · simp_all
  · split <;> simp_all

theorem not_gives_enter_zero : ¬ (enter l lookup maxDepth 0 key p args).Gives stack out := by
  rw [enter, Framed.stack.gives_bind fun stack => .placeholder _ _]
  simp

theorem gives_enter_succ :
    (enter l lookup maxDepth (levels + 1) key p args).Gives stack out ↔
      key ∉ stack ∧ stack.length < maxDepth ∧
        (renderElements l lookup (enter l lookup maxDepth levels) args p).Gives
          (stack ++ [key]) out := by
  have hbody : Framed (renderElements l lookup (enter l lookup maxDepth levels) args p) :=
    framed_elements (framed_enter l lookup maxDepth levels) p
  refine (Framed.stack.gives_bind fun s => ?_).trans ?_
  · split
    · exact .placeholder _ _
    · exact hbody.within key
  · simp only [gives_stack, exists_eq_left']
    split
    · next fault h =>
      have hsome : ¬ (key ∉ stack ∧ stack.length < maxDepth) := by
        rw [← refusal?_eq_none, h]
        simp
      simp only [not_gives_placeholder, false_iff]
      exact fun hall => hsome ⟨hall.1, hall.2.1⟩
    · next h =>
      obtain ⟨hkey, hdepth⟩ := refusal?_eq_none.mp h
      rw [hbody.gives_within]
      simp [hkey, hdepth]

end References

/-! ## What is rendered without faults is the meaning -/

section Soundness

variable {l : Locale} {lookup : Lookup} {enter : Enter} {n : Nat}

/-- Whatever is entered without a fault gives its meaning, nested one level less deep. -/
def Sound (l : Locale) (lookup : Lookup) (n : Nat) (enter : Enter) : Prop :=
  ∀ key q args stack out, (enter key q args).Gives stack out →
    ∃ m, n = m + 1 ∧ Means l lookup m args (.pattern q) out

theorem means_of_inline (hsound : Sound l lookup n enter) {e : Inline} {args : Arguments}
    {stack : List String} {out : String} (h : (e.render l lookup enter args).Gives stack out) :
    Means l lookup n args (.inline e) out := by
  cases e with
  | text value =>
    obtain rfl := gives_pure.mp h
    exact .literal
  | number literal =>
    obtain ⟨d, hd, hout⟩ := gives_literal.mp h
    exact .number hd hout
  | argument name =>
    obtain ⟨v, hget, hshown⟩ := gives_argumentValue.mp h
    exact .argument hget hshown
  | message r =>
    obtain ⟨q, hq, h⟩ := gives_message.mp h
    obtain ⟨m, rfl, hmeans⟩ := hsound _ _ _ _ _ h
    exact .message hq hmeans
  | term r =>
    obtain ⟨q, hq, h⟩ := gives_term.mp h
    obtain ⟨m, rfl, hmeans⟩ := hsound _ _ _ _ _ h
    exact .term hq hmeans

variable {args : Arguments} {stack : List String}

mutual

theorem means_of_placeable (henter : ∀ key p args, Framed (enter key p args))
    (hsound : Sound l lookup n enter) :
    ∀ (e : Expression) {p : Pattern} {first rest : String},
      (e.render l lookup enter args).Gives stack first → Means l lookup n args (.pattern p) rest →
      Means l lookup n args (.pattern (.placeable e :: p)) (first ++ rest)
  | .inline e, p, first, rest, hfirst, hrest => by
    rw [Expression.render] at hfirst
    exact .inline (means_of_inline hsound hfirst) hrest
  | .select selector variants default, p, first, rest, hfirst, hrest => by
    obtain ⟨value, hvalue, hfirst⟩ := (gives_selection henter).mp hfirst
    have hchosen := means_of_variant henter hsound variants _
      (by rwa [SelectorValue.chosen] at hfirst)
    obtain hdirect | ⟨href, t, ht, rfl⟩ := (gives_select henter).mp hvalue
    · exact .select hdirect hchosen hrest
    · exact .selectByText href (means_of_inline hsound ht) hchosen hrest
termination_by structural e => e

theorem means_of_variant (henter : ∀ key p args, Framed (enter key p args))
    (hsound : Sound l lookup n enter) :
    ∀ (variants : List (Variant Pattern)) (index : Nat) {out : String},
      (renderElements l lookup enter args (variantAt variants index)).Gives stack out →
      Means l lookup n args (.pattern (variantAt variants index)) out
  | [], index, out, h => by
    obtain rfl := gives_nil.mp h
    exact .nil
  | ⟨_, value⟩ :: _, 0, out, h => means_of_elements henter hsound value h
  | _ :: variants, index + 1, out, h => means_of_variant henter hsound variants index h
termination_by structural variants => variants

theorem means_of_elements (henter : ∀ key p args, Framed (enter key p args))
    (hsound : Sound l lookup n enter) :
    ∀ (p : List (Element Expression)) {out : String},
      (renderElements l lookup enter args p).Gives stack out →
      Means l lookup n args (.pattern p) out
  | [], out, h => by
    obtain rfl := gives_nil.mp h
    exact .nil
  | .text t :: p, out, h => by
    obtain ⟨rest, hrest, rfl⟩ := (gives_text henter).mp h
    exact .text (means_of_elements henter hsound p hrest)
  | .placeable e :: p, out, h => by
    obtain ⟨first, rest, hfirst, hrest, rfl⟩ := (gives_placeable henter).mp h
    exact means_of_placeable henter hsound e hfirst (means_of_elements henter hsound p hrest)
termination_by structural p => p

end

theorem sound_enter (maxDepth levels : Nat) :
    Sound l lookup levels (Phrasebook.enter l lookup maxDepth levels) := by
  induction levels with
  | zero =>
    intro key q args stack out h
    exact absurd h not_gives_enter_zero
  | succ levels ih =>
    intro key q args stack out h
    obtain ⟨-, -, h⟩ := gives_enter_succ.mp h
    exact ⟨levels, rfl, means_of_elements (framed_enter l lookup maxDepth levels) ih q h⟩

end Soundness

/-! ## A meaning is rendered without faults -/

section Completeness

variable {l : Locale} {lookup : Lookup}

/-- No reference whose key is on the stack has a meaning nested less than `n` deep. -/
def Free (l : Locale) (lookup : Lookup) (stack : List String) (n : Nat) (args : Arguments) :
    Prop :=
  ∀ e : Inline, e.WellNamed → ∀ key ∈ stack, e.key? = some key → ∀ q, lookup.pattern? e = some q →
    ∀ m < n, ∀ out, ¬ Means l lookup m args (.pattern q) out

/-- Fewer levels and no arguments make fewer meanings. -/
theorem Free.mono {stack : List String} {m n : Nat} {args args' : Arguments}
    (h : Free l lookup stack n args) (hmn : m ≤ n) (hargs : args' = args ∨ args' = []) :
    Free l lookup stack m args' := by
  intro e he key hkey hk q hq k hkm out hmeans
  obtain rfl | rfl := hargs
  · exact h e he key hkey hk q hq k (by omega) out hmeans
  · exact h e he key hkey hk q hq k (by omega) out (hmeans.of_nil args)

theorem Free.push {stack : List String} {n : Nat} {args : Arguments} {e : Inline} {key : String}
    {q : Pattern} (h : Free l lookup stack n args) (he : e.WellNamed) (hkey : e.key? = some key)
    (hq : lookup.pattern? e = some q)
    (hleast : ∀ m < n, ∀ out, ¬ Means l lookup m args (.pattern q) out) :
    Free l lookup (stack ++ [key]) n args := by
  intro e' he' key' hmem hkey' q' hq'
  obtain hmem | hmem := List.mem_append.mp hmem
  · exact h e' he' key' hmem hkey' q' hq'
  · obtain rfl := List.mem_singleton.mp hmem
    obtain rfl := he.eq_of_key he' hkey hkey'
    obtain rfl := Option.some.inj (hq.symm.trans hq')
    exact hleast

/-- How a phrase is rendered. -/
def Phrase.render (l : Locale) (lookup : Lookup) (enter : Enter) (args : Arguments) :
    Phrase → Rendering String
  | .pattern p => renderElements l lookup enter args p
  | .inline e => e.render l lookup enter args

/-- Everything that has a meaning within `n` levels is rendered to it without a fault, if
the stack leaves so many levels and is free for them. -/
def Rendered (l : Locale) (lookup : Lookup) (n : Nat) : Prop :=
  ∀ args x out maxDepth levels stack, Means l lookup n args x out → x.WellNamed →
    n + stack.length ≤ maxDepth → n ≤ levels → Free l lookup stack n args →
      (x.render l lookup (enter l lookup maxDepth levels) args).Gives stack out

/-- A reference is entered: its key is not on the stack, and its pattern is rendered by a
derivation that is nested as little as possible. -/
theorem gives_enter {n : Nat} (hrendered : ∀ m ≤ n, Rendered l lookup m) {e : Inline}
    {key out : String} {q : Pattern} {args args' : Arguments} {maxDepth levels : Nat}
    {stack : List String} (he : e.WellNamed) (hkey : e.key? = some key)
    (hq : lookup.pattern? e = some q) (hnamed : q.WellNamed)
    (hmeans : Means l lookup n args' (.pattern q) out) (hargs : args' = args ∨ args' = [])
    (hdepth : n + 1 + stack.length ≤ maxDepth) (hlevels : n + 1 ≤ levels)
    (hfree : Free l lookup stack (n + 1) args) :
    (enter l lookup maxDepth levels key q args').Gives stack out := by
  obtain ⟨levels, rfl⟩ : ∃ k, levels = k + 1 := ⟨levels - 1, by omega⟩
  have hfree' := hfree.mono (Nat.le_refl _) hargs
  refine gives_enter_succ.mpr ⟨fun hmem => ?_, by omega, ?_⟩
  · exact hfree' e he key hmem hkey q hq n (by omega) out hmeans
  · obtain ⟨m, hmn, hm, hleast⟩ := hmeans.exists_least
    have hpush := (hfree'.mono (by omega : m ≤ n + 1) (.inl rfl)).push he hkey hq hleast
    exact hrendered m hmn args' (.pattern q) out maxDepth levels (stack ++ [key]) hm hnamed
      (by simp; omega) (by omega) hpush

theorem rendered (hlookup : lookup.WellNamed) (n : Nat) : Rendered l lookup n := by
  induction n using Nat.strongRecOn with
  | ind n ih =>
    intro args x out maxDepth levels stack hmeans hnamed hdepth hlevels hfree
    have henter := framed_enter l lookup maxDepth levels
    -- The derivation is followed as long as the nesting stays the same; references are left
    -- to the outer induction, which is free to choose a less nested derivation.
    induction hmeans with
    | nil =>
      rw [Phrase.render]
      exact gives_nil.mpr rfl
    | text _ ihrest =>
      rw [Phrase.render, gives_text henter]
      exact ⟨_, ihrest ih hnamed.tail hdepth hlevels hfree, rfl⟩
    | inline _ _ ihfirst ihrest =>
      rw [Phrase.render, gives_placeable henter]
      refine ⟨_, _, ?_, ihrest ih hnamed.tail hdepth hlevels hfree, rfl⟩
      rw [Expression.render]
      exact ihfirst ih hnamed.inline hdepth hlevels hfree
    | select hvalue _ _ ihfirst ihrest =>
      rw [Phrase.render, gives_placeable henter]
      refine ⟨_, _, ?_, ihrest ih hnamed.tail hdepth hlevels hfree, rfl⟩
      rw [gives_selection henter]
      exact ⟨_, (gives_select henter).mpr (.inl hvalue),
        ihfirst ih (hnamed.chosen l _) hdepth hlevels hfree⟩
    | selectByText href _ _ _ iht ihfirst ihrest =>
      have ht := iht ih hnamed.selector hdepth hlevels hfree
      rw [Phrase.render, gives_placeable henter]
      refine ⟨_, _, ?_, ihrest ih hnamed.tail hdepth hlevels hfree, rfl⟩
      rw [gives_selection henter]
      exact ⟨_, (gives_select henter).mpr (.inr ⟨href, _, ht, rfl⟩),
        ihfirst ih (hnamed.chosen l _) hdepth hlevels hfree⟩
    | literal =>
      rw [Phrase.render]
      exact gives_pure.mpr rfl
    | number hd hout => exact gives_literal.mpr ⟨_, hd, hout⟩
    | argument hget hshown =>
      rw [Phrase.render]
      exact gives_argumentValue.mpr ⟨_, hget, hshown⟩
    | @message n args r q out hq hmeans _ =>
      rw [Phrase.render, gives_message]
      refine ⟨q, hq, ?_⟩
      exact gives_enter (fun m hm => ih m (by omega)) (e := .message r) hnamed rfl
        (by simp [Lookup.pattern?, hq, Except.toOption]) (hlookup.message r q hq) hmeans (.inl rfl)
        hdepth hlevels hfree
    | @term n args r q out hq hmeans _ =>
      rw [Phrase.render, gives_term]
      refine ⟨q, hq, ?_⟩
      exact gives_enter (fun m hm => ih m (by omega)) (e := .term r) hnamed rfl
        (by simp [Lookup.pattern?, hq, Except.toOption]) (hlookup.term r q hq) hmeans (.inr rfl)
        hdepth hlevels hfree

end Completeness

/-! ## Formatting with a new scope -/

/-- A greeting that selects by a term, and the term. -/
def greetings : Lookup where
  message id := if id = "greeting" then
      some (.make "greeting" (some [.placeable (.select (.term ⟨"brand", none⟩)
        [⟨.name "Acme", [.placeable (.inline (.argument "who"))]⟩, ⟨.name "other", []⟩] 1)])
        [] none)
    else none
  term id := if id = "brand" then some (.make "brand" [.text "Acme"] [] none) else none

theorem greetings_wellNamed : greetings.WellNamed where
  message r p h := by
    obtain ⟨id, attr⟩ := r
    by_cases hid : id = "greeting"
    · cases attr with
      | some name => simp [Lookup.messagePattern, greetings, hid, Message.make, Message.pattern?,
          Attribute.merge] at h
      | none =>
        obtain rfl : _ = p := by
          simpa [Lookup.messagePattern, greetings, hid, Message.make, Message.pattern?] using h
        intro e he
        obtain rfl := by simpa using he
        refine .select ⟨⟨'b', _, rfl, rfl, List.all_eq_true.mp rfl⟩, by simp⟩ fun v hv e he => ?_
        obtain rfl | rfl := by simpa using hv
        · obtain rfl := by simpa using he
          exact .inline trivial
        · cases he
    · simp [Lookup.messagePattern, greetings, hid] at h
  term r p h := by
    obtain ⟨id, attr⟩ := r
    by_cases hid : id = "brand"
    · cases attr with
      | some name => simp [Lookup.termPattern, greetings, hid, Term.make, Term.pattern?,
          Attribute.merge] at h
      | none =>
        obtain rfl : _ = p := by
          simpa [Lookup.termPattern, greetings, hid, Term.make, Term.pattern?] using h
        intro e he
        simp at he
    · simp [Lookup.termPattern, greetings, hid] at h

open Builtin

end Phrasebook
