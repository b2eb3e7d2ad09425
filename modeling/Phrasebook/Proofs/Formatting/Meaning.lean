import Phrasebook.Formatting.Rendering
import Phrasebook.Proofs.Resource.WellFormed

/-!
# The meaning of patterns

What a pattern says, without regard to how it is rendered: there is no stack, no limit and
no report. Text and literals stand for themselves, values for the way they are shown,
references for the meaning of the pattern that they lead to, and selections for the
meaning of the variant that is chosen. What cannot be shown or found has no meaning, and
nor has a reference that leads back to itself, because meanings are finite.

## Main definitions

* `Means l lookup depth args x out`: `out` is what `x` means, by a derivation in which
  references are nested at most `depth` deep.
* `Pattern.WellNamed`, `Lookup.WellNamed`: references are made of proper names.
-/

namespace Phrasebook

/-! ## Values and selectors -/

/-- How a value is shown. A number that is not finite is not, nor is one that the locale has no
text for. -/
def Value.shown? (l : Locale) : Value → Option String
  | .text t => some t
  | .integer n => l.formatNumber? (.ofInt n)
  | .float x => x.toDecimal?.bind l.formatNumber?

/-- What a value is compared by. -/
def Value.selector : Value → SelectorValue
  | .text t => .text t
  | .integer n => .number (.ofInt n) (some (.ofInt n))
  | .float x => .number x x.toDecimal?

def Inline.isReference : Inline → Bool
  | .message _ => true
  | .term _ => true
  | _ => false

/-- What a selector that is no reference is compared by. -/
def Inline.direct? (args : Arguments) : Inline → Option SelectorValue
  | .text value => some (.text value)
  | .number literal => some (.number literal.value literal.toDecimal?)
  | .argument name => (args.get? name).map Value.selector
  | .message _ => none
  | .term _ => none

/-- The variant with an index; nothing if there is none. -/
def variantAt (variants : List (Variant Pattern)) (index : Nat) : Pattern :=
  (variants[index]?.map Variant.value).getD []

/-- The variant that a selector chooses: the one it matches, or else the default. -/
def SelectorValue.chosen (l : Locale) (variants : List (Variant Pattern)) (default : Nat)
    (value : SelectorValue) : Pattern :=
  variantAt variants ((value.choose? l (variants.map Variant.key)).getD default)

/-! ## Meanings -/

/-- What has a meaning: a pattern, or an inline expression by itself. -/
inductive Phrase where
  | pattern (p : Pattern)
  | inline (e : Inline)

/-- Terms, and all that they refer to, are without arguments. -/
inductive Means (l : Locale) (lookup : Lookup) : Nat → Arguments → Phrase → String → Prop
  | nil {n : Nat} {args : Arguments} : Means l lookup n args (.pattern []) ""
  | text {n : Nat} {args : Arguments} {t rest : String} {p : Pattern} :
      Means l lookup n args (.pattern p) rest →
      Means l lookup n args (.pattern (.text t :: p)) (t ++ rest)
  | inline {n : Nat} {args : Arguments} {e : Inline} {p : Pattern} {first rest : String} :
      Means l lookup n args (.inline e) first → Means l lookup n args (.pattern p) rest →
      Means l lookup n args (.pattern (.placeable (.inline e) :: p)) (first ++ rest)
  | select {n : Nat} {args : Arguments} {selector : Inline} {variants : List (Variant Pattern)}
      {default : Nat} {value : SelectorValue} {p : Pattern} {first rest : String} :
      selector.direct? args = some value →
      Means l lookup n args (.pattern (value.chosen l variants default)) first →
      Means l lookup n args (.pattern p) rest →
      Means l lookup n args (.pattern (.placeable (.select selector variants default) :: p))
        (first ++ rest)
  | selectByText {n : Nat} {args : Arguments} {selector : Inline}
      {variants : List (Variant Pattern)} {default : Nat} {t : String} {p : Pattern}
      {first rest : String} :
      selector.isReference = true → Means l lookup n args (.inline selector) t →
      Means l lookup n args (.pattern ((SelectorValue.text t).chosen l variants default)) first →
      Means l lookup n args (.pattern p) rest →
      Means l lookup n args (.pattern (.placeable (.select selector variants default) :: p))
        (first ++ rest)
  | literal {n : Nat} {args : Arguments} {value : String} :
      Means l lookup n args (.inline (.text value)) value
  | number {n : Nat} {args : Arguments} {literal : NumberLiteral} {d : Decimal} {out : String} :
      literal.toDecimal? = some d → l.formatNumber? d = some out →
      Means l lookup n args (.inline (.number literal)) out
  | argument {n : Nat} {args : Arguments} {name : String} {v : Value} {out : String} :
      args.get? name = some v → v.shown? l = some out →
      Means l lookup n args (.inline (.argument name)) out
  | message {n : Nat} {args : Arguments} {r : Reference} {q : Pattern} {out : String} :
      lookup.messagePattern r = .ok q → Means l lookup n args (.pattern q) out →
      Means l lookup (n + 1) args (.inline (.message r)) out
  | term {n : Nat} {args : Arguments} {r : Reference} {q : Pattern} {out : String} :
      lookup.termPattern r = .ok q → Means l lookup n [] (.pattern q) out →
      Means l lookup (n + 1) args (.inline (.term r)) out

namespace Means

variable {l : Locale} {lookup : Lookup} {m n : Nat} {args : Arguments} {x : Phrase}
  {out out' : String}

/-- What has a meaning without arguments has it with any. -/
theorem of_nil (h : Means l lookup n [] x out) (args : Arguments) :
    Means l lookup n args x out := by
  generalize hnil : ([] : Arguments) = none at h
  induction h with
  | nil => exact .nil
  | text _ ih => exact .text (ih hnil)
  | inline _ _ ihfirst ihrest => exact .inline (ihfirst hnil) (ihrest hnil)
  | @select _ _ selector _ _ value _ _ _ hvalue _ _ ihfirst ihrest =>
    subst hnil
    have hvalue : selector.direct? args = some value := by
      cases selector with
      | argument name => simp [Inline.direct?, Arguments.get?] at hvalue
      | _ => exact hvalue
    exact .select hvalue (ihfirst rfl) (ihrest rfl)
  | selectByText href _ _ _ iht ihfirst ihrest =>
    exact .selectByText href (iht hnil) (ihfirst hnil) (ihrest hnil)
  | literal => exact .literal
  | number hd hout => exact .number hd hout
  | argument hget _ =>
    subst hnil
    simp [Arguments.get?] at hget
  | message hq _ ih => exact .message hq (ih hnil)
  | term hq h _ => exact .term hq h

/-- There is at most one meaning. -/
theorem unique (h : Means l lookup m args x out) (h' : Means l lookup n args x out') :
    out = out' := by
  induction h generalizing n out' with
  | nil =>
    cases h'
    rfl
  | text _ ih =>
    cases h' with
    | text hrest => rw [ih hrest]
  | inline _ _ ihfirst ihrest =>
    cases h' with
    | inline hfirst hrest => rw [ihfirst hfirst, ihrest hrest]
  | @select _ _ selector _ _ _ _ _ _ hvalue _ _ ihfirst ihrest =>
    cases h' with
    | select hvalue' hfirst hrest =>
      obtain rfl := Option.some.inj (hvalue.symm.trans hvalue')
      rw [ihfirst hfirst, ihrest hrest]
    | selectByText href => cases selector <;> simp [Inline.isReference, Inline.direct?] at *
  | @selectByText _ _ selector _ _ _ _ _ _ href _ _ _ iht ihfirst ihrest =>
    cases h' with
    | select hvalue => cases selector <;> simp [Inline.isReference, Inline.direct?] at *
    | selectByText _ ht hfirst hrest =>
      obtain rfl := iht ht
      rw [ihfirst hfirst, ihrest hrest]
  | literal =>
    cases h'
    rfl
  | number hd hout =>
    cases h' with
    | number hd' hout' =>
      obtain rfl := Option.some.inj (hd.symm.trans hd')
      exact Option.some.inj (hout.symm.trans hout')
  | argument hget hshown =>
    cases h' with
    | argument hget' hshown' =>
      obtain rfl := Option.some.inj (hget.symm.trans hget')
      exact Option.some.inj (hshown.symm.trans hshown')
  | message hq _ ih =>
    cases h' with
    | message hq' h' =>
      obtain rfl := Except.ok.inj (hq.symm.trans hq')
      exact ih h'
  | term hq _ ih =>
    cases h' with
    | term hq' h' =>
      obtain rfl := Except.ok.inj (hq.symm.trans hq')
      exact ih h'

/-- A meaning has a derivation in which references are nested as little as possible. -/
theorem exists_least (h : Means l lookup n args x out) :
    ∃ m ≤ n, Means l lookup m args x out ∧ ∀ k < m, ∀ out, ¬ Means l lookup k args x out := by
  induction n using Nat.strongRecOn with
  | ind n ih =>
    by_cases hless : ∃ k < n, Means l lookup k args x out
    · obtain ⟨k, hk, h⟩ := hless
      obtain ⟨m, hm, hleast⟩ := ih k hk h
      exact ⟨m, by omega, hleast⟩
    · refine ⟨n, Nat.le_refl n, h, fun k hk out' h' => hless ⟨k, hk, ?_⟩⟩
      rwa [h.unique h']

end Means

/-! ## Proper names -/

/-- If this is a reference, it is made of proper names. -/
def Inline.WellNamed : Inline → Prop
  | .message r => r.WellFormed
  | .term r => r.WellFormed
  | _ => True

inductive Expression.WellNamed : Expression → Prop
  | inline {e : Inline} : e.WellNamed → WellNamed (.inline e)
  | select {selector : Inline} {variants : List (Variant Pattern)} {default : Nat} :
      selector.WellNamed → (∀ v ∈ variants, ∀ e, .placeable e ∈ v.value → WellNamed e) →
      WellNamed (.select selector variants default)

def Pattern.WellNamed (p : Pattern) : Prop :=
  ∀ e, .placeable e ∈ p → e.WellNamed

def Phrase.WellNamed : Phrase → Prop
  | .pattern p => p.WellNamed
  | .inline e => e.WellNamed

/-- All patterns that references lead to have references with proper names. -/
structure Lookup.WellNamed (lookup : Lookup) : Prop where
  message : ∀ r p, lookup.messagePattern r = .ok p → p.WellNamed
  term : ∀ r p, lookup.termPattern r = .ok p → p.WellNamed

theorem Pattern.WellNamed.tail {x : Element Expression} {p : Pattern}
    (h : Pattern.WellNamed (x :: p)) : p.WellNamed :=
  fun e he => h e (.tail _ he)

theorem Pattern.WellNamed.inline {e : Inline} {p : Pattern}
    (h : Pattern.WellNamed (.placeable (.inline e) :: p)) : e.WellNamed := by
  cases h _ (.head _) with
  | inline he => exact he

theorem Pattern.WellNamed.selector {selector : Inline} {variants : List (Variant Pattern)}
    {default : Nat} {p : Pattern}
    (h : Pattern.WellNamed (.placeable (.select selector variants default) :: p)) :
    selector.WellNamed := by
  cases h _ (.head _) with
  | select hselector _ => exact hselector

theorem Pattern.WellNamed.chosen {selector : Inline} {variants : List (Variant Pattern)}
    {default : Nat} {p : Pattern}
    (h : Pattern.WellNamed (.placeable (.select selector variants default) :: p)) (l : Locale)
    (value : SelectorValue) : (value.chosen l variants default).WellNamed := by
  cases h _ (.head _) with
  | select _ hvariants =>
    unfold SelectorValue.chosen variantAt
    generalize (value.choose? l (variants.map Variant.key)).getD default = index
    cases hv : variants[index]? with
    | none =>
      intro e he
      cases he
    | some v => exact hvariants v (List.mem_of_getElem? hv)

/-! ## Keys of references -/

/-- The key under which a reference is resolved. -/
def Inline.key? : Inline → Option String
  | .message r => some r.toText
  | .term r => some r.toTermText
  | _ => none

/-- The pattern that a reference leads to. -/
def Lookup.pattern? (lookup : Lookup) : Inline → Option Pattern
  | .message r => (lookup.messagePattern r).toOption
  | .term r => (lookup.termPattern r).toOption
  | _ => none

open Alphabet

theorem IsName.ne_of_mem {name : String} (h : IsName name) {c d : Char} (hc : c ∈ name.toList)
    (hstart : isNameStart d = false) (hpart : isNamePart d = false) : c ≠ d := by
  obtain ⟨first, others, heq, hfirst, hothers⟩ := h
  rintro rfl
  rw [heq] at hc
  obtain rfl | hc := List.mem_cons.mp hc
  · simp [hstart] at hfirst
  · simp [hothers c hc] at hpart

/-- The name of the entry reaches up to the first dot. -/
theorem Reference.WellFormed.span_toText {r : Reference} (h : r.WellFormed) :
    r.toText.toList.takeWhile (· != '.') = r.id.toList ∧
      r.toText.toList.dropWhile (· != '.') =
        (r.attr.map fun name => '.' :: name.toList).getD [] := by
  have hid : ∀ c ∈ r.id.toList, (c != '.') = true := by
    intro c hc
    simpa using h.1.ne_of_mem hc (d := '.') (by decide) (by decide)
  have htext : r.toText.toList =
      r.id.toList ++ (r.attr.map fun name => '.' :: name.toList).getD [] := by
    unfold Reference.toText
    split <;> simp_all
  rw [htext, List.takeWhile_append_of_pos hid, List.dropWhile_append_of_pos hid]
  cases r.attr <;> simp

theorem Reference.WellFormed.eq_of_toText {r r' : Reference} (h : r.WellFormed)
    (h' : r'.WellFormed) (heq : r.toText = r'.toText) : r = r' := by
  obtain ⟨hid, hattr⟩ := h.span_toText
  obtain ⟨hid', hattr'⟩ := h'.span_toText
  rw [heq] at hid hattr
  obtain ⟨id, attr⟩ := r
  obtain ⟨id', attr'⟩ := r'
  obtain rfl : id = id' := String.toList_injective (hid.symm.trans hid')
  rw [hattr] at hattr'
  cases attr <;> cases attr' <;> simp_all [String.ext_iff]

/-- A minus opens no name, so a term is never taken for a message. -/
theorem Reference.WellFormed.toText_ne_toTermText {r r' : Reference} (h : r.WellFormed) :
    r.toText ≠ r'.toTermText := by
  intro heq
  obtain ⟨c, cs, hid, hc, -⟩ := h.1
  have hhead : r.toText.toList.head? = some c := by
    unfold Reference.toText
    split <;> simp [hid]
  rw [heq] at hhead
  have hminus : r'.toTermText.toList.head? = some '-' := by simp [Reference.toTermText]
  rw [hminus] at hhead
  cases hhead
  simp [isNameStart, isLetter] at hc

/-- Keys tell references apart. -/
theorem Inline.WellNamed.eq_of_key {e e' : Inline} {key : String} (h : e.WellNamed)
    (h' : e'.WellNamed) (hkey : e.key? = some key) (hkey' : e'.key? = some key) : e = e' := by
  cases e with
  | message r =>
    cases hkey
    cases e' with
    | message r' => rw [Reference.WellFormed.eq_of_toText h h' (Option.some.inj hkey').symm]
    | term r' =>
      exact absurd (Option.some.inj hkey').symm (Reference.WellFormed.toText_ne_toTermText h)
    | _ => cases hkey'
  | term r =>
    cases hkey
    cases e' with
    | message r' =>
      exact absurd (Option.some.inj hkey') (Reference.WellFormed.toText_ne_toTermText h')
    | term r' =>
      have heq : r.toText = r'.toText := by
        simpa [Inline.key?, Reference.toTermText, String.ext_iff] using hkey'.symm
      rw [Reference.WellFormed.eq_of_toText h h' heq]
    | _ => cases hkey'
  | _ => cases hkey

end Phrasebook
