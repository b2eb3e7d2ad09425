import Mathlib
import Phrasebook.Proofs.Formatting.Adequacy

/-!
# Reported cycles

The keys that are being resolved always are a way along references: the first one occurs in the
pattern that is formatted, and each further one in the pattern that the one before it leads to.
So a cycle that is reported is one, and none is reported where references do not lead back.

## Main definitions

* `Lookup.Way`: references one behind another, from a pattern on.
* `Lookup.Loop`: the keys along a way that ends where it has been before.
* `Lookup.Leads`: the keys on the stack are a way to the pattern that is being rendered.
* `Lookup.Acyclic`: no reference in reach of a pattern leads back to its own key.
-/

namespace Phrasebook

open Relation

/-! ## Ways along references -/

namespace Lookup

/-- The second inline expression occurs in the pattern that the first one leads to. -/
def Refers (lookup : Lookup) (i j : Inline) : Prop :=
  ∃ q, lookup.pattern? i = some q ∧ j ∈ q.inlines

/-- The first reference occurs in the pattern, and each further one in the pattern that the one
before it leads to. -/
structure Way (lookup : Lookup) (p : Pattern) (way : List Inline) : Prop where
  first : ∀ i ∈ way.head?, i ∈ p.inlines
  next : way.IsChain lookup.Refers

/-- The pattern that a way leads to. -/
def wayEnd? (lookup : Lookup) (p : Pattern) (way : List Inline) : Option Pattern :=
  match way.getLast? with
  | some i => lookup.pattern? i
  | none => some p

/-- The keys of a way from the pattern, all different but for the last one, which has been
passed before. -/
structure Loop (lookup : Lookup) (p : Pattern) (chain : List String) : Prop where
  distinct : chain.dropLast.Nodup
  back : ∃ key ∈ chain.getLast?, key ∈ chain.dropLast
  way : ∃ way, lookup.Way p way ∧ way.map Inline.key? = chain.map some

variable {lookup : Lookup} {p q q' : Pattern} {way : List Inline} {i j : Inline}

@[simp] theorem pattern?_message {r : Reference} :
    lookup.pattern? (.message r) = some q ↔ lookup.messagePattern r = .ok q := by
  cases h : lookup.messagePattern r <;> simp [pattern?, h, Except.toOption]

@[simp] theorem pattern?_term {r : Reference} :
    lookup.pattern? (.term r) = some q ↔ lookup.termPattern r = .ok q := by
  cases h : lookup.termPattern r <;> simp [pattern?, h, Except.toOption]

theorem Refers.exists_key (h : lookup.Refers i j) : ∃ key, i.key? = some key := by
  obtain ⟨q, hq, -⟩ := h
  cases i with
  | message r => exact ⟨r.toText, rfl⟩
  | term r => exact ⟨r.toTermText, rfl⟩
  | _ => cases hq

theorem Way.nil (lookup : Lookup) (p : Pattern) : lookup.Way p [] :=
  ⟨by simp, .nil⟩

theorem Way.concat (h : lookup.Way p way) (hend : lookup.wayEnd? p way = some q)
    (hi : i ∈ q.inlines) : lookup.Way p (way ++ [i]) := by
  rcases List.eq_nil_or_concat way with rfl | ⟨front, last, rfl⟩
  · cases hend
    exact ⟨by simpa using hi, .singleton i⟩
  · have hlast : lookup.pattern? last = some q := by simpa [wayEnd?] using hend
    refine ⟨?_, ?_⟩
    · intro j hj
      apply h.first
      simpa using hj
    · refine List.isChain_append.mpr ⟨h.next, .singleton i, ?_⟩
      intro a ha b hb
      obtain rfl : last = a := by simpa using ha
      obtain rfl : i = b := by simpa using hb
      exact ⟨q, hlast, hi⟩

@[simp] theorem wayEnd?_concat : lookup.wayEnd? p (way ++ [i]) = lookup.pattern? i := by
  simp [wayEnd?]

/-! ## What leads to a pattern -/

/-- The keys on the stack are those of a way to the pattern, and none is there twice. -/
structure Leads (lookup : Lookup) (p : Pattern) (stack : List String) (q : Pattern) : Prop where
  distinct : stack.Nodup
  way : ∃ way, lookup.Way p way ∧ way.map Inline.key? = stack.map some ∧
    lookup.wayEnd? p way = some q

variable {stack : List String} {key : String}

theorem Leads.refl (lookup : Lookup) (p : Pattern) : lookup.Leads p [] p :=
  ⟨.nil, [], .nil lookup p, rfl, rfl⟩

theorem Leads.push (h : lookup.Leads p stack q) (hi : i ∈ q.inlines) (hkey : i.key? = some key)
    (hq : lookup.pattern? i = some q') (hnew : key ∉ stack) :
    lookup.Leads p (stack ++ [key]) q' := by
  obtain ⟨way, hway, hkeys, hend⟩ := h.way
  refine ⟨?_, way ++ [i], hway.concat hend hi, by simp [hkeys, hkey], by simpa using hq⟩
  rw [← List.concat_eq_append]
  exact h.distinct.concat hnew

theorem Leads.loop (h : lookup.Leads p stack q) (hi : i ∈ q.inlines) (hkey : i.key? = some key)
    (hold : key ∈ stack) : lookup.Loop p (stack ++ [key]) := by
  obtain ⟨way, hway, hkeys, hend⟩ := h.way
  refine ⟨by simpa using h.distinct, ⟨key, by simp, by simpa using hold⟩, way ++ [i],
    hway.concat hend hi, by simp [hkeys, hkey]⟩

end Lookup

/-! ## Renderings that report loops -/

namespace Rendering

variable {α β : Type} {x : Rendering α} {f : α → Rendering β} {stack : List String} {fault : Fault}

theorem Framed.mem_faults_bind (hx : Framed x) (hf : ∀ a, Framed (f a))
    (h : fault ∈ (x >>= f).faults stack) :
    fault ∈ x.faults stack ∨ ∃ a, fault ∈ (f a).faults stack := by
  cases hresult : x.result stack with
  | ok a =>
    rw [faults, hx.bind_of_ok hresult, (hf a).run, Fault.nil_extend] at h
    rcases Fault.mem_extend.mp h with h | h
    · exact .inl h
    · exact .inr ⟨a, h⟩
  | error e =>
    rw [faults, hx.bind_of_error hresult, Fault.nil_extend] at h
    exact .inl h

theorem mem_faults_faulty {fault' : Fault} {text : String} :
    fault ∈ (faulty fault' text).faults stack ↔ fault = fault' := by
  simp [faults, faulty, Fault.record]

/-- Every cycle that is reported from the stack on is a loop from the pattern. -/
structure ReportsLoops (lookup : Lookup) (p : Pattern) (stack : List String) (x : Rendering α) :
    Prop where
  framed : Framed x
  loop : ∀ chain, .cycle chain ∈ x.faults stack → lookup.Loop p chain

variable {lookup : Lookup} {p : Pattern}

theorem ReportsLoops.faulty (text : String)
    (h : ∀ chain, fault = .cycle chain → lookup.Loop p chain) :
    ReportsLoops lookup p stack (faulty fault text) :=
  ⟨.faulty fault text, fun chain hchain => h chain (mem_faults_faulty.mp hchain).symm⟩

theorem ReportsLoops.bind (hx : ReportsLoops lookup p stack x)
    (hf : ∀ a, ReportsLoops lookup p stack (f a)) : ReportsLoops lookup p stack (x >>= f) := by
  refine ⟨hx.framed.bind fun a => (hf a).framed, fun chain hchain => ?_⟩
  rcases hx.framed.mem_faults_bind (fun a => (hf a).framed) hchain with h | ⟨a, h⟩
  · exact hx.loop chain h
  · exact (hf a).loop chain h

theorem ReportsLoops.argument (args : Arguments) (name : String) :
    ReportsLoops lookup p stack (argument args name) := by
  have hfaults : (Rendering.argument args name).faults stack = [] := by
    unfold faults Rendering.argument
    cases args.get? name <;> rfl
  refine ⟨.argument args name, fun chain hchain => ?_⟩
  rw [hfaults] at hchain
  cases hchain

theorem messagePattern_ne_cycle {r : Reference} {chain : List String} :
    lookup.messagePattern r ≠ .error (.cycle chain) := by
  unfold Lookup.messagePattern
  split
  · simp
  · split <;> simp

theorem termPattern_ne_cycle {r : Reference} {chain : List String} :
    lookup.termPattern r ≠ .error (.cycle chain) := by
  unfold Lookup.termPattern
  split
  · simp
  · split <;> simp

theorem reportsLoops_compositional (lookup : Lookup) (p : Pattern) (stack : List String) :
    Compositional lookup (ReportsLoops lookup p stack) where
  pure a := ⟨.pure a, fun chain hchain => by cases hchain⟩
  bind := .bind
  unformattable number text := .faulty text fun chain h => by cases h
  noMessage h := .faulty _ fun chain hchain => absurd (hchain ▸ h) messagePattern_ne_cycle
  noTerm h := .faulty _ fun chain hchain => absurd (hchain ▸ h) termPattern_ne_cycle

end Rendering

open Rendering

theorem refusal?_eq_cycle {maxDepth : Nat} {stack : List String} {key : String}
    {chain : List String} (h : refusal? maxDepth stack key = some (.cycle chain)) :
    key ∈ stack ∧ chain = stack ++ [key] := by
  unfold refusal? at h
  split at h
  · next hkey =>
    cases h
    exact ⟨hkey, rfl⟩
  · split at h <;> cases h

section

variable {l : Locale} {lookup : Lookup} {p : Pattern} {maxDepth : Nat}

/-- References are entered under a key that goes on with the way. -/
def EntersLoops (lookup : Lookup) (p : Pattern) (enter : Enter) : Prop :=
  ∀ ⦃stack q i key q'⦄ (args : Arguments), lookup.Leads p stack q → i ∈ q.inlines →
    i.key? = some key → lookup.pattern? i = some q' →
      ReportsLoops lookup p stack (enter key q' args)

theorem EntersLoops.elements {enter : Enter} (henter : EntersLoops lookup p enter)
    {stack : List String} {q : Pattern} (hq : lookup.Leads p stack q) (args : Arguments) :
    ReportsLoops lookup p stack (renderElements l lookup enter args q) := by
  refine (reportsLoops_compositional lookup p stack).elements q fun i hi => ?_
  cases i with
  | argument name => exact .argument args name
  | message r =>
    intro q' hq'
    exact henter args hq hi rfl (Lookup.pattern?_message.mpr hq')
  | term r =>
    intro q' hq'
    exact henter [] hq hi rfl (Lookup.pattern?_term.mpr hq')
  | _ => trivial

/-- A reference that is refused as a cycle closes the way to the pattern that it occurs in. -/
theorem reportsLoops_refused {stack : List String} {q : Pattern} {i : Inline} {key : String}
    {fault : Fault} (hq : lookup.Leads p stack q) (hi : i ∈ q.inlines) (hkey : i.key? = some key)
    (h : refusal? maxDepth stack key = some fault) (levels : Nat) (q' : Pattern)
    (args : Arguments) :
    ReportsLoops lookup p stack (enter l lookup maxDepth levels key q' args) := by
  refine ⟨framed_enter l lookup maxDepth levels key q' args, fun chain hchain => ?_⟩
  rw [faults, enter_of_refused h] at hchain
  obtain rfl := mem_faults_faulty.mp hchain
  obtain ⟨hold, rfl⟩ := refusal?_eq_cycle h
  exact hq.loop hi hkey hold

/-- By induction on the levels that are left; one that is entered goes on with the way. -/
theorem entersLoops (levels : Nat) : EntersLoops lookup p (enter l lookup maxDepth levels) := by
  induction levels with
  | zero =>
    intro stack q i key q' args hq hi hkey _
    cases h : refusal? maxDepth stack key with
    | some fault => exact reportsLoops_refused hq hi hkey h 0 q' args
    | none =>
      refine ⟨framed_enter l lookup maxDepth 0 key q' args, fun chain hchain => ?_⟩
      rw [faults, enter_zero_of_allowed h] at hchain
      cases mem_faults_faulty.mp hchain
  | succ levels ih =>
    intro stack q i key q' args hq hi hkey hq'
    cases h : refusal? maxDepth stack key with
    | some fault => exact reportsLoops_refused hq hi hkey h (levels + 1) q' args
    | none =>
      refine ⟨framed_enter l lookup maxDepth (levels + 1) key q' args, fun chain hchain => ?_⟩
      rw [faults, enter_of_allowed h] at hchain
      obtain ⟨hnew, -⟩ := refusal?_eq_none.mp h
      exact (ih.elements (hq.push hi hkey hq' hnew) args).loop chain hchain

end

/-! ## References that do not lead back -/

namespace Lookup

/-- The inline expression occurs in the pattern, or where references lead from it. -/
def InReach (lookup : Lookup) (p : Pattern) (i : Inline) : Prop :=
  ∃ first ∈ p.inlines, ReflTransGen lookup.Refers first i

def Acyclic (lookup : Lookup) (p : Pattern) : Prop :=
  ∀ i, lookup.InReach p i → ∀ j, TransGen lookup.Refers i j → j.key? ≠ i.key?

variable {lookup : Lookup} {p : Pattern} {i j : Inline}

theorem InReach.refers (h : lookup.InReach p i) (hj : TransGen lookup.Refers i j) :
    lookup.InReach p j := by
  obtain ⟨first, hfirst, hi⟩ := h
  exact ⟨first, hfirst, hi.trans hj.to_reflTransGen⟩

theorem Way.pairwise {way : List Inline} (h : lookup.Way p way) :
    way.Pairwise (TransGen lookup.Refers) :=
  (h.next.imp fun _ _ => .single).pairwise

theorem Way.inReach {way : List Inline} (h : lookup.Way p way) (hi : i ∈ way) :
    lookup.InReach p i := by
  cases way with
  | nil => cases hi
  | cons first way =>
    refine ⟨first, h.first first rfl, ?_⟩
    rcases List.mem_cons.mp hi with rfl | hi
    · exact .refl
    · exact (List.rel_of_pairwise_cons h.pairwise hi).to_reflTransGen

/-- Somewhere along a loop a reference leads back to its own key. -/
theorem Loop.leads_back {chain : List String} (h : lookup.Loop p chain) :
    ∃ i, lookup.InReach p i ∧ ∃ j, TransGen lookup.Refers i j ∧ j.key? = i.key? := by
  obtain ⟨way, hway, hkeys⟩ := h.way
  obtain ⟨key, hlast, hold⟩ := h.back
  rw [← List.dropLast_append_getLast? key hlast, List.map_append] at hkeys
  obtain ⟨front, last, rfl, hfront, hend⟩ := List.map_eq_append_iff.mp hkeys
  obtain ⟨j, rfl, hj⟩ : ∃ j, last = [j] ∧ j.key? = some key := by simpa using hend
  obtain ⟨i, hi, hikey⟩ : ∃ i ∈ front, i.key? = some key := by
    have hmem : some key ∈ front.map Inline.key? := by
      rw [hfront]
      exact List.mem_map_of_mem hold
    exact List.mem_map.mp hmem
  have hij : TransGen lookup.Refers i j :=
    (List.pairwise_append.mp hway.pairwise).2.2 i hi j (List.mem_singleton_self j)
  exact ⟨i, hway.inReach (List.mem_append_left _ hi), j, hij, hj.trans hikey.symm⟩

end Lookup

/-! ## Proper names -/

theorem Expression.WellNamed.patterns {e : Expression} (h : e.WellNamed) :
    ∀ q ∈ e.patterns, Pattern.WellNamed q := by
  induction h with
  | inline _ =>
    intro q hq
    rw [Expression.patterns] at hq
    cases hq
  | @select selector variants default _ hvariants ih =>
    intro q hq
    rw [Expression.patterns] at hq
    obtain ⟨v, hv, hq⟩ := Pattern.mem_variantsPatterns.mp hq
    rcases List.mem_cons.mp hq with rfl | hq
    · exact hvariants v hv
    · obtain ⟨e, he, hq⟩ := Pattern.mem_innerPatterns.mp hq
      exact ih v hv e he q hq

theorem Pattern.WellNamed.of_mem_inlines {p : Pattern} {i : Inline} (h : p.WellNamed)
    (hi : i ∈ p.inlines) : i.WellNamed := by
  obtain ⟨q, hq, x, hx, hshown⟩ := Pattern.mem_inlines.mp hi
  have hqnamed : q.WellNamed := by
    rcases List.mem_cons.mp hq with rfl | hq
    · exact h
    · obtain ⟨e, he, hq⟩ := Pattern.mem_innerPatterns.mp hq
      exact (h e he).patterns q hq
  cases x with
  | text t => cases hshown
  | placeable e =>
    cases hqnamed e hx with
    | inline hnamed =>
      cases hshown
      exact hnamed
    | select hnamed _ =>
      cases hshown
      exact hnamed

namespace Lookup

variable {lookup : Lookup} {p : Pattern} {i j : Inline}

theorem WellNamed.pattern? (h : lookup.WellNamed) {q : Pattern} (hq : lookup.pattern? i = some q) :
    q.WellNamed := by
  cases i with
  | message r => exact h.message r q (pattern?_message.mp hq)
  | term r => exact h.term r q (pattern?_term.mp hq)
  | _ => cases hq

theorem WellNamed.inReach (h : lookup.WellNamed) (hp : p.WellNamed) (hi : lookup.InReach p i) :
    i.WellNamed := by
  obtain ⟨first, hfirst, hreach⟩ := hi
  induction hreach with
  | refl => exact hp.of_mem_inlines hfirst
  | tail _ hrefers _ =>
    obtain ⟨q, hq, hmem⟩ := hrefers
    exact (h.pattern? hq).of_mem_inlines hmem

/-- Where keys tell references apart, it is enough that no reference leads back to itself. -/
theorem WellNamed.acyclic (h : lookup.WellNamed) (hp : p.WellNamed)
    (hback : ∀ i, lookup.InReach p i → ¬ TransGen lookup.Refers i i) : lookup.Acyclic p := by
  intro i hi j hij hkeys
  obtain ⟨next, hnext, -⟩ := TransGen.head'_iff.mp hij
  obtain ⟨key, hkey⟩ := hnext.exists_key
  have hnamed : i.WellNamed := h.inReach hp hi
  have hnamed' : j.WellNamed := h.inReach hp (hi.refers hij)
  obtain rfl : i = j := hnamed.eq_of_key hnamed' hkey (hkeys.trans hkey)
  exact hback i hi hij

end Lookup

/-! ## Reports of a new scope -/

/-- Every cycle in the report of a new scope is a loop of keys from the pattern. So there is none
if no reference in reach leads back to its own key or, with proper names, to itself. -/
theorem Scope.format_reports_loops [LocaleData] (locale : String) (lookup : Lookup) (maxDepth : Nat)
    (p : Pattern) (args : Arguments) :
    let report := ((fresh locale lookup maxDepth).format p args).2.report
    (∀ chain, .cycle chain ∈ report → lookup.Loop p chain) ∧
      (lookup.Acyclic p → ∀ chain, .cycle chain ∉ report) ∧
      (lookup.WellNamed → p.WellNamed →
        (∀ i, lookup.InReach p i → ¬ TransGen lookup.Refers i i) →
          ∀ chain, .cycle chain ∉ report) := by
  intro report
  have hloops : ∀ chain, .cycle chain ∈ report → lookup.Loop p chain :=
    ((entersLoops maxDepth).elements (.refl lookup p) args).loop
  have hacyclic : lookup.Acyclic p → ∀ chain, .cycle chain ∉ report := by
    intro h chain hchain
    obtain ⟨i, hi, j, hij, hkeys⟩ := (hloops chain hchain).leads_back
    exact h i hi j hij hkeys
  exact ⟨hloops, hacyclic, fun hlookup hp hback => hacyclic (hlookup.acyclic hp hback)⟩

/-- A message that selects by an attribute, which shows a term, which shows the message. -/
def carousel : Lookup where
  message id :=
    if id = "ride" then
      some (.make id (some [.placeable (.select (.message ⟨"stop", some "name"⟩)
        [⟨.name "other", [.text "on"]⟩] 0)]) [] none)
    else if id = "stop" then
      some (.make id none [⟨"name", [.placeable (.inline (.term ⟨"fair", none⟩))]⟩] none)
    else none
  term id :=
    if id = "fair" then
      some (.make id [.placeable (.inline (.message ⟨"ride", none⟩))] [] none)
    else none

theorem greetings_refers {i j : Inline} (h : greetings.Refers i j) :
    (∃ r, i = .message r) ∧ (j = .term ⟨"brand", none⟩ ∨ j = .argument "who") := by
  obtain ⟨q, hq, hj⟩ := h
  cases i with
  | message r =>
    obtain ⟨id, attr⟩ := r
    by_cases hid : id = "greeting"
    · cases attr with
      | some name => simp [Lookup.messagePattern, greetings, hid, Message.make, Message.pattern?,
          Attribute.merge] at hq
      | none =>
        obtain rfl : _ = q := by
          simpa [Lookup.messagePattern, greetings, hid, Message.make, Message.pattern?] using hq
        have hj : j ∈ [Inline.term ⟨"brand", none⟩, .argument "who"] := hj
        exact ⟨⟨_, rfl⟩, by simpa using hj⟩
    · simp [Lookup.messagePattern, greetings, hid] at hq
  | term r =>
    obtain ⟨id, attr⟩ := r
    by_cases hid : id = "brand"
    · cases attr with
      | some name => simp [Lookup.termPattern, greetings, hid, Term.make, Term.pattern?,
          Attribute.merge] at hq
      | none =>
        obtain rfl : _ = q := by
          simpa [Lookup.termPattern, greetings, hid, Term.make, Term.pattern?] using hq
        cases hj
    · simp [Lookup.termPattern, greetings, hid] at hq
  | _ => cases hq

open Builtin

/-- The carousel is reported with the way around it; the greetings lead nowhere twice. -/
theorem Scope.format_reports_loops_carousel :
    let ride : Pattern := [.placeable (.inline (.message ⟨"ride", none⟩))]
    let chain := ["ride", "stop.name", "-fair", "ride"]
    let hi : Pattern := [.text "Hi ", .placeable (.inline (.message ⟨"greeting", none⟩))]
    (.cycle chain ∈ ((fresh "en" carousel 64).format ride []).2.report ∧
      carousel.Loop ride chain) ∧
      greetings.WellNamed ∧ hi.WellNamed ∧
      (∀ i, greetings.InReach hi i → ¬ TransGen greetings.Refers i i) ∧ greetings.Acyclic hi ∧
      ∀ chain, .cycle chain ∉ ((fresh "en" greetings 64).format hi []).2.report := by
  intro ride chain hi
  have hchain : .cycle chain ∈ ((fresh "en" carousel 64).format ride []).2.report := by
    have hreport : ((fresh "en" carousel 64).format ride []).2.report = [.cycle chain] := by cbv
    rw [hreport]
    exact .head _
  have hnamed : hi.WellNamed := by
    intro e he
    obtain rfl := by simpa [hi] using he
    exact .inline ⟨⟨'g', _, rfl, rfl, List.all_eq_true.mp rfl⟩, by simp⟩
  have hback : ∀ i, greetings.InReach hi i → ¬ TransGen greetings.Refers i i := by
    intro i _ h
    obtain ⟨_, hfirst, -⟩ := TransGen.head'_iff.mp h
    obtain ⟨_, -, hlast⟩ := TransGen.tail'_iff.mp h
    obtain ⟨⟨r, rfl⟩, -⟩ := greetings_refers hfirst
    obtain ⟨-, hend⟩ := greetings_refers hlast
    simp at hend
  obtain ⟨-, -, hnone⟩ := format_reports_loops "en" greetings 64 hi []
  exact ⟨⟨hchain, (format_reports_loops "en" carousel 64 ride []).1 chain hchain⟩,
    greetings_wellNamed, hnamed, hback, greetings_wellNamed.acyclic hnamed hback,
    hnone greetings_wellNamed hnamed hback⟩

end Phrasebook
