import Phrasebook.Proofs.Source.Advance

/-!
# Reading a text with carriage returns

A text and the same text with a carriage return in front of every line feed are read side
by side. Between two productions both readings stand at the same character, or both stand
in front of a line feed, the second one behind the carriage return: running text takes the
carriage return with it and leaves the line feed. Two readings then end alike, with one
exception. In front of a line break the plain text has no value, while the carriage return
of the other text is taken for one, so a final failure for want of a value may have no
counterpart.

## Main definitions

* `Returned`: a text and its form with carriage returns.
* `Abreast`: what two readings have left, and whether a carriage return was taken ahead.
* `Mirrors`: how two readings end.
* `Mirrored`: a production that reads both texts alike.
-/

namespace Phrasebook.Source

open Alphabet

/-! ## Texts with and without carriage returns -/

/-- Write a carriage return in front of every line feed. -/
def withReturns (s : List Char) : List Char :=
  s.flatMap fun c => if c = '\n' then ['\r', '\n'] else [c]

/-- The second text is the first one with a carriage return in front of every line feed; the
first one has none. -/
inductive Returned : List Char → List Char → Prop
  | nil : Returned [] []
  | char {c : Char} {s s' : List Char} : c ≠ '\n' → c ≠ '\r' → Returned s s' →
      Returned (c :: s) (c :: s')
  | line {s s' : List Char} : Returned s s' → Returned ('\n' :: s) ('\r' :: '\n' :: s')

namespace Returned

variable {s s' t t' u r r' : List Char}

theorem of_not_mem (h : '\r' ∉ s) : Returned s (withReturns s) := by
  induction s with
  | nil => exact .nil
  | cons c s ih =>
    obtain ⟨hc, hs⟩ : '\r' ≠ c ∧ '\r' ∉ s := by simpa using h
    by_cases hline : c = '\n'
    · subst hline
      exact (ih hs).line
    · rw [withReturns, List.flatMap_cons, if_neg hline]
      exact .char hline (Ne.symm hc) (ih hs)

theorem not_mem (h : Returned s s') : '\r' ∉ s := by
  induction h with
  | nil => simp
  | char _ hc _ ih => simp [ih, Ne.symm hc]
  | line _ ih => simp [ih]

theorem eq_withReturns (h : Returned s s') : s' = withReturns s := by
  induction h with
  | nil => rfl
  | char hc _ _ ih => simp [withReturns, hc, ih]
  | line _ ih => simp [withReturns, ih]

theorem append (h : Returned s s') (g : Returned t t') : Returned (s ++ t) (s' ++ t') := by
  induction h with
  | nil => exact g
  | char hc hr _ ih => exact ih.char hc hr
  | line _ ih => exact ih.line

theorem split (h : Returned (u ++ r) s') (hu : '\n' ∉ u) :
    ∃ r', s' = u ++ r' ∧ Returned r r' := by
  induction u generalizing s' with
  | nil => exact ⟨s', rfl, h⟩
  | cons c u ih =>
    cases h with
    | char _ _ h =>
      obtain ⟨r', rfl, hr⟩ := ih h fun hmem => hu (.tail _ hmem)
      exact ⟨r', rfl, hr⟩
    | line h => simp at hu

theorem split_right (h : Returned s (u ++ r')) (hu : '\r' ∉ u) :
    ∃ r, s = u ++ r ∧ Returned r r' := by
  induction u generalizing s with
  | nil => exact ⟨s, rfl, h⟩
  | cons c u ih =>
    rw [List.cons_append] at h
    generalize hw : u ++ r' = w at h
    cases h with
    | char _ _ h =>
      subst hw
      obtain ⟨r, rfl, hr⟩ := ih h fun hmem => hu (.tail _ hmem)
      exact ⟨r, rfl, hr⟩
    | line h => simp at hu

/-- The plain text has no carriage returns, so a run of its characters has no line ends
unless it asks for line feeds. -/
theorem takeWhile_self (h : Returned s s') (wanted : Char → Bool) (hline : wanted '\n' = false) :
    Returned (s.takeWhile wanted) (s.takeWhile wanted) := by
  induction h with
  | nil => exact .nil
  | @char c s s' hc hr h ih =>
    by_cases hw : wanted c
    · simpa [hw] using ih.char hc hr
    · simpa [hw] using Returned.nil
  | line h ih => simpa [hline] using Returned.nil

/-- A run of characters that are no line ends is the same in both texts. -/
theorem span (h : Returned s s') (wanted : Char → Bool) (hline : wanted '\n' = false)
    (hreturn : wanted '\r' = false) :
    s.takeWhile wanted = s'.takeWhile wanted ∧
      Returned (s.dropWhile wanted) (s'.dropWhile wanted) := by
  induction h with
  | nil => exact ⟨rfl, .nil⟩
  | @char c s s' hc hr h ih =>
    by_cases hw : wanted c
    · simpa [hw] using ih
    · simpa [hw] using h.char hc hr
  | line h ih => simpa [hline, hreturn] using h.line

end Returned

/-- The carriage return that one reading took ahead of the other. -/
def pending (ahead : Bool) : List Char :=
  if ahead then ['\r'] else []

/-- What two readings have left; the second may have taken a carriage return ahead. -/
def Abreast (ahead : Bool) (s s' : List Char) : Prop :=
  Returned s (pending ahead ++ s')

/-- Two readings at the same place, or both in front of the same line feed. -/
def Near (s s' : List Char) : Prop :=
  ∃ ahead, Abreast ahead s s'

/-- Two readings at the same place, with no space in front of them. -/
def Flush (s s' : List Char) : Prop :=
  Returned s s' ∧ s.head? ≠ some ' '

theorem Flush.returned {s s' : List Char} (h : Flush s s') : Returned s s' := h.1

theorem abreast_true {s s' : List Char} :
    Abreast true s s' ↔ ∃ t t', s = '\n' :: t ∧ s' = '\n' :: t' ∧ Returned t t' := by
  constructor
  · intro h
    cases h with
    | char _ hr _ => contradiction
    | line h => exact ⟨_, _, rfl, rfl, h⟩
  · rintro ⟨t, t', rfl, rfl, h⟩
    exact h.line

theorem Abreast.append {ahead : Bool} {s s' t t' : List Char} (h : Abreast ahead s s')
    (g : Returned t t') : Abreast ahead (s ++ t) (s' ++ t') := by
  rw [Abreast, ← List.append_assoc]
  exact Returned.append h g

theorem Returned.near {s s' : List Char} (h : Returned s s') : Near s s' := ⟨false, h⟩

theorem Returned.near_line {s s' : List Char} (h : Returned s s') :
    Near ('\n' :: s) ('\n' :: s') :=
  ⟨true, h.line⟩

theorem near_cases {s s' : List Char} (h : Near s s') :
    Returned s s' ∨ ∃ t t', s = '\n' :: t ∧ s' = '\n' :: t' ∧ Returned t t' := by
  obtain ⟨_ | _, h⟩ := h
  · exact .inl h
  · exact .inr (abreast_true.mp h)

/-- Running text takes the carriage return at the end of its line with it. -/
theorem Returned.span_ahead {s s' : List Char} (h : Returned s s') (wanted : Char → Bool)
    (hline : wanted '\n' = false) (hreturn : wanted '\r' = true) :
    ∃ ahead, s'.takeWhile wanted = s.takeWhile wanted ++ pending ahead ∧
      Abreast ahead (s.dropWhile wanted) (s'.dropWhile wanted) := by
  induction h with
  | nil => exact ⟨false, rfl, .nil⟩
  | @char c s s' hc hr h ih =>
    by_cases hw : wanted c
    · simpa [hw] using ih
    · exact ⟨false, by simp [hw, pending], by simpa [hw, Abreast, pending] using h.char hc hr⟩
  | line h ih =>
    exact ⟨true, by simp [hline, hreturn, pending],
      by simpa [hline, hreturn, Abreast, pending] using h.line⟩

/-! ## Outcomes of two readings -/

/-- What is being read where a value may be missing. -/
def valueLabels : List String := ["message", "term", "attribute", "variant value"]

/-- A final failure in front of a line feed, for want of a value. -/
structure Failure.WantsValue (e : Failure) : Prop where
  committed : e.committed = true
  atLineEnd : e.rest.head? = some '\n'
  label : ∃ name ∈ valueLabels, e.contexts.head? = some (.label name)

theorem Failure.WantsValue.not_refuses {α : Type} {p : Parser α} {s : List Char} {e : Failure}
    (he : e.WantsValue) (h : p s = .failed e) : ¬ p.Refuses s := by
  rintro ⟨e', h', hc⟩
  rw [h] at h'
  cases h'
  simp [he.committed] at hc

/-- The first reading, of the plain text, and the second, of the text with carriage
returns, both succeed with related results, or fail alike; nothing is said about the second
if the first wants a value. -/
inductive Mirrors {α : Type} (R : α → α → List Char → List Char → Prop) :
    Outcome α → Outcome α → Prop
  | done {a a' : α} {r r' : List Char} : R a a' r r' → Mirrors R (.done a r) (.done a' r')
  | failed {e e' : Failure} : e.committed = e'.committed → Mirrors R (.failed e) (.failed e')
  | wanting {e : Failure} {o : Outcome α} : e.WantsValue → Mirrors R (.failed e) o

namespace Mirrors

variable {α β : Type} {R : α → α → List Char → List Char → Prop}
  {S : β → β → List Char → List Char → Prop} {p q : Parser α} {s s' : List Char}

theorem mono {R' : α → α → List Char → List Char → Prop} {o o' : Outcome α}
    (h : Mirrors R o o') (hR : ∀ {a a' r r'}, R a a' r r' → R' a a' r r') : Mirrors R' o o' := by
  cases h with
  | done h => exact .done (hR h)
  | failed h => exact .failed h
  | wanting h => exact .wanting h

/-- Keep what the first reading did. -/
theorem and_done {o' : Outcome α} (h : Mirrors R (p s) o') :
    Mirrors (fun a a' r r' => R a a' r r' ∧ p s = .done a r) (p s) o' := by
  generalize p s = o at h
  cases h with
  | done h => exact .done ⟨h, rfl⟩
  | failed h => exact .failed h
  | wanting h => exact .wanting h

/-- If the first reading refuses, so does the second. -/
theorem refuses (h : Mirrors R (p s) (p s')) (hp : p.Refuses s) : p.Refuses s' := by
  obtain ⟨e, hs, he⟩ := hp
  rw [hs] at h
  generalize hs' : p s' = o at h
  cases h with
  | failed hc => exact ⟨_, hs', hc ▸ he⟩
  | wanting hw => simp [hw.committed] at he

theorem of_refuses {p' : Parser α} (hs : p.Refuses s) (hs' : p'.Refuses s') :
    Mirrors R (p s) (p' s') := by
  obtain ⟨e, hs, he⟩ := hs
  obtain ⟨e', hs', he'⟩ := hs'
  rw [hs, hs']
  exact .failed (he.trans he'.symm)

theorem map {o o' : Outcome α} (h : Mirrors R o o') {f : α → β}
    (hf : ∀ {a a' r r'}, R a a' r r' → S (f a) (f a') r r') :
    Mirrors S (o.map f) (o'.map f) := by
  cases h with
  | done h => exact .done (hf h)
  | failed h => exact .failed h
  | wanting h => exact .wanting h

theorem fmap (h : Mirrors R (p s) (p s')) {g : α → β}
    (hg : ∀ {a a' r r'}, R a a' r r' → S (g a) (g a') r r') :
    Mirrors S ((g <$> p) s) ((g <$> p) s') := by
  rw [Parser.map_apply, Parser.map_apply]
  exact h.map hg

theorem bind {f f' : α → Parser β} (h : Mirrors R (p s) (p s'))
    (hf : ∀ {a a' r r'}, R a a' r r' → Mirrors S (f a r) (f' a' r')) :
    Mirrors S ((p >>= f) s) ((p >>= f') s') := by
  rw [Parser.bind_apply, Parser.bind_apply]
  generalize p s = o, p s' = o' at h
  cases h with
  | done h => exact hf h
  | failed h => exact .failed h
  | wanting h => exact .wanting h

/-- The second alternative matters only where the first one refuses. -/
theorem or (hp : Mirrors R (p s) (p s')) (hq : p.Refuses s → Mirrors R (q s) (q s')) :
    Mirrors R (p.or q s) (p.or q s') := by
  unfold Parser.or
  generalize hs : p s = o at hp
  generalize p s' = o' at hp
  cases hp with
  | done h => exact .done h
  | @failed e e' h =>
    dsimp only
    rw [← h]
    split
    · exact .failed h
    · next he => exact hq ⟨e, hs, by simpa using he⟩
  | wanting h =>
    simp only [h.committed, if_true]
    exact .wanting h

theorem optional {R' : Option α → Option α → List Char → List Char → Prop}
    (hp : Mirrors R (p s) (p s')) (hsome : ∀ {a a' r r'}, R a a' r r' → R' (some a) (some a') r r')
    (hnone : p.Refuses s' → R' none none s s') : Mirrors R' (p.optional s) (p.optional s') := by
  unfold Parser.optional
  generalize p s = o at hp
  generalize hs' : p s' = o' at hp
  cases hp with
  | done h => exact .done (hsome h)
  | @failed e e' h =>
    dsimp only
    rw [h]
    split
    · exact .failed h
    · next he => exact .done (hnone ⟨e', hs', by simpa using he⟩)
  | wanting h =>
    simp only [h.committed, if_true]
    exact .wanting h

theorem commit (hp : Mirrors R (p s) (p s')) : Mirrors R (p.commit s) (p.commit s') := by
  unfold Parser.commit
  generalize p s = o, p s' = o' at hp
  cases hp with
  | done h => exact .done h
  | failed h => exact .failed rfl
  | wanting h => exact .wanting ⟨rfl, h.atLineEnd, h.label⟩

theorem context (hp : Mirrors R (p s) (p s')) (c : Context) :
    Mirrors R (p.context c s) (p.context c s') := by
  unfold Parser.context
  generalize p s = o, p s' = o' at hp
  cases hp with
  | done h => exact .done h
  | failed h => exact .failed h
  | wanting h =>
    obtain ⟨name, hname, hlabel⟩ := h.label
    exact .wanting ⟨h.committed, h.atLineEnd, name, hname, by simp [List.head?_append, hlabel]⟩

end Mirrors

/-! ## Productions that read both texts alike -/

/-- From places related by `P`, both readings succeed with the same value and go on from
places related by `Q`, or they fail alike. -/
def Mirrored {α : Type} (P : List Char → List Char → Prop) (p : Parser α)
    (Q : List Char → List Char → Prop) : Prop :=
  ∀ s s', P s s' → Mirrors (fun a a' r r' => a = a' ∧ Q r r') (p s) (p s')

/-- A parser that takes at least one character whenever it succeeds. -/
def Consumes {α : Type} (p : Parser α) : Prop :=
  ∀ s a r, p s = .done a r → r.length < s.length

section Combinators

variable {α β : Type} {p q : Parser α} {f : α → Parser β}
  {P P' Q Q' R : List Char → List Char → Prop}

theorem Mirrored.mono (hp : Mirrored P p Q) (hP : ∀ {s s'}, P' s s' → P s s')
    (hQ : ∀ {s s'}, Q s s' → Q' s s') : Mirrored P' p Q' :=
  fun _ _ hs => (hp _ _ (hP hs)).mono fun ⟨ha, hr⟩ => ⟨ha, hQ hr⟩

theorem Mirrored.pure (a : α) : Mirrored P (pure a) P := fun _ _ hs => .done ⟨rfl, hs⟩

theorem Mirrored.fail : Mirrored P (Parser.fail : Parser α) Q := fun _ _ _ => .failed rfl

theorem Mirrored.bind (hp : Mirrored P p Q) (hf : ∀ a, Mirrored Q (f a) R) :
    Mirrored P (p >>= f) R := by
  intro s s' hs
  refine (hp s s' hs).bind ?_
  rintro a _ r r' ⟨rfl, hr⟩
  exact hf a r r' hr

theorem Mirrored.map (hp : Mirrored P p Q) (g : α → β) : Mirrored P (g <$> p) Q :=
  hp.bind fun a => .pure (g a)

theorem Mirrored.or (hp : Mirrored P p Q) (hq : Mirrored P q Q) : Mirrored P (p.or q) Q :=
  fun _ _ hs => (hp _ _ hs).or fun _ => hq _ _ hs

theorem Mirrored.optional (hp : Mirrored P p Q) (hPQ : ∀ {s s'}, P s s' → Q s s') :
    Mirrored P p.optional Q :=
  fun _ _ hs => (hp _ _ hs).optional (fun ⟨ha, hr⟩ => ⟨congrArg some ha, hr⟩) fun _ => ⟨rfl, hPQ hs⟩

theorem Mirrored.commit (hp : Mirrored P p Q) : Mirrored P p.commit Q :=
  fun _ _ hs => (hp _ _ hs).commit

theorem Mirrored.context (hp : Mirrored P p Q) (c : Context) : Mirrored P (p.context c) Q :=
  fun _ _ hs => (hp _ _ hs).context c

theorem Mirrored.label (hp : Mirrored P p Q) (name : String) : Mirrored P (p.label name) Q :=
  hp.context _

theorem Mirrored.expecting (hp : Mirrored P p Q) (text : String) :
    Mirrored P (p.expecting text) Q :=
  hp.context _

theorem Mirrored.verify (hp : Mirrored P p Q) (wanted : α → Bool) :
    Mirrored P (p.verify wanted) Q := by
  intro s s' hs
  have h := hp s s' hs
  unfold Parser.verify
  generalize p s = o, p s' = o' at h
  cases h with
  | done h =>
    obtain ⟨rfl, hr⟩ := h
    dsimp only
    split
    · exact .done ⟨rfl, hr⟩
    · exact .failed rfl
  | failed h => exact .failed h
  | wanting h => exact .wanting h

/-- Every round of a repetition that goes on takes something, so a repetition is a first
round with the others behind it, or nothing. -/
theorem many_eq_or (hp : Consumes p) : p.many = p.many1.or (pure []) := by
  funext s
  cases hs : p s with
  | failed e =>
    have hmany : p.many1 s = .failed e := by rw [Parser.many1, Parser.bind_apply, hs]
    rw [Parser.many, hs, Parser.or, hmany]
    rfl
  | done a r =>
    have hmany : p.many1 s = (p.many >>= fun as => pure (a :: as)) r := Parser.bind_of_done hs
    rw [Parser.many, hs, Parser.or, hmany, Parser.bind_apply]
    simp only [hp s a r hs, if_true]
    cases hr : p.many r with
    | done as t => rfl
    | failed e =>
      cases hfinal : e.committed with
      | true => simp only [hfinal, if_true]
      | false => exact absurd ⟨e, hr, hfinal⟩ Parser.not_refuses_many

theorem Mirrored.many (hp : Mirrored P p P) (hlt : Consumes p) : Mirrored P p.many P := by
  intro s s' hs
  -- The rounds are counted by what is left of the plain text.
  induction hn : s.length using Nat.strongRecOn generalizing s s' with
  | ind n ih =>
    subst hn
    rw [many_eq_or hlt]
    refine Mirrors.or ((hp s s' hs).and_done.bind ?_) fun _ => .done ⟨rfl, hs⟩
    rintro a _ r r' ⟨⟨rfl, hr⟩, hdone⟩
    refine (ih r.length (hlt s a r hdone) r r' hr rfl).bind ?_
    rintro as _ t t' ⟨rfl, ht⟩
    exact .done ⟨rfl, ht⟩

theorem Mirrored.many1 (hp : Mirrored P p P) (hlt : Consumes p) : Mirrored P p.many1 P :=
  hp.bind fun _ => (hp.many hlt).bind fun _ => .pure _

theorem Consumes.bind (hp : Consumes p) (hf : ∀ a, (f a).Advances) : Consumes (p >>= f) := by
  intro s b r h
  obtain ⟨a, t, ht, hr⟩ := Parser.bind_eq_done.mp h
  exact Nat.lt_of_le_of_lt ((hf a).of_done hr).length_le (hp _ _ _ ht)

theorem Consumes.or (hp : Consumes p) (hq : Consumes q) : Consumes (p.or q) := by
  intro s a r h
  obtain h | ⟨-, -, -, h⟩ := Parser.or_eq_done.mp h
  · exact hp s a r h
  · exact hq s a r h

theorem Mirrored.flush (hp : Mirrored Returned p Q) : Mirrored Flush p Q :=
  hp.mono Flush.returned id

end Combinators

open Phrasebook.Source.Parser

/-! ## Characters and blanks -/

theorem mirrored_satisfy {wanted : Char → Bool} (hline : wanted '\n' = false)
    (hreturn : wanted '\r' = false) : Mirrored Returned (satisfy wanted) Returned := by
  intro s s' hs
  cases hs with
  | nil => exact .failed rfl
  | char _ _ hs =>
    simp only [satisfy]
    split
    · exact .done ⟨rfl, hs⟩
    · exact .failed rfl
  | line _ =>
    refine .of_refuses (refuses_satisfy.mpr ?_) (refuses_satisfy.mpr ?_)
    · simpa using hline
    · simpa using hreturn

theorem mirrored_char (c : Char) (hline : c ≠ '\n' := by decide)
    (hreturn : c ≠ '\r' := by decide) : Mirrored Returned (char c) Returned := by
  intro s s' hs
  cases hs with
  | nil => exact .failed rfl
  | char _ _ hs =>
    dsimp only [char]
    split
    · exact .done ⟨rfl, hs⟩
    · exact .failed rfl
  | line _ =>
    refine .of_refuses (refuses_char.mpr ?_) (refuses_char.mpr ?_)
    · simpa using hline.symm
    · simpa using hreturn.symm

theorem mirrored_takeWhile {wanted : Char → Bool} (hline : wanted '\n' = false)
    (hreturn : wanted '\r' = false) : Mirrored Returned (takeWhile wanted) Returned :=
  fun _ _ hs => .done (hs.span wanted hline hreturn)

theorem mirrored_takeWhile1 {wanted : Char → Bool} (hline : wanted '\n' = false)
    (hreturn : wanted '\r' = false) : Mirrored Returned (takeWhile1 wanted) Returned :=
  (mirrored_satisfy hline hreturn).bind fun _ =>
    (mirrored_takeWhile hline hreturn).bind fun _ => .pure _

theorem mirrored_literal (text : List Char) (hline : '\n' ∉ text := by decide)
    (hreturn : '\r' ∉ text := by decide) : Mirrored Returned (literal text) Returned := by
  intro s s' hs
  by_cases hprefix : text <+: s
  · obtain ⟨r, rfl⟩ := hprefix
    obtain ⟨r', rfl, hr⟩ := hs.split hline
    have hdone (t : List Char) : literal text (text ++ t) = .done () t := literal_eq_done.mpr rfl
    rw [hdone, hdone]
    exact .done ⟨rfl, hr⟩
  · refine .of_refuses (refuses_literal.mpr hprefix) (refuses_literal.mpr ?_)
    rintro ⟨r', rfl⟩
    obtain ⟨r, rfl, -⟩ := hs.split_right hreturn
    exact hprefix (List.prefix_append text r)

theorem mirrored_spaces : Mirrored Returned spaces Flush := by
  intro s s' hs
  refine .done ⟨rfl, (hs.span isBlank rfl rfl).2, fun hhead => ?_⟩
  simpa [hhead, isBlank] using List.head?_dropWhile_not isBlank s

theorem mirrored_lineEnd : Mirrored Near lineEnd Returned := by
  intro s s' hs
  obtain hs | ⟨t, t', rfl, rfl, ht⟩ := near_cases hs
  · cases hs with
    | nil => exact .failed rfl
    | char hc hr _ =>
      simp only [lineEnd, lineEnd?_cons_of_ne hc hr]
      exact .failed rfl
    | line ht => exact .done ⟨rfl, ht⟩
  · exact .done ⟨rfl, ht⟩

theorem mirrored_endOfInput : Mirrored Near endOfInput Returned := by
  intro s s' hs
  obtain hs | ⟨t, t', rfl, rfl, -⟩ := near_cases hs
  · cases hs with
    | nil => exact .done ⟨rfl, .nil⟩
    | char | line => exact .failed rfl
  · exact .failed rfl

theorem mirrored_lineEndOrEnd : Mirrored Near lineEndOrEnd Returned :=
  mirrored_lineEnd.or mirrored_endOfInput

theorem Returned.skipBlank {s s' : List Char} (h : Returned s s') :
    Returned (skipBlank s) (Source.skipBlank s') := by
  induction h with
  | nil => exact .nil
  | @char c s s' hc hr h ih =>
    by_cases hspace : c = ' '
    · subst hspace
      exact ih
    · rw [skipBlank_cons_of_ne hspace hc hr, skipBlank_cons_of_ne hspace hc hr]
      exact h.char hc hr
  | line _ ih => exact ih

theorem mirrored_blank : Mirrored Returned blank Returned :=
  fun _ _ hs => .done ⟨rfl, hs.skipBlank⟩

/-! ## Names, numbers and string literals -/

theorem mirrored_identifier : Mirrored Returned identifier Returned :=
  (mirrored_satisfy rfl rfl).bind fun _ => (mirrored_takeWhile rfl rfl).bind fun _ => .pure _

theorem mirrored_numberLiteral : Mirrored Returned numberLiteral Returned :=
  ((mirrored_char '-').optional id).bind fun _ =>
    (mirrored_takeWhile1 rfl rfl).bind fun _ =>
      (((mirrored_char '.').bind fun _ =>
        mirrored_takeWhile1 rfl rfl).optional id).bind fun _ => .pure _

theorem mirrored_hexDigits (count : Nat) : Mirrored Returned (hexDigits count) Returned := by
  have hbreak {c : Char} (hc : isHexDigit c = false) {u : List Char}
      (hu : ∀ d ∈ u, isHexDigit d = true) : c ∉ u :=
    fun hmem => by simp [hu c hmem] at hc
  intro s s' hs
  by_cases hdone : ∃ digits r, hexDigits count s = .done digits r
  · obtain ⟨digits, r, hr⟩ := hdone
    obtain ⟨rfl, hcount, hhex⟩ := hexDigits_eq_done.mp hr
    obtain ⟨r', rfl, hrest⟩ := hs.split (hbreak rfl hhex)
    rw [hexDigits_eq_done.mpr ⟨rfl, hcount, hhex⟩, hexDigits_eq_done.mpr ⟨rfl, hcount, hhex⟩]
    exact .done ⟨rfl, hrest⟩
  · refine .of_refuses (refuses_hexDigits.mpr hdone) (refuses_hexDigits.mpr ?_)
    rintro ⟨digits, r', hr⟩
    obtain ⟨rfl, hcount, hhex⟩ := hexDigits_eq_done.mp hr
    obtain ⟨r, rfl, -⟩ := hs.split_right (hbreak rfl hhex)
    exact hdone ⟨digits, r, hexDigits_eq_done.mpr ⟨rfl, hcount, hhex⟩⟩

theorem mirrored_codeEscape (mark : Char) (count : Nat) (hline : mark ≠ '\n' := by decide)
    (hreturn : mark ≠ '\r' := by decide) :
    Mirrored Returned (codeEscape mark count) Returned := by
  have hparts : Mirrored Returned (do char mark; hexDigits count) Returned :=
    (mirrored_char mark hline hreturn).bind fun _ => mirrored_hexDigits count
  intro s s' hs
  have h := hparts s s' hs
  unfold codeEscape
  generalize (do char mark; hexDigits count : Parser (List Char)) s = o,
    (do char mark; hexDigits count : Parser (List Char)) s' = o' at h
  cases h with
  | done h =>
    obtain ⟨rfl, hr⟩ := h
    dsimp only
    split
    · exact .done ⟨rfl, hr⟩
    · exact .failed rfl
  | failed h => exact .failed h
  | wanting h => exact .wanting h

theorem mirrored_escape : Mirrored Returned escape Returned :=
  ((mirrored_satisfy rfl rfl).or <|
    (mirrored_codeEscape 'u' 4).or (mirrored_codeEscape 'U' 6)).label _

theorem mirrored_quoted : Mirrored Returned quoted Returned := by
  intro s s' hs
  fun_induction quoted s generalizing s' with
  | case1 =>
    cases hs
    rw [quoted]
    exact .failed rfl
  | case2 rest =>
    cases hs with
    | char _ _ hs =>
      rw [quoted_close]
      exact .done ⟨rfl, hs⟩
  | case3 rest =>
    cases hs with
    | char hc _ _ => contradiction
    | line hs =>
      rw [quoted_cons (by decide) (by decide) (by decide), quoted]
      exact .failed rfl
  | case4 rest d after hd _ _ ih =>
    cases hs with
    | char _ _ hs =>
      have h := mirrored_escape _ _ hs
      rw [hd] at h
      generalize he : escape _ = o at h
      cases h with
      | done h =>
        obtain ⟨rfl, hr⟩ := h
        rw [quoted_escape he]
        exact (ih _ hr).map fun h => ⟨h.1 ▸ rfl, h.2⟩
  | case5 rest e hd _ _ =>
    cases hs with
    | char _ _ hs =>
      have h := mirrored_escape _ _ hs
      rw [hd] at h
      generalize he : escape _ = o at h
      cases h with
      | failed _ =>
        rw [quoted_escape_failed he]
        exact .failed rfl
      | wanting hw => exact .wanting ⟨rfl, hw.atLineEnd, hw.label⟩
  | case6 c rest hquote hline hback ih =>
    cases hs with
    | char _ _ hs =>
      rw [quoted_cons hquote hline hback]
      exact (ih _ hs).map fun h => ⟨h.1 ▸ rfl, h.2⟩
    | line hs => contradiction

theorem mirrored_stringLiteral : Mirrored Returned stringLiteral Returned :=
  (mirrored_char '"').bind fun _ => mirrored_quoted.bind fun _ => .pure _

theorem mirrored_reference : Mirrored Returned reference Returned :=
  mirrored_identifier.bind fun _ =>
    (((mirrored_char '.').bind fun _ =>
      mirrored_identifier).optional id).bind fun _ => .pure _

theorem mirrored_argumentName : Mirrored Returned argumentName Returned :=
  (mirrored_char '$').bind fun _ => mirrored_identifier.commit.label _

theorem mirrored_inline : Mirrored Returned inline Returned :=
  (mirrored_stringLiteral.map _).or <| (mirrored_numberLiteral.map _).or <|
    (mirrored_reference.map _).or <|
      ((mirrored_char '-').bind fun _ => mirrored_reference.map _).or <|
        mirrored_argumentName.map _

theorem mirrored_variantKey : Mirrored Returned variantKey Returned :=
  (mirrored_char '[').bind fun _ =>
    (mirrored_blank.bind fun _ =>
      ((mirrored_numberLiteral.map _).or (mirrored_identifier.map _)).bind fun _ =>
        mirrored_blank.bind fun _ => (mirrored_char ']').bind fun _ => .pure _).commit.label _

/-! ## Blank lines -/

/-- Both texts have the same blank lines, but for the carriage returns in them. -/
theorem Returned.blankLines {s s' : List Char} (h : Returned s s') :
    Returned (blankLines s).1 (Source.blankLines s').1 ∧
      Returned (Source.blankLines s).2 (Source.blankLines s').2 := by
  fun_induction Source.blankLines s generalizing s' with
  | case1 s eol rest hend text after heq ih =>
    obtain ⟨htake, hdrop⟩ := h.span isBlank rfl rfl
    obtain ⟨hs, rfl | rfl⟩ := lineEnd?_eq_some hend
    · rw [hs] at hdrop
      generalize hs' : s'.dropWhile isBlank = d at hdrop
      cases hdrop with
      | char hc _ _ => contradiction
      | line hrest =>
        obtain ⟨htext, hafter⟩ := ih hrest
        rw [blankLines_of_lineEnd (by rw [hs']; rfl), ← htake]
        have hspaces := h.takeWhile_self isBlank rfl
        rw [heq] at htext hafter
        exact ⟨(hspaces.append Returned.nil.line).append htext, hafter⟩
    · rw [hs] at hdrop
      exact absurd hdrop.not_mem (by simp)
  | case2 s hend =>
    have hdrop := (h.span isBlank rfl rfl).2
    have hend' : lineEnd? (s'.dropWhile isBlank) = none := by
      generalize s.dropWhile isBlank = d, s'.dropWhile isBlank = d' at *
      cases hdrop with
      | nil => rfl
      | char hc hr _ => exact lineEnd?_cons_of_ne hc hr
      | line _ => cases hend
    rw [blankLines_of_none hend']
    exact ⟨.nil, h⟩

theorem Abreast.blankLines {ahead : Bool} {s s' : List Char} (h : Abreast ahead s s') :
    Abreast ahead (blankLines s).1 (Source.blankLines s').1 ∧
      Returned (Source.blankLines s).2 (Source.blankLines s').2 := by
  cases ahead with
  | false => exact Returned.blankLines h
  | true =>
    obtain ⟨t, t', rfl, rfl, ht⟩ := abreast_true.mp h
    obtain ⟨htext, hrest⟩ := ht.blankLines
    rw [blankLines_lineFeed, blankLines_lineFeed]
    exact ⟨htext.line, hrest⟩

theorem Abreast.nil_iff {ahead : Bool} {s s' : List Char} (h : Abreast ahead s s') :
    s = [] ↔ s' = [] := by
  cases ahead with
  | false => cases h <;> simp
  | true =>
    obtain ⟨t, t', rfl, rfl, -⟩ := abreast_true.mp h
    simp

/-- Both readings find blank lines, or none; the lines behind them are not blank. -/
theorem mirrors_blankBlock {ahead : Bool} {s s' : List Char} (h : Abreast ahead s s') :
    Mirrors (fun u u' r r' => Abreast ahead u u' ∧ Returned r r' ∧
      lineEnd? (r.dropWhile isBlank) = none) (blankBlock s) (blankBlock s') := by
  obtain ⟨htext, hrest⟩ := h.blankLines
  have hnil := htext.nil_iff
  have hend := lineEnd?_blankLines s
  unfold blankBlock
  generalize Source.blankLines s = lines, Source.blankLines s' = lines' at *
  obtain ⟨u, r⟩ := lines
  obtain ⟨u', r'⟩ := lines'
  dsimp only at htext hrest hnil hend
  cases u with
  | nil =>
    obtain rfl : u' = [] := hnil.mp rfl
    exact .failed rfl
  | cons c u =>
    cases u' with
    | nil => simp at hnil
    | cons c' u' => exact .done ⟨htext, hrest, hend⟩

/-! ## Progress -/

theorem consumes_satisfy (wanted : Char → Bool) : Consumes (satisfy wanted) := by
  intro s c r h
  rw [(satisfy_eq_done.mp h).1]
  exact Nat.lt_succ_self _

theorem consumes_char (c : Char) : Consumes (char c) := by
  intro s _ r h
  rw [char_eq_done.mp h]
  exact Nat.lt_succ_self _

theorem consumes_lineEnd : Consumes lineEnd := by
  intro s _ r h
  unfold lineEnd at h
  split at h
  · next heq =>
    cases h
    exact lineEnd?_length heq
  · cases h

theorem consumes_blankBlock : Consumes blankBlock := by
  intro s u r h
  have happend := blankLines_append s
  unfold blankBlock at h
  split at h
  · cases h
  · next text rest hne heq =>
    cases h
    rw [heq] at happend
    have hpos : 0 < u.length := List.length_pos_iff.mpr hne
    rw [← happend, List.length_append]
    exact Nat.lt_add_of_pos_left hpos

end Phrasebook.Source
