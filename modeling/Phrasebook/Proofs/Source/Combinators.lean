import Phrasebook.Source.Parser

/-!
# Laws of the parser combinators

A parser refuses a text when it fails there without committing, so that the next
alternative gets its turn, and aborts when it fails for good. Each combinator has a law for
parts that are done, a law for parts that refuse, and an inversion of its own success; an
abort goes through all of them.
-/

namespace Phrasebook.Source.Parser

variable {α β : Type} {p q : Parser α} {f : α → Parser β} {s r : List Char} {a : α}

/-- A failure that lets the next alternative try. -/
def Refuses (p : Parser α) (s : List Char) : Prop :=
  ∃ e, p s = .failed e ∧ e.committed = false

def Fails (p : Parser α) (s : List Char) : Prop :=
  ∃ e, p s = .failed e

theorem Refuses.fails (h : p.Refuses s) : p.Fails s := h.imp fun _ h => h.1

/-! ## Sequences -/

theorem bind_of_done (h : p s = .done a r) : (p >>= f) s = f a r := by
  rw [bind_apply, h]

theorem Refuses.bind (h : p.Refuses s) : (p >>= f).Refuses s := by
  obtain ⟨e, hp, he⟩ := h
  exact ⟨e, by rw [bind_apply, hp], he⟩

theorem refuses_bind_of_done (h : p s = .done a r) (hf : (f a).Refuses r) :
    (p >>= f).Refuses s := by
  obtain ⟨e, hr, he⟩ := hf
  exact ⟨e, by rw [bind_of_done h, hr], he⟩

/-- A sequence refuses in its first part or in what follows it. -/
theorem refuses_bind_cases (h : (p >>= f).Refuses s) :
    p.Refuses s ∨ ∃ a r, p s = .done a r ∧ (f a).Refuses r := by
  obtain ⟨e, hs, he⟩ := h
  rw [bind_apply] at hs
  cases hp : p s with
  | done a r => exact .inr ⟨a, r, rfl, e, by simpa [hp] using hs, he⟩
  | failed e' =>
    have : e' = e := by simpa [hp] using hs
    exact .inl ⟨e', hp, this ▸ he⟩

theorem map_apply (g : α → β) (p : Parser α) (s : List Char) : (g <$> p) s = (p s).map g := by
  change (p >>= fun a => pure (g a)) s = _
  rw [bind_apply]
  cases p s <;> rfl

theorem map_of_done (g : α → β) (h : p s = .done a r) : (g <$> p) s = .done (g a) r := by
  rw [map_apply, h, Outcome.map]

theorem map_eq_done {g : α → β} {b : β} :
    (g <$> p) s = .done b r ↔ ∃ a, p s = .done a r ∧ g a = b := by
  rw [map_apply]
  exact Outcome.map_eq_done

theorem refuses_map {g : α → β} : (g <$> p).Refuses s ↔ p.Refuses s := by
  simp only [Refuses, map_apply]
  cases p s <;> simp [Outcome.map]

/-! ## Alternatives -/

theorem or_of_done (h : p s = .done a r) : p.or q s = .done a r := by
  simp [Parser.or, h]

theorem or_of_refuses (h : p.Refuses s) : p.or q s = q s := by
  obtain ⟨e, hp, he⟩ := h
  simp [Parser.or, hp, he]

theorem Refuses.or (hp : p.Refuses s) (hq : q.Refuses s) : (p.or q).Refuses s := by
  obtain ⟨e, hs, he⟩ := hq
  exact ⟨e, by rw [or_of_refuses hp, hs], he⟩

/-- An alternative that succeeds or refuses comes from the first parser or, when that one
refuses, from the second. -/
theorem or_cases (p q : Parser α) (s : List Char) :
    (p.or q s = p s ∧ ¬ p.Refuses s) ∨ (p.Refuses s ∧ p.or q s = q s) := by
  cases hp : p s with
  | done a r =>
    refine .inl ⟨or_of_done hp, ?_⟩
    rintro ⟨e, he, -⟩
    simp [hp] at he
  | failed e =>
    cases he : e.committed with
    | false => exact .inr ⟨⟨e, hp, he⟩, or_of_refuses ⟨e, hp, he⟩⟩
    | true =>
      refine .inl ⟨by simp [Parser.or, hp, he], ?_⟩
      rintro ⟨e', he', hc⟩
      simp_all

theorem or_assoc (p q r : Parser α) : p.or (q.or r) = (p.or q).or r := by
  funext s
  simp only [Parser.or]
  cases p s with
  | done a t => rfl
  | failed e => cases he : e.committed <;> simp [he]

theorem refuses_or : (p.or q).Refuses s ↔ p.Refuses s ∧ q.Refuses s := by
  refine ⟨fun h => ?_, fun ⟨hp, hq⟩ => hp.or hq⟩
  obtain ⟨e, hs, he⟩ := h
  obtain ⟨heq, hn⟩ | ⟨hp, heq⟩ := or_cases p q s
  · exact absurd ⟨e, heq ▸ hs, he⟩ hn
  · exact ⟨hp, e, heq ▸ hs, he⟩

theorem optional_of_done (h : p s = .done a r) : p.optional s = .done (some a) r := by
  simp [optional, h]

theorem optional_of_refuses (h : p.Refuses s) : p.optional s = .done none s := by
  obtain ⟨e, hp, he⟩ := h
  simp [optional, hp, he]

theorem optional_eq_done {o : Option α} :
    p.optional s = .done o r ↔
      (∃ a, o = some a ∧ p s = .done a r) ∨ (o = none ∧ r = s ∧ p.Refuses s) := by
  simp only [optional, Refuses]
  cases p s with
  | done a r' => grind
  | failed e => cases e.committed <;> grind

/-- Something optional never refuses: it is read, or skipped, or its failure is final. -/
theorem not_refuses_optional : ¬ p.optional.Refuses s := by
  simp only [optional, Refuses]
  cases p s with
  | done a r => simp
  | failed e => cases h : e.committed <;> simp [h]

/-! ## Contexts and commitment -/

theorem refuses_context {c : Context} : (p.context c).Refuses s ↔ p.Refuses s := by
  simp only [Refuses, context]
  cases p s <;> simp

@[simp] theorem refuses_label {name : String} : (p.label name).Refuses s ↔ p.Refuses s :=
  refuses_context

@[simp] theorem refuses_expecting {text : String} : (p.expecting text).Refuses s ↔ p.Refuses s :=
  refuses_context

@[simp] theorem expecting_eq_done {text : String} :
    p.expecting text s = .done a r ↔ p s = .done a r :=
  context_eq_done

@[simp] theorem expectingChar_eq_done {c : Char} :
    p.expectingChar c s = .done a r ↔ p s = .done a r :=
  context_eq_done

theorem not_refuses_commit : ¬ p.commit.Refuses s := by
  simp only [Refuses, commit]
  cases p s <;> simp

/-- Every failure of a sequence is final if those of its parts are. -/
theorem commit_bind (p : Parser α) (f : α → Parser β) :
    (p >>= f).commit = p.commit >>= fun a => (f a).commit := by
  funext s
  simp only [commit, bind_apply]
  cases p s <;> rfl

theorem label_bind (name : String) (p : Parser α) (f : α → Parser β) :
    (p >>= f).label name = p.label name >>= fun a => (f a).label name := by
  funext s
  simp only [label, context, bind_apply]
  cases p s <;> rfl

theorem verify_eq_done {wanted : α → Bool} :
    p.verify wanted s = .done a r ↔ p s = .done a r ∧ wanted a = true := by
  unfold verify
  cases p s with
  | done a' r' => by_cases h : wanted a' <;> simp [h] <;> grind
  | failed e => simp

/-! ## Repetition -/

theorem many_of_refuses (h : p.Refuses s) : p.many s = .done [] s := by
  obtain ⟨e, hp, he⟩ := h
  rw [many, hp]
  simp [he]

theorem many_of_done {as : List α} {r' : List Char} (h : p s = .done a r)
    (hlen : r.length < s.length) (hr : p.many r = .done as r') :
    p.many s = .done (a :: as) r' := by
  rw [many, h]
  simp [hlen, hr]

theorem many_eq_map (h : p s = .done a r) (hlen : r.length < s.length) :
    p.many s = (p.many r).map (a :: ·) := by
  rw [many, h]
  simp only [hlen, ↓reduceIte]
  cases p.many r <;> rfl

/-- A repetition ends where its parser refuses, so it never refuses itself. -/
theorem not_refuses_many : ¬ p.many.Refuses s := by
  rintro ⟨e, h, he⟩
  fun_induction Parser.many p s with
  | case1 s e' h' he' => cases h; simp_all
  | case2 => cases h
  | case3 => cases h
  | case4 s a r hd hlt e' hm ih => cases h; exact ih hm
  | case5 => cases h

/-- Things written one behind another are read one after another, if each of them is read
in front of any others. -/
theorem many_flatMap {write : α → List Char} {as : List α} {rest : List Char}
    (hwrite : ∀ a, write a ≠ [])
    (hread : ∀ a ∈ as, ∀ others : List α,
      p (write a ++ (others.flatMap write ++ rest)) = .done a (others.flatMap write ++ rest))
    (hend : p.Refuses rest) : p.many (as.flatMap write ++ rest) = .done as rest := by
  induction as with
  | nil => exact many_of_refuses hend
  | cons a as ih =>
    rw [List.flatMap_cons, List.append_assoc]
    refine many_of_done (hread a (.head _) as) ?_ (ih fun b hb => hread b (.tail _ hb))
    have hlength := List.length_pos_iff.mpr (hwrite a)
    simp only [List.length_append]
    omega

theorem many1_of_done {as : List α} {r' : List Char} (h : p s = .done a r)
    (hr : p.many r = .done as r') : p.many1 s = .done (a :: as) r' := by
  rw [many1, bind_of_done h, bind_of_done hr]
  rfl

theorem many1_eq_done {as : List α} {r' : List Char} :
    p.many1 s = .done as r' ↔
      ∃ a r as', p s = .done a r ∧ p.many r = .done as' r' ∧ as = a :: as' := by
  simp only [many1, bind_eq_done, pure_apply, Outcome.done.injEq]
  grind

/-! ## Aborts -/

/-- A failure that ends the whole parse. -/
def Aborts (p : Parser α) (s : List Char) : Prop :=
  ∃ e, p s = .failed e ∧ e.committed = true

theorem Aborts.fails (h : p.Aborts s) : p.Fails s := h.imp fun _ h => h.1

theorem Aborts.bind (h : p.Aborts s) : (p >>= f).Aborts s := by
  obtain ⟨e, hp, he⟩ := h
  exact ⟨e, by rw [bind_apply, hp], he⟩

theorem aborts_bind_of_done (h : p s = .done a r) (hf : (f a).Aborts r) :
    (p >>= f).Aborts s := by
  obtain ⟨e, hr, he⟩ := hf
  exact ⟨e, by rw [bind_of_done h, hr], he⟩

theorem Aborts.or (h : p.Aborts s) : (p.or q).Aborts s := by
  obtain ⟨e, hp, he⟩ := h
  exact ⟨e, by simp [Parser.or, hp, he], he⟩

theorem aborts_or_of_refuses (hp : p.Refuses s) (hq : q.Aborts s) : (p.or q).Aborts s := by
  obtain ⟨e, hs, he⟩ := hq
  exact ⟨e, by rw [or_of_refuses hp, hs], he⟩

theorem Aborts.context {c : Context} (h : p.Aborts s) : (p.context c).Aborts s := by
  obtain ⟨e, hp, he⟩ := h
  exact ⟨{ e with contexts := e.contexts ++ [c] }, by rw [Parser.context, hp], he⟩

theorem Fails.commit (h : p.Fails s) : p.commit.Aborts s := by
  obtain ⟨e, hp⟩ := h
  exact ⟨{ e with committed := true }, by rw [Parser.commit, hp], rfl⟩

theorem Aborts.verify {wanted : α → Bool} (h : p.Aborts s) : (p.verify wanted).Aborts s := by
  obtain ⟨e, hp, he⟩ := h
  exact ⟨e, by rw [Parser.verify, hp], he⟩

theorem Aborts.many (h : p.Aborts s) : p.many.Aborts s := by
  obtain ⟨e, hp, he⟩ := h
  exact ⟨e, by rw [Parser.many, hp]; simp [he], he⟩

/-! ## Characters -/

theorem char_of_head {c : Char} : char c (c :: s) = .done () s := by
  simp [char]

theorem refuses_char {c : Char} : (char c).Refuses s ↔ s.head? ≠ some c := by
  cases s with
  | nil => simp [Refuses, char]
  | cons d ds => by_cases h : d = c <;> simp [Refuses, char, h]

theorem refuses_satisfy {wanted : Char → Bool} :
    (satisfy wanted).Refuses s ↔ ∀ c, s.head? = some c → wanted c = false := by
  cases s with
  | nil => simp [Refuses, satisfy]
  | cons d ds => by_cases h : wanted d <;> simp [Refuses, satisfy, h]

theorem takeWhile_apply {wanted : Char → Bool} :
    takeWhile wanted s = .done (s.takeWhile wanted) (s.dropWhile wanted) := rfl

theorem refuses_takeWhile1 {wanted : Char → Bool} :
    (takeWhile1 wanted).Refuses s ↔ ∀ c, s.head? = some c → wanted c = false := by
  refine ⟨fun h => ?_, fun h => (refuses_satisfy.mpr h).bind⟩
  obtain h | ⟨c, t, -, h⟩ := refuses_bind_cases h
  · exact refuses_satisfy.mp h
  · obtain ⟨e, he, -⟩ := h
    cases he

theorem takeWhile1_eq_done {wanted : Char → Bool} {u : List Char}
    (h : takeWhile1 wanted s = .done u r) :
    u = s.takeWhile wanted ∧ r = s.dropWhile wanted := by
  simp only [takeWhile1, bind_eq_done, satisfy_eq_done] at h
  obtain ⟨c, t, ⟨rfl, hc⟩, u', t', ht, h⟩ := h
  cases ht
  cases h
  simp [hc]

theorem takeWhile1_cases (wanted : Char → Bool) (s : List Char) :
    (takeWhile1 wanted).Refuses s ∨
      takeWhile1 wanted s = .done (s.takeWhile wanted) (s.dropWhile wanted) := by
  cases s with
  | nil => exact .inl (refuses_takeWhile1.mpr (by simp))
  | cons c cs =>
    cases h : wanted c with
    | false => exact .inl (refuses_takeWhile1.mpr (by simp [h]))
    | true =>
      have hfirst : satisfy wanted (c :: cs) = .done c cs := satisfy_eq_done.mpr ⟨rfl, h⟩
      rw [takeWhile1, bind_of_done hfirst, bind_of_done takeWhile_apply]
      simp [h]

theorem literal_eq_done {text : List Char} {u : Unit} :
    literal text s = .done u r ↔ s = text ++ r := by
  unfold literal
  split
  · next h =>
    obtain ⟨t, rfl⟩ := List.isPrefixOf_iff_prefix.mp h
    simp [eq_comm]
  · next h =>
    simp only [reduceCtorEq, false_iff]
    rintro rfl
    exact h (List.isPrefixOf_iff_prefix.mpr ⟨r, rfl⟩)

theorem refuses_literal {text : List Char} : (literal text).Refuses s ↔ ¬ text <+: s := by
  simp only [literal, Refuses, ← List.isPrefixOf_iff_prefix]
  split
  · next h => simp [h]
  · next h => simpa using h

end Phrasebook.Source.Parser
