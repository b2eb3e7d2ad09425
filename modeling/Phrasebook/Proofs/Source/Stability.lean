import Phrasebook.Proofs.Source.Advance

/-!
# Reading with more text behind

What is read, and which alternatives refuse, does not depend on the text that follows as
long as something in the text keeps the reading from getting there. A triple
`Stable next P p Q` says that `next` makes no difference to `p` on texts with `P`, and that
what is left of such a text has `Q`.

A guard is a character that a lexeme does not take: with the guard still ahead, the lexeme
ends before the text does. Blanks and line ends need a little more, because a line end may
have two characters.

## Main definitions

* `Parser.Keeps`: success is the same with and without the text that follows.
* `Parser.Stable`: success and refusal are.
* `Guards`: a condition on texts that says that a certain character is still ahead.
* `Shelters`: a condition on texts under which blanks and line ends stop in time.
-/

namespace Phrasebook.Source

open Alphabet

namespace Parser

variable {α β : Type} {p q : Parser α} {f : α → Parser β} {next : List Char}
  {P P' Q Q' R : List Char → Prop}

/-- On texts with `P`, whatever is read is also read when `next` follows; what is left of
the text has `Q`. -/
def Keeps (next : List Char) (P : List Char → Prop) (p : Parser α) (Q : List Char → Prop) :
    Prop :=
  ∀ s a r, P s → p s = .done a r → p (s ++ next) = .done a (r ++ next) ∧ Q r

/-- On texts with `P`, success and refusal are the same when `next` follows. -/
structure Stable (next : List Char) (P : List Char → Prop) (p : Parser α)
    (Q : List Char → Prop) : Prop where
  keeps : Keeps next P p Q
  refuses : ∀ s, P s → p.Refuses s → p.Refuses (s ++ next)

/-! ## Combinators -/

theorem Keeps.mono (hp : Keeps next P p Q) (hP : ∀ s, P' s → P s) (hQ : ∀ s, Q s → Q' s) :
    Keeps next P' p Q' := by
  intro s a r hs h
  obtain ⟨h, hr⟩ := hp s a r (hP s hs) h
  exact ⟨h, hQ r hr⟩

theorem Stable.mono (hp : Stable next P p Q) (hP : ∀ s, P' s → P s) (hQ : ∀ s, Q s → Q' s) :
    Stable next P' p Q' :=
  ⟨hp.keeps.mono hP hQ, fun s hs => hp.refuses s (hP s hs)⟩

theorem Stable.pure (a : α) : Stable next P (pure a) P := by
  refine ⟨fun s b r hs h => ?_, fun s _ h => ?_⟩
  · cases h
    exact ⟨rfl, hs⟩
  · obtain ⟨e, h, -⟩ := h
    cases h

theorem Keeps.bind (hp : Keeps next P p Q) (hf : ∀ a, Keeps next Q (f a) R) :
    Keeps next P (p >>= f) R := by
  intro s b r hs h
  obtain ⟨a, r', h, hr⟩ := bind_eq_done.mp h
  obtain ⟨h, hr'⟩ := hp s a r' hs h
  rw [bind_of_done h]
  exact hf a r' b r hr' hr

theorem Stable.bind (hp : Stable next P p Q) (hf : ∀ a, Stable next Q (f a) R) :
    Stable next P (p >>= f) R := by
  refine ⟨hp.keeps.bind fun a => (hf a).keeps, fun s hs h => ?_⟩
  obtain h | ⟨a, r, h, hr⟩ := refuses_bind_cases h
  · exact (hp.refuses s hs h).bind
  · obtain ⟨h, hr'⟩ := hp.keeps s a r hs h
    exact refuses_bind_of_done h ((hf a).refuses r hr' hr)

theorem Stable.map (hp : Stable next P p Q) (g : α → β) : Stable next P (g <$> p) Q :=
  hp.bind fun a => .pure (g a)

theorem Keeps.or (hp : Stable next P p Q) (hq : Keeps next P q Q) : Keeps next P (p.or q) Q := by
  intro s a r hs h
  obtain h | ⟨e, h, he, hq'⟩ := or_eq_done.mp h
  · obtain ⟨h, hr⟩ := hp.keeps s a r hs h
    exact ⟨or_of_done h, hr⟩
  · rw [or_of_refuses (hp.refuses s hs ⟨e, h, he⟩)]
    exact hq s a r hs hq'

theorem Stable.or (hp : Stable next P p Q) (hq : Stable next P q Q) :
    Stable next P (p.or q) Q := by
  refine ⟨Keeps.or hp hq.keeps, fun s hs h => ?_⟩
  obtain ⟨hp', hq'⟩ := refuses_or.mp h
  exact (hp.refuses s hs hp').or (hq.refuses s hs hq')

theorem Stable.optional (hp : Stable next P p Q) (hPQ : ∀ s, P s → Q s) :
    Stable next P p.optional Q := by
  refine ⟨fun s o r hs h => ?_, fun s _ h => absurd h not_refuses_optional⟩
  obtain ⟨a, rfl, ha⟩ | ⟨rfl, rfl, h⟩ := optional_eq_done.mp h
  · obtain ⟨ha, hr⟩ := hp.keeps s a r hs ha
    exact ⟨optional_of_done ha, hr⟩
  · exact ⟨optional_of_refuses (hp.refuses r hs h), hPQ r hs⟩

theorem Keeps.commit (hp : Keeps next P p Q) : Stable next P p.commit Q := by
  refine ⟨fun s a r hs h => ?_, fun s _ h => absurd h not_refuses_commit⟩
  simpa only [commit_eq_done] using hp s a r hs (commit_eq_done.mp h)

theorem Stable.context (hp : Stable next P p Q) (c : Context) :
    Stable next P (p.context c) Q := by
  refine ⟨fun s a r hs h => ?_, fun s hs h => ?_⟩
  · simpa only [context_eq_done] using hp.keeps s a r hs (context_eq_done.mp h)
  · exact refuses_context.mpr (hp.refuses s hs (refuses_context.mp h))

theorem Stable.label (hp : Stable next P p Q) (name : String) : Stable next P (p.label name) Q :=
  hp.context _

theorem Stable.expecting (hp : Stable next P p Q) (text : String) :
    Stable next P (p.expecting text) Q :=
  hp.context _

theorem Keeps.verify (hp : Keeps next P p Q) (wanted : α → Bool) :
    Keeps next P (p.verify wanted) Q := by
  intro s a r hs h
  obtain ⟨h, ha⟩ := verify_eq_done.mp h
  obtain ⟨h, hr⟩ := hp s a r hs h
  exact ⟨verify_eq_done.mpr ⟨h, ha⟩, hr⟩

theorem Keeps.many (hp : Stable next P p P) : Keeps next P p.many P := by
  intro s as r hs h
  fun_induction Parser.many p s generalizing as with
  | case1 => cases h
  | case2 s e hf he =>
    cases h
    exact ⟨many_of_refuses (hp.refuses _ hs ⟨e, hf, by simpa using he⟩), hs⟩
  | case3 s a r' hd hlt as' r'' hm ih =>
    cases h
    obtain ⟨hd, hr'⟩ := hp.keeps s a r' hs hd
    obtain ⟨hm, hr⟩ := ih _ hr' hm
    exact ⟨many_of_done hd (by simpa using hlt) hm, hr⟩
  | case4 => cases h
  | case5 s a r' hd hlt =>
    cases h
    obtain ⟨hd, -⟩ := hp.keeps _ a r' hs hd
    refine ⟨?_, hs⟩
    rw [Parser.many, hd]
    simp [hlt]

theorem Stable.many (hp : Stable next P p P) : Stable next P p.many P :=
  ⟨Keeps.many hp, fun _ _ h => absurd h not_refuses_many⟩

theorem Stable.many1 (hp : Stable next P p P) : Stable next P p.many1 P :=
  hp.bind fun _ => hp.many.bind fun _ => .pure _

end Parser

open Phrasebook.Source.Parser

/-! ## Guards -/

/-- Texts with `P` have the character `d` ahead of them until it is taken. -/
structure Guards (d : Char) (P : List Char → Prop) : Prop where
  nil : ¬ P []
  tail : ∀ {c s}, c ≠ d → P (c :: s) → P s

namespace Guards

variable {d : Char} {P : List Char → Prop} (hg : Guards d P) {next : List Char}
  {wanted : Char → Bool}
include hg

theorem ne_nil {s : List Char} (hs : P s) : s ≠ [] := by
  rintro rfl
  exact hg.nil hs

omit hg in
theorem ne_of_wanted (hw : wanted d = false) {c : Char} (hc : wanted c = true) : c ≠ d := by
  rintro rfl
  simp [hw] at hc

theorem of_append {u r : List Char} (hs : P (u ++ r)) (hu : d ∉ u) : P r := by
  induction u with
  | nil => exact hs
  | cons c u ih => exact ih (hg.tail (by grind) hs) (by grind)

/-- The text that follows does not reach into a run of characters without the guard. -/
theorem span (hw : wanted d = false) {s : List Char} (hs : P s) (next : List Char) :
    (s ++ next).takeWhile wanted = s.takeWhile wanted ∧
      (s ++ next).dropWhile wanted = s.dropWhile wanted ++ next ∧ P (s.dropWhile wanted) := by
  induction s with
  | nil => exact absurd hs hg.nil
  | cons c s ih =>
    by_cases hc : wanted c
    · obtain ⟨htake, hdrop, hrest⟩ := ih (hg.tail (ne_of_wanted hw hc) hs)
      simp [hc, htake, hdrop, hrest]
    · simpa [List.takeWhile_cons, List.dropWhile_cons, hc] using hs

/-! ### Characters -/

theorem satisfy (hw : wanted d = false) : Stable next P (Parser.satisfy wanted) P := by
  refine ⟨fun s c r hs h => ?_, fun s hs h => ?_⟩
  · obtain ⟨rfl, hc⟩ := satisfy_eq_done.mp h
    exact ⟨satisfy_eq_done.mpr ⟨rfl, hc⟩, hg.tail (ne_of_wanted hw hc) hs⟩
  · rw [refuses_satisfy] at h ⊢
    cases s with
    | nil => exact absurd hs hg.nil
    | cons c s => simpa using h

theorem char {c : Char} (hc : c ≠ d) : Stable next P (Parser.char c) P := by
  refine ⟨fun s _ r hs h => ?_, fun s hs h => ?_⟩
  · obtain rfl := char_eq_done.mp h
    exact ⟨char_eq_done.mpr rfl, hg.tail hc hs⟩
  · rw [refuses_char] at h ⊢
    cases s with
    | nil => exact absurd hs hg.nil
    | cons d s => simpa using h

theorem takeWhile (hw : wanted d = false) : Stable next P (Parser.takeWhile wanted) P := by
  refine ⟨fun s cs r hs h => ?_, fun s hs h => ?_⟩
  · cases h
    obtain ⟨htake, hdrop, hrest⟩ := hg.span hw hs next
    exact ⟨by rw [takeWhile_apply, htake, hdrop], hrest⟩
  · obtain ⟨e, h, -⟩ := h
    cases h

theorem takeWhile1 (hw : wanted d = false) : Stable next P (Parser.takeWhile1 wanted) P :=
  (hg.satisfy hw).bind fun _ => (hg.takeWhile hw).bind fun _ => .pure _

/-- A text without the guard that is found with more text behind is found without it. -/
theorem begins_of_append {text s : List Char} (ht : d ∉ text) (hs : P s)
    (h : text <+: s ++ next) : text <+: s := by
  obtain hle | hle := Nat.le_total text.length s.length
  · exact List.prefix_of_prefix_length_le h (List.prefix_append s next) hle
  · -- The text would end inside the other one, and its guard would be there.
    obtain ⟨u, rfl⟩ := List.prefix_of_prefix_length_le (List.prefix_append s next) h hle
    refine absurd (hg.of_append (r := []) (by rwa [List.append_nil]) ?_) hg.nil
    exact fun hmem => ht (List.mem_append_left u hmem)

theorem literal {text : List Char} (ht : d ∉ text) : Stable next P (Parser.literal text) P := by
  refine ⟨fun s _ r hs h => ?_, fun s hs h => ?_⟩
  · obtain rfl := literal_eq_done.mp h
    exact ⟨literal_eq_done.mpr (List.append_assoc _ _ _), hg.of_append hs ht⟩
  · rw [refuses_literal] at h ⊢
    exact fun hpre => h (hg.begins_of_append ht hs hpre)

/-! ### Names and numbers -/

theorem hexDigits {count : Nat} (hd : isHexDigit d = false) :
    Stable next P (Source.hexDigits count) P := by
  have hdigit : ∀ {digits : List Char}, (∀ c ∈ digits, isHexDigit c = true) → d ∉ digits :=
    fun h hmem => by simp [h d hmem] at hd
  refine ⟨fun s digits r hs h => ?_, fun s hs h => ?_⟩
  · obtain ⟨rfl, hlen, hall⟩ := hexDigits_eq_done.mp h
    exact ⟨hexDigits_eq_done.mpr ⟨List.append_assoc _ _ _, hlen, hall⟩,
      hg.of_append hs (hdigit hall)⟩
  · rw [refuses_hexDigits] at h ⊢
    rintro ⟨digits, r, hread⟩
    obtain ⟨heq, hlen, hall⟩ := hexDigits_eq_done.mp hread
    have hbegins : digits <+: s ++ next := ⟨r, heq.symm⟩
    obtain ⟨u, rfl⟩ := hg.begins_of_append (hdigit hall) hs hbegins
    exact h ⟨digits, u, hexDigits_eq_done.mpr ⟨rfl, hlen, hall⟩⟩

theorem codeEscape {mark : Char} {count : Nat} (hm : mark ≠ d) (hd : isHexDigit d = false) :
    Stable next P (Source.codeEscape mark count) P := by
  have hp : Stable next P (do Parser.char mark; Source.hexDigits count) P :=
    (hg.char hm).bind fun _ => hg.hexDigits hd
  refine ⟨fun s c r hs h => ?_, fun s hs h => ?_⟩
  · obtain ⟨digits, hread, hv⟩ := codeEscape_eq_done.mp h
    obtain ⟨hread, hr⟩ := hp.keeps s digits r hs hread
    exact ⟨codeEscape_eq_done.mpr ⟨digits, hread, hv⟩, hr⟩
  · rw [refuses_codeEscape] at h ⊢
    obtain h | ⟨digits, r, hread, hv⟩ := h
    · exact .inl (hp.refuses s hs h)
    · exact .inr ⟨digits, _, (hp.keeps s digits r hs hread).1, hv⟩

variable (hd : d = '\n' ∨ d = '}')
include hd

theorem escape : Stable next P Source.escape P := by
  have hhex : isHexDigit d = false := by obtain rfl | rfl := hd <;> decide
  have hmark : (d == '"' || d == '\\') = false := by obtain rfl | rfl := hd <;> decide
  have hletter : 'u' ≠ d ∧ 'U' ≠ d := by obtain rfl | rfl := hd <;> decide
  exact ((hg.satisfy hmark).or <| (hg.codeEscape hletter.1 hhex).or <|
    hg.codeEscape hletter.2 hhex).label _

theorem identifier : Stable next P Source.identifier P := by
  have hname : isNameStart d = false ∧ isNamePart d = false := by obtain rfl | rfl := hd <;> decide
  exact (hg.satisfy hname.1).bind fun _ => (hg.takeWhile hname.2).bind fun _ => .pure _

theorem numberLiteral : Stable next P Source.numberLiteral P := by
  have hdigit : isDigit d = false := by obtain rfl | rfl := hd <;> decide
  have hmark : '-' ≠ d ∧ '.' ≠ d := by obtain rfl | rfl := hd <;> decide
  exact ((hg.char hmark.1).optional fun _ => id).bind fun _ =>
    (hg.takeWhile1 hdigit).bind fun _ =>
      (((hg.char hmark.2).bind fun _ => hg.takeWhile1 hdigit).optional fun _ => id).bind
        fun _ => .pure _

theorem reference : Stable next P Source.reference P := by
  have hdot : '.' ≠ d := by obtain rfl | rfl := hd <;> decide
  exact (hg.identifier hd).bind fun _ =>
    (((hg.char hdot).bind fun _ => hg.identifier hd).optional fun _ => id).bind fun _ => .pure _

theorem argumentName : Stable next P Source.argumentName P := by
  have hmark : '$' ≠ d := by obtain rfl | rfl := hd <;> decide
  exact (hg.char hmark).bind fun _ => (hg.identifier hd).keeps.commit.label _

end Guards

/-! ## Blanks and line ends -/

/-- On texts with `P` a stretch of blanks ends before the text does, and so does a line end. -/
structure Shelters (next : List Char) (P : List Char → Prop) : Prop where
  blanks : ∀ {s}, P s → (s ++ next).takeWhile isBlank = s.takeWhile isBlank ∧
    (s ++ next).dropWhile isBlank = s.dropWhile isBlank ++ next ∧ P (s.dropWhile isBlank)
  line : ∀ {s}, P s → lineEnd? (s ++ next) = (lineEnd? s).map fun (eol, r) => (eol, r ++ next)
  rest : ∀ {s eol r}, P s → lineEnd? s = some (eol, r) → P r

theorem Guards.shelters {d : Char} {P : List Char → Prop} (hg : Guards d P)
    (hd : d ≠ ' ' ∧ d ≠ '\n' ∧ d ≠ '\r') (next : List Char) : Shelters next P where
  blanks hs := hg.span (by simpa [isBlank] using hd.1) hs next
  line {s} hs := by
    -- The guard is still to come, so the text does not end with a carriage return.
    refine lineEnd?_append (hg.ne_nil hs) ?_ next
    rintro rfl
    exact hg.nil (hg.tail (Ne.symm hd.2.2) hs)
  rest hs h := by
    obtain ⟨rfl, heol⟩ := lineEnd?_eq_some h
    exact hg.of_append hs (by grind)

namespace Shelters

variable {next : List Char} {P : List Char → Prop} (hP : Shelters next P)
include hP

theorem takeWhile : Stable next P (Parser.takeWhile isBlank) P := by
  refine ⟨fun s cs r hs h => ?_, fun s hs h => ?_⟩
  · cases h
    obtain ⟨htake, hdrop, hrest⟩ := hP.blanks hs
    exact ⟨by rw [takeWhile_apply, htake, hdrop], hrest⟩
  · obtain ⟨e, h, -⟩ := h
    cases h

theorem lineEnd : Stable next P Source.lineEnd P := by
  refine ⟨fun s _ r hs h => ?_, fun s hs h => ?_⟩
  · simp only [Source.lineEnd, hP.line hs] at h ⊢
    cases hl : lineEnd? s with
    | none => simp [hl] at h
    | some pair =>
      obtain ⟨eol, r'⟩ := pair
      obtain rfl : r' = r := by simpa [hl] using h
      exact ⟨rfl, hP.rest hs hl⟩
  · obtain ⟨e, h, he⟩ := h
    simp only [Refuses, Source.lineEnd, hP.line hs] at h ⊢
    cases hl : lineEnd? s <;> simp_all

theorem blankLines {s : List Char} (hs : P s) :
    Source.blankLines (s ++ next) =
      ((Source.blankLines s).1, (Source.blankLines s).2 ++ next) ∧ P (Source.blankLines s).2 := by
  fun_induction Source.blankLines s with
  | case1 s eol rest h text after heq ih =>
    obtain ⟨htake, hdrop, hrest⟩ := hP.blanks hs
    have hline := hP.line hrest
    rw [h, ← hdrop, Option.map_some] at hline
    obtain ⟨ih, hafter⟩ := ih (hP.rest hrest h)
    rw [heq] at ih hafter
    exact ⟨by rw [blankLines_of_lineEnd hline, ih, htake], hafter⟩
  | case2 s h =>
    obtain ⟨-, hdrop, hrest⟩ := hP.blanks hs
    have hline := hP.line hrest
    rw [h, ← hdrop, Option.map_none] at hline
    exact ⟨blankLines_of_none hline, hs⟩

theorem blankBlock : Stable next P Source.blankBlock P := by
  refine ⟨fun s text r hs h => ?_, fun s hs h => ?_⟩
  · obtain ⟨hlines, hrest⟩ := hP.blankLines hs
    simp only [Source.blankBlock, hlines] at h ⊢
    split at h <;> simp_all
  · obtain ⟨e, h, he⟩ := h
    simp only [Refuses, Source.blankBlock, (hP.blankLines hs).1] at h ⊢
    split at h <;> simp_all

theorem skipBlank {s : List Char} (hs : P s) :
    Source.skipBlank (s ++ next) = Source.skipBlank s ++ next ∧ P (Source.skipBlank s) := by
  obtain ⟨hlines, hrest⟩ := hP.blankLines hs
  obtain ⟨-, hdrop, hdropped⟩ := hP.blanks hrest
  rw [dropWhile_blankLines] at hdrop hdropped
  rw [← dropWhile_blankLines (s ++ next), hlines]
  exact ⟨hdrop, hdropped⟩

theorem blank : Stable next P Source.blank P := by
  refine ⟨fun s _ r hs h => ?_, fun s hs h => ?_⟩
  · cases h
    obtain ⟨hskip, hrest⟩ := hP.skipBlank hs
    exact ⟨by rw [Source.blank, hskip], hrest⟩
  · obtain ⟨e, h, -⟩ := h
    cases h

end Shelters

end Phrasebook.Source
