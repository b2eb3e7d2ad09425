import Phrasebook.Proofs.Source.Combinators
import Phrasebook.Source.Document

/-!
# Laws of the productions

What the functions of the grammar that are no combinations of others take from the front
of a text, and where they stop or fail.
-/

namespace Phrasebook.Source

open Alphabet Phrasebook.Source.Parser

/-! ## Line ends and blanks -/

theorem lineEnd?_eq_some {s eol rest : List Char} (h : lineEnd? s = some (eol, rest)) :
    s = eol ++ rest ∧ (eol = ['\n'] ∨ eol = ['\r', '\n']) := by
  unfold lineEnd? at h
  split at h
  · cases h
    exact ⟨rfl, .inl rfl⟩
  · cases h
    exact ⟨rfl, .inr rfl⟩
  · contradiction

theorem lineEnd?_cons_of_ne {c : Char} {s : List Char} (hf : c ≠ '\n') (hr : c ≠ '\r') :
    lineEnd? (c :: s) = none := by
  unfold lineEnd?
  split
  · simp_all
  · simp_all
  · rfl

theorem lineEnd?_return_of_ne {c : Char} {s : List Char} (h : c ≠ '\n') :
    lineEnd? ('\r' :: c :: s) = none := by
  unfold lineEnd?
  split
  · next heq => simp at heq
  · next heq => simp_all
  · rfl

/-- More text behind makes no difference, unless it completes a line end. -/
theorem lineEnd?_append {s : List Char} (hne : s ≠ []) (hr : s ≠ ['\r']) (next : List Char) :
    lineEnd? (s ++ next) = (lineEnd? s).map fun (eol, r) => (eol, r ++ next) := by
  cases s with
  | nil => contradiction
  | cons c s =>
    by_cases hf : c = '\n'
    · subst hf
      rfl
    by_cases hreturn : c = '\r'
    · subst hreturn
      cases s with
      | nil => contradiction
      | cons d s =>
        by_cases hd : d = '\n'
        · subst hd
          rfl
        · rw [lineEnd?_return_of_ne hd]
          exact lineEnd?_return_of_ne hd
    · rw [lineEnd?_cons_of_ne hf hreturn]
      exact lineEnd?_cons_of_ne hf hreturn

theorem blankLines_of_lineEnd {s eol rest : List Char}
    (h : lineEnd? (s.dropWhile isBlank) = some (eol, rest)) :
    blankLines s = (s.takeWhile isBlank ++ eol ++ (blankLines rest).1, (blankLines rest).2) := by
  rw [blankLines]
  split
  · next eol' rest' h' =>
    rw [h] at h'
    cases h'
    rfl
  · next h' => simp [h] at h'

theorem blankLines_lineFeed (s : List Char) :
    blankLines ('\n' :: s) = ('\n' :: (blankLines s).1, (blankLines s).2) := by
  rw [blankLines]
  rfl

theorem blankLines_of_none {s : List Char} (h : lineEnd? (s.dropWhile isBlank) = none) :
    blankLines s = ([], s) := by
  rw [blankLines]
  split
  · next h' => simp [h] at h'
  · rfl

/-- Behind the blank lines there is no other blank line. -/
theorem lineEnd?_blankLines (s : List Char) :
    lineEnd? ((blankLines s).2.dropWhile isBlank) = none := by
  fun_induction blankLines s with
  | case1 s eol rest h text after heq ih => rwa [heq] at ih
  | case2 s h => exact h

/-- Blank lines are cut off the front: nothing is lost between them and the rest. -/
theorem blankLines_append (s : List Char) : (blankLines s).1 ++ (blankLines s).2 = s := by
  fun_induction blankLines s with
  | case1 s eol rest h text after heq ih =>
    obtain ⟨hs, -⟩ := lineEnd?_eq_some h
    rw [heq] at ih
    calc s.takeWhile isBlank ++ eol ++ text ++ after
      _ = s.takeWhile isBlank ++ (eol ++ rest) := by simp [← ih]
      _ = s := by rw [← hs, List.takeWhile_append_dropWhile]
  | case2 => rfl

theorem skipBlank_suffix (s : List Char) : skipBlank s <:+ s := by
  fun_induction skipBlank s with
  | case1 rest ih => exact ih.trans (List.suffix_cons _ _)
  | case2 rest ih => exact ih.trans (List.suffix_cons _ _)
  | case3 rest ih => exact ih.trans ⟨['\r', '\n'], rfl⟩
  | case4 s => exact List.suffix_rfl

theorem skipBlank_cons_of_ne {c : Char} {s : List Char} (hs : c ≠ ' ') (hf : c ≠ '\n')
    (hr : c ≠ '\r') : skipBlank (c :: s) = c :: s := by
  unfold skipBlank
  split <;> simp_all

/-- Spaces and line breaks. -/
inductive Blank : List Char → Prop
  | nil : Blank []
  | space {s : List Char} : Blank s → Blank (' ' :: s)
  | lineFeed {s : List Char} : Blank s → Blank ('\n' :: s)
  | carriageReturn {s : List Char} : Blank s → Blank ('\r' :: '\n' :: s)

theorem Blank.append {s t : List Char} (hs : Blank s) (ht : Blank t) : Blank (s ++ t) := by
  induction hs with
  | nil => exact ht
  | space _ ih => exact ih.space
  | lineFeed _ ih => exact ih.lineFeed
  | carriageReturn _ ih => exact ih.carriageReturn

theorem blank_of_all {s : List Char} (h : ∀ c ∈ s, isBlank c = true) : Blank s := by
  induction s with
  | nil => exact .nil
  | cons c cs ih =>
    obtain ⟨hc, hcs⟩ := List.forall_mem_cons.mp h
    obtain rfl : c = ' ' := by simpa [isBlank] using hc
    exact (ih hcs).space

theorem blank_blankLines (s : List Char) : Blank (blankLines s).1 := by
  fun_induction blankLines s with
  | case1 s eol rest h text after heq ih =>
    have hspaces : Blank (s.takeWhile isBlank) :=
      blank_of_all (List.all_eq_true.mp List.all_takeWhile)
    have heol : Blank eol := by
      obtain ⟨-, rfl | rfl⟩ := lineEnd?_eq_some h
      · exact Blank.nil.lineFeed
      · exact Blank.nil.carriageReturn
    rw [heq] at ih
    exact (hspaces.append heol).append ih
  | case2 s => exact .nil

theorem Blank.skipBlank_append {b : List Char} (h : Blank b) (s : List Char) :
    skipBlank (b ++ s) = skipBlank s := by
  induction h with
  | nil => rfl
  | space _ ih => exact ih
  | lineFeed _ ih => exact ih
  | carriageReturn _ ih => exact ih

theorem Blank.skipBlank {b : List Char} (h : Blank b) : Source.skipBlank b = [] := by
  rw [← List.append_nil b, h.skipBlank_append, Source.skipBlank]
  all_goals simp

/-- Where no line ends, there are only spaces to skip. -/
theorem skipBlank_of_lineEnd? {s : List Char} (h : lineEnd? (s.dropWhile isBlank) = none) :
    skipBlank s = s.dropWhile isBlank := by
  fun_induction skipBlank s with
  | case1 s ih => exact ih h
  | case2 s => cases h
  | case3 s => cases h
  | case4 s hspace =>
    cases s with
    | nil => rfl
    | cons c cs =>
      have hc : c ≠ ' ' := fun hc => hspace cs (hc ▸ rfl)
      simp [isBlank, hc]

/-- Blank lines and the indentation behind them are all the blanks there are. -/
theorem dropWhile_blankLines (s : List Char) :
    (blankLines s).2.dropWhile isBlank = skipBlank s := by
  rw [← skipBlank_of_lineEnd? (lineEnd?_blankLines s),
    ← (blank_blankLines s).skipBlank_append, blankLines_append]

theorem blankLines_cons_of_ne {c : Char} {s : List Char} (hs : c ≠ ' ') (hf : c ≠ '\n')
    (hr : c ≠ '\r') : blankLines (c :: s) = ([], c :: s) := by
  have hdrop : (c :: s).dropWhile isBlank = c :: s := by simp [isBlank, hs]
  exact blankLines_of_none (by rw [hdrop, lineEnd?_cons_of_ne hf hr])

theorem refuses_blankBlock {s : List Char} (h : lineEnd? (s.dropWhile isBlank) = none) :
    Refuses blankBlock s :=
  ⟨_, by rw [blankBlock, blankLines_of_none h], rfl⟩

theorem blankBlock_eq_done {s lines rest : List Char} :
    blankBlock s = .done lines rest ↔ lines ≠ [] ∧ blankLines s = (lines, rest) := by
  unfold blankBlock
  split
  · next h => grind
  · next h => grind

/-- Either no line ends behind the spaces at the front, or there are blank lines. -/
theorem blankBlock_cases (s : List Char) :
    lineEnd? (s.dropWhile isBlank) = none ∨
      ∃ lines rest, blankBlock s = .done lines rest ∧ rest.dropWhile isBlank = skipBlank s := by
  cases h : lineEnd? (s.dropWhile isBlank) with
  | none => exact .inl rfl
  | some p =>
    obtain ⟨eol, after⟩ := p
    have hne : (blankLines s).1 ≠ [] := by
      obtain ⟨-, rfl | rfl⟩ := lineEnd?_eq_some h <;> simp [blankLines_of_lineEnd h]
    exact .inr ⟨_, _, blankBlock_eq_done.mpr ⟨hne, rfl⟩, dropWhile_blankLines s⟩

/-! ## Names and escapes -/

theorem refuses_identifier {s : List Char} :
    identifier.Refuses s ↔ ∀ c, s.head? = some c → isNameStart c = false := by
  refine ⟨fun h => ?_, fun h => (refuses_satisfy.mpr h).bind⟩
  obtain h | ⟨c, r, -, h⟩ := refuses_bind_cases h
  · exact refuses_satisfy.mp h
  · obtain ⟨e, h, -⟩ := h
    cases h

theorem hexDigits_eq_done {count : Nat} {s digits r : List Char} :
    hexDigits count s = .done digits r ↔
      s = digits ++ r ∧ digits.length = count ∧ ∀ d ∈ digits, isHexDigit d = true := by
  simp only [hexDigits, List.all_eq_true]
  split
  · next h =>
    simp only [Outcome.done.injEq]
    constructor
    · rintro ⟨rfl, rfl⟩
      exact ⟨(List.take_append_drop count s).symm, h⟩
    · rintro ⟨rfl, rfl, -⟩
      simp
  · next h =>
    simp only [reduceCtorEq, false_iff]
    rintro ⟨rfl, rfl, hall⟩
    exact h (by simpa using hall)

theorem refuses_hexDigits {count : Nat} {s : List Char} :
    Refuses (hexDigits count) s ↔ ¬ ∃ digits r, hexDigits count s = .done digits r := by
  simp only [Refuses, hexDigits]
  split <;> simp

theorem codeEscape_eq_done {mark : Char} {count : Nat} {s r : List Char} {c : Char} :
    codeEscape mark count s = .done c r ↔
      ∃ digits, (do char mark; hexDigits count : Parser (List Char)) s = .done digits r ∧
        codePoint? (hexValue digits) = some c := by
  unfold codeEscape
  split
  · next digits r' h => cases hc : codePoint? (hexValue digits) <;> grind
  · next e h => simp [h]

theorem refuses_codeEscape {mark : Char} {count : Nat} {s : List Char} :
    Refuses (codeEscape mark count) s ↔
      Refuses (do char mark; hexDigits count) s ∨
        ∃ digits r, (do char mark; hexDigits count : Parser (List Char)) s = .done digits r ∧
          codePoint? (hexValue digits) = none := by
  simp only [codeEscape, Refuses]
  split
  · next digits r h => cases hc : codePoint? (hexValue digits) <;> grind
  · next e h => simp [h]

/-! ## Quoted text -/

theorem quoted_close (s : List Char) : quoted ('"' :: s) = .done [] s := by
  rw [quoted]
  simp

theorem quoted_escape {s r : List Char} {c : Char} (h : escape s = .done c r) :
    quoted ('\\' :: s) = (quoted r).map (c :: ·) := by
  rw [quoted]
  simp only [Char.reduceEq, ↓reduceIte]
  split
  · next d r' h' =>
    rw [h] at h'
    cases h'
    rfl
  · next e h' =>
    rw [h] at h'
    cases h'

theorem quoted_escape_failed {s : List Char} {e : Failure} (h : escape s = .failed e) :
    quoted ('\\' :: s) = .failed { e with committed := true } := by
  rw [quoted]
  simp only [Char.reduceEq, ↓reduceIte]
  split
  · next d r' h' =>
    rw [h] at h'
    cases h'
  · next e' h' =>
    rw [h] at h'
    cases h'
    rfl

theorem quoted_cons {c : Char} {s : List Char} (hquote : c ≠ '"') (hline : c ≠ '\n')
    (hback : c ≠ '\\') : quoted (c :: s) = (quoted s).map (c :: ·) := by
  rw [quoted]
  simp [hquote, hline, hback]

/-- Inside quotes every failure is final. -/
theorem not_refuses_quoted {s : List Char} : ¬ Refuses quoted s := by
  rintro ⟨e, h, he⟩
  fun_induction quoted s generalizing e with
  | case1 => cases h; simp at he
  | case2 => cases h
  | case3 => cases h; simp at he
  | case4 rest d after hd _ _ ih =>
    cases hq : quoted after with
    | done cs r => simp [hq, Outcome.map] at h
    | failed e' =>
      simp only [hq, Outcome.map, Outcome.failed.injEq] at h
      exact ih e' hq (h ▸ he)
  | case5 rest e' hd => cases h; simp at he
  | case6 c rest _ _ _ ih =>
    cases hq : quoted rest with
    | done cs r => simp [hq, Outcome.map] at h
    | failed e' =>
      simp only [hq, Outcome.map, Outcome.failed.injEq] at h
      exact ih e' hq (h ▸ he)

/-! ## Entries -/

section Commented

variable {s r rest : List Char} {c : Comment}

theorem commented_of_term {t : Term} (hc : comment .entry s = .done c rest)
    (ht : term rest = .done t r) :
    commented s = .done (.term { t with comment := some c }) r := by
  simp [commented, hc, ht]

theorem commented_of_message {m : Message} (hc : comment .entry s = .done c rest)
    (ht : term.Fails rest) (hm : message rest = .done m r) :
    commented s = .done (.message { m with comment := some c }) r := by
  obtain ⟨e, ht⟩ := ht
  simp [commented, hc, ht, hm]

theorem commented_of_alone (hc : comment .entry s = .done c rest) (ht : term.Fails rest)
    (hm : message.Fails rest) : commented s = .done (.comment c) rest := by
  obtain ⟨e, ht⟩ := ht
  obtain ⟨e', hm⟩ := hm
  simp [commented, hc, ht, hm]

/-- A comment is followed by a term, or else by a message, or else it stands alone. -/
theorem commented_cases {e : Entry} (h : commented s = .done e r) :
    ∃ c rest, comment .entry s = .done c rest ∧
      ((∃ t, term rest = .done t r ∧ e = .term { t with comment := some c }) ∨
        (∃ m, term.Fails rest ∧ message rest = .done m r ∧
          e = .message { m with comment := some c }) ∨
        (term.Fails rest ∧ message.Fails rest ∧ e = .comment c ∧ r = rest)) := by
  unfold commented at h
  split at h
  · cases h
  · next c rest hc =>
    refine ⟨c, rest, hc, ?_⟩
    split at h
    · next t after ht =>
      cases h
      exact .inl ⟨t, ht, rfl⟩
    · next e₁ ht =>
      split at h
      · next m after hm =>
        cases h
        exact .inr (.inl ⟨m, ⟨e₁, ht⟩, hm, rfl⟩)
      · next e₂ hm =>
        cases h
        exact .inr (.inr ⟨⟨e₁, ht⟩, ⟨e₂, hm⟩, rfl, rfl⟩)

theorem refuses_commented : Refuses commented s ↔ (comment .entry).Refuses s := by
  simp only [Refuses, commented]
  split
  · next e h => simp [h]
  · next c rest h =>
    simp only [h, reduceCtorEq, false_and, exists_false, iff_false]
    split
    · simp
    · split <;> simp

end Commented

theorem refuses_message_of_head {s : List Char}
    (h : ∀ c, s.head? = some c → isNameStart c = false) : message.Refuses s :=
  (refuses_identifier.mpr h).bind

theorem refuses_term_of_head {s : List Char} (h : s.head? ≠ some '-') : term.Refuses s :=
  (refuses_char.mpr h).bind

theorem refuses_commentLine_of_head {level : CommentLevel} {s : List Char}
    (h : s.head? ≠ some '#') : (commentLine level).Refuses s := by
  refine Refuses.bind (refuses_literal.mpr ?_)
  rintro ⟨t, rfl⟩
  cases level <;> simp [CommentLevel.marker] at h

theorem refuses_comment_of_head {level : CommentLevel} {s : List Char}
    (h : s.head? ≠ some '#') : (comment level).Refuses s :=
  (refuses_commentLine_of_head h).bind.bind

/-- Without the mark of a comment there is a term or else a message. -/
theorem entry_of_head {s : List Char} (h : s.head? ≠ some '#') :
    entry s = ((Entry.term <$> term).or (Entry.message <$> message)) s := by
  rw [entry, or_of_refuses (refuses_map.mpr (refuses_comment_of_head h)),
    or_of_refuses (refuses_map.mpr (refuses_comment_of_head h)),
    or_of_refuses (refuses_commented.mpr (refuses_comment_of_head h))]

/-! ## Whole texts -/

theorem skipBlankLines_nil : skipBlankLines [] = [] := by
  simp [skipBlankLines, blankLines, lineEnd?]

theorem Blank.skipBlankLines {b : List Char} (h : Blank b) : Source.skipBlankLines b = [] := by
  have hdrop : (blankLines b).2.dropWhile isBlank = [] := by rw [dropWhile_blankLines, h.skipBlank]
  have htake : (blankLines b).2.takeWhile isBlank = (blankLines b).2 := by
    simpa [hdrop] using List.takeWhile_append_dropWhile (p := isBlank) (l := (blankLines b).2)
  have hall : (blankLines b).2.all isBlank = true := by
    rw [← htake]
    exact List.all_takeWhile
  simp [Source.skipBlankLines, hall]

theorem skipBlankLines_cons_of_ne {c : Char} {s : List Char} (hs : c ≠ ' ') (hf : c ≠ '\n')
    (hr : c ≠ '\r') : skipBlankLines (c :: s) = c :: s := by
  simp [skipBlankLines, blankLines_cons_of_ne hs hf hr, isBlank, hs]

theorem dropByteOrderMark_of_head {s : List Char} (h : s.head? ≠ some '\uFEFF') :
    dropByteOrderMark s = s := by
  unfold dropByteOrderMark
  split
  · simp at h
  · rfl

theorem map_eq_ok {α β ε : Type} {x : Except ε α} {f : α → β} {b : β} :
    x.map f = .ok b ↔ ∃ a, x = .ok a ∧ f a = b := by
  cases x <;> simp [Except.map]

theorem parse_eq_ok {mode : Mode} {text : String} {r : Resource} :
    Resource.parse mode text = .ok r ↔
      entries mode (dropByteOrderMark text.toList)
        (skipBlankLines (dropByteOrderMark text.toList)) = .ok r.body := by
  rw [Resource.parse, map_eq_ok]
  constructor
  · rintro ⟨body, h, rfl⟩
    exact h
  · exact fun h => ⟨r.body, h, rfl⟩

theorem complete_eq_ok {α : Type} {p : Parser α} {text : String} {a : α} :
    complete p text = .ok a ↔ text ≠ "" ∧ p text.toList = .done a [] := by
  by_cases hne : text = ""
  · simp [complete, hne]
  · simp only [complete, bind_apply]
    cases hp : p text.toList with
    | failed e => simp [hne]
    | done b r => cases r <;> simp [endOfInput, hne]

theorem complete_of_fails {α : Type} {p : Parser α} {text : String} (hne : text ≠ "")
    (h : p.Fails text.toList) :
    ∃ position reason, complete p text = .error (.malformed position reason) := by
  obtain ⟨e, he⟩ := h
  simp [complete, bind_apply, he, hne]

end Phrasebook.Source
