import Mathlib
import Phrasebook.Proofs.Source.Lookahead
import Phrasebook.Proofs.Source.Segments

/-!
# Reading one text behind another

A well-formed text that ends with a line feed is read the same whatever follows it, if
that opens an entry: the entries of both texts follow each other, and the annotations of
the second one move down by the lines of the first. A comment at the end of the first text
is the exception, because it would belong to the entry behind it.
-/

namespace Phrasebook

/-! ## Moving annotations -/

def Position.moveDown (lines : Nat) (p : Position) : Position :=
  ⟨p.line + lines, p.column⟩

def Annotation.moveDown (lines : Nat) (a : Annotation) : Annotation :=
  { a with position := a.position.moveDown lines }

/-- An entry some lines further down. Only junk says where it was found. -/
def Entry.moveDown (lines : Nat) : Entry → Entry
  | .junk j => .junk { j with annotations := j.annotations.map ( Annotation.moveDown lines) }
  | e => e

theorem Position.foldl_advance_moveDown (lines : Nat) (p : Position) (u : List Char) :
    u.foldl advance (p.moveDown lines) = (u.foldl advance p).moveDown lines := by
  induction u generalizing p with
  | nil => rfl
  | cons c cs ih =>
    have hstep : (p.moveDown lines).advance c = (p.advance c).moveDown lines := by
      simp only [advance, moveDown]
      split <;> simp [Nat.add_right_comm]
    rw [List.foldl_cons, hstep, ih, List.foldl_cons]

theorem Position.line_foldl_advance (u : List Char) (p : Position) :
    (u.foldl advance p).line = p.line + u.count '\n' := by
  induction u generalizing p with
  | nil => simp
  | cons c cs ih =>
    rw [List.foldl_cons, ih]
    by_cases hc : c = '\n'
    · simp only [advance, hc, ↓reduceIte, List.count_cons_self]
      omega
    · simp [advance, hc]

/-- A text that ends with a line feed leaves the next one in its first column. -/
theorem Position.after_closed {u : List Char} (hu : Source.Closed u) :
    after u = start.moveDown (u.count '\n') := by
  obtain rfl | hu := hu
  · rfl
  · obtain ⟨v, rfl⟩ := List.getLast?_eq_some_iff.mp hu
    rw [after_append]
    simp [advance, moveDown, start, after, line_foldl_advance, Nat.add_assoc]

theorem Position.ofRest_append_left {u source rest : List Char} (hu : Source.Closed u)
    (h : rest <:+ source) :
    ofRest (u ++ source) rest = (ofRest source rest).moveDown (u.count '\n') := by
  obtain ⟨v, rfl⟩ := h
  rw [← List.append_assoc, ofRest_append, ofRest_append, after_append, after_closed hu,
    foldl_advance_moveDown]
  rfl

namespace Source

open Alphabet Phrasebook.Source.Parser

/-! ## Entries in front of another entry -/

/-- The text goes on, and if it goes on like a term or a message then with an entry that
can be read. A comment in front of such a text stands alone for good. -/
def Continues (s : List Char) : Prop :=
  ∃ x xs, s = x :: xs ∧ (x = '-' ∨ isNameStart x = true → ∃ e r, entry s = .done e r)

section Entries

variable {next : List Char} (hn : Opens next)
include hn

theorem commentLines_next {level : CommentLevel} {s r : List Char} {lines : List String}
    (hs : Ended s) (h : (commentLine level).many s = .done lines r) (hr : r ≠ []) :
    (commentLine level).many (s ++ next) = .done lines (r ++ next) := by
  have hstable := stable_commentLine hn level
  fun_induction Parser.many (commentLine level) s generalizing lines with
  | case1 => cases h
  | case2 s e hf he =>
    cases h
    exact many_of_refuses (hstable.refuses _ hs ⟨e, hf, by simpa using he⟩)
  | case3 s line r' hd hlt lines' r'' hm ih =>
    cases h
    obtain ⟨hd, hr'⟩ := hstable.keeps s line r' hs hd
    have hended := hr'.ended ((advances_commentLine level).many.of_done hm) hr
    exact many_of_done hd (by simpa using hlt) (ih hended hm)
  | case4 => cases h
  | case5 s line r' hd hlt => exact absurd (readsLines_commentLine level s line r' hd).1 hlt

theorem comment_next {level : CommentLevel} {s r : List Char} {c : Comment} (hs : Ended s)
    (h : comment level s = .done c r) (hr : r ≠ []) :
    comment level (s ++ next) = .done c (r ++ next) := by
  obtain ⟨lines, r', h, hret⟩ := bind_eq_done.mp h
  cases hret
  obtain ⟨line, r₁, lines', hline, hmany, rfl⟩ := many1_eq_done.mp h
  obtain ⟨hline, hr₁⟩ := (stable_commentLine hn level).keeps s line r₁ hs hline
  have hended := hr₁.ended ((advances_commentLine level).many.of_done hmany) hr
  have hmany := commentLines_next hn hended hmany hr
  rw [comment, bind_of_done (many1_of_done hline hmany)]
  rfl

theorem refuses_comment_next {level : CommentLevel} {s : List Char} (hs : Ended s)
    (h : (comment level).Refuses s) : (comment level).Refuses (s ++ next) := by
  obtain h | ⟨lines, r, -, h⟩ := refuses_bind_cases h
  · obtain h | ⟨line, r, -, h⟩ := refuses_bind_cases h
    · exact ((stable_commentLine hn level).refuses s hs h).bind.bind
    · obtain h | ⟨lines, r', -, h⟩ := refuses_bind_cases h
      · exact absurd h not_refuses_many
      · obtain ⟨e, h, -⟩ := h
        cases h
  · obtain ⟨e, h, -⟩ := h
    cases h

omit hn in
/-- What starts like a message or a term and can be read at all is one. -/
theorem term_or_message_of_entry {x : Char} {s r : List Char} {e : Entry}
    (hx : x = '-' ∨ isNameStart x = true) (h : entry (x :: s) = .done e r) :
    ¬ (term.Fails (x :: s) ∧ message.Fails (x :: s)) := by
  have hmark : (x :: s).head? ≠ some '#' := by
    rintro ⟨⟩
    exact absurd hx (by decide)
  rw [entry_of_head hmark, or_eq_done] at h
  rintro ⟨⟨e₁, ht⟩, ⟨e₂, hm⟩⟩
  simp [map_apply, ht, hm, Outcome.map] at h

theorem commented_next {s r : List Char} {e : Entry} (hs : Ended s)
    (h : commented s = .done e r) (halone : ∀ c, e = .comment c → Continues r) :
    commented (s ++ next) = .done e (r ++ next) := by
  obtain ⟨c, rest, hc, hcases⟩ := commented_cases h
  have hrest : Closed rest := hs.closed.of_suffix ((advances_comment .entry).of_done hc)
  obtain ⟨t, ht, rfl⟩ | ⟨m, -, hm, rfl⟩ | ⟨ht, hm, rfl, rfl⟩ := hcases
  · have hne : rest ≠ [] := by rintro rfl; cases ht
    exact commented_of_term (comment_next hn hs hc hne)
      ((stable_term hn).keeps rest t r (hrest.resolve_left hne) ht).1
  · cases rest with
    | nil => cases hm
    | cons x xs =>
      have hx : x ≠ '-' := by
        rintro rfl
        obtain ⟨e, he⟩ : message.Fails ('-' :: xs) :=
          (refuses_message_of_head (by simp [isNameStart, isLetter])).fails
        simp [he] at hm
      have hterm : term.Refuses ((x :: xs) ++ next) := refuses_term_of_head (by simpa using hx)
      exact commented_of_message (comment_next hn hs hc (by simp)) hterm.fails
        ((stable_message hn).keeps _ m r (hrest.resolve_left (by simp)) hm).1
  · obtain ⟨x, xs, rfl, hentry⟩ := halone c rfl
    have hx : ¬ (x = '-' ∨ isNameStart x = true) := by
      intro hx
      obtain ⟨e', r', he⟩ := hentry hx
      exact term_or_message_of_entry hx he ⟨ht, hm⟩
    obtain ⟨hx, hx'⟩ := not_or.mp hx
    have hmessage : message.Refuses ((x :: xs) ++ next) :=
      refuses_message_of_head (by simpa using hx')
    have hterm : term.Refuses ((x :: xs) ++ next) := refuses_term_of_head (by simpa using hx)
    exact commented_of_alone (comment_next hn hs hc (by simp)) hterm.fails hmessage.fails

theorem entry_next {s r : List Char} {e : Entry} (hs : Ended s) (h : entry s = .done e r)
    (halone : ∀ c, e = .comment c → Continues r) : entry (s ++ next) = .done e (r ++ next) := by
  have hne : ∀ c, e = .comment c → r ≠ [] := by
    rintro c rfl rfl
    obtain ⟨x, xs, h, -⟩ := halone c rfl
    cases h
  -- The alternatives are tried in turn; those before the one that reads the entry refuse.
  simp only [entry, or_eq_done] at h
  obtain h | ⟨e₁, h₁, ho₁, h⟩ := h
  · obtain ⟨c, hc, rfl⟩ := map_eq_done.mp h
    exact or_of_done (map_of_done _ (comment_next hn hs hc (hne c rfl)))
  have hresource := refuses_comment_next hn hs (refuses_map.mp ⟨e₁, h₁, ho₁⟩)
  rw [entry, or_of_refuses (refuses_map.mpr hresource)]
  obtain h | ⟨e₂, h₂, ho₂, h⟩ := h
  · obtain ⟨c, hc, rfl⟩ := map_eq_done.mp h
    exact or_of_done (map_of_done _ (comment_next hn hs hc (hne c rfl)))
  have hgroup := refuses_comment_next hn hs (refuses_map.mp ⟨e₂, h₂, ho₂⟩)
  rw [or_of_refuses (refuses_map.mpr hgroup)]
  obtain h | ⟨e₃, h₃, ho₃, h⟩ := h
  · exact or_of_done (commented_next hn hs h halone)
  have hentry := refuses_comment_next hn hs (refuses_commented.mp ⟨e₃, h₃, ho₃⟩)
  rw [or_of_refuses (refuses_commented.mpr hentry)]
  exact ((((stable_term hn).map Entry.term).or ((stable_message hn).map Entry.message)).keeps
    s e r hs (or_eq_done.mpr h)).1

theorem skipBlankLines_next {s : List Char} (hs : Closed s) :
    skipBlankLines (s ++ next) = skipBlankLines s ++ next := by
  have hrest : Closed (blankLines s).2 := hs.of_suffix ⟨_, blankLines_append s⟩
  have hnext : next.all isBlank = false := by
    obtain ⟨c, cs, rfl, hc⟩ := hn
    have hblank : isBlank c = false := by
      simpa [isBlank] using ne_of_isEntryOpening hc (by decide : isEntryOpening ' ' = false)
    simp [hblank]
  simp only [skipBlankLines, ((shelters_closed hn).blankLines hs).1, List.all_append, hnext,
    Bool.and_false, Bool.false_eq_true, ↓reduceIte]
  split
  · next hall =>
    obtain hnil | hended := hrest
    · simp [hnil]
    · exact absurd (List.all_eq_true.mp hall _ (List.mem_of_getLast? hended)) (by decide)
  · rfl

/-! ## The reading of both texts -/

omit hn in
/-- When the strict reading gets to the end, a comment on the way is followed by something
that can be read. -/
theorem continues_of_entries {source r : List Char} {es : List Entry} (hr : r ≠ [])
    (h : entries .strict source (skipBlankLines r) = .ok es) : Continues r := by
  cases r with
  | nil => exact absurd rfl hr
  | cons x xs =>
    refine ⟨x, xs, rfl, fun hx => ?_⟩
    have hskip : skipBlankLines (x :: xs) = x :: xs := by
      refine skipBlankLines_cons_of_ne ?_ ?_ ?_ <;>
      · rintro rfl
        exact absurd hx (by decide)
    rw [hskip, entries, dif_neg hr] at h
    cases he : entry (x :: xs) with
    | done e r' => exact ⟨e, r', rfl⟩
    | failed e => simp [he] at h

/-- A strict reading that succeeds becomes the front of a lenient one. -/
theorem entries_next (source source' : List Char) {s : List Char} {es : List Entry}
    (hs : Closed s) (h : entries .strict source s = .ok es)
    (hlast : ∀ c, es.getLast? ≠ some (.comment c)) :
    entries .lenient source' (s ++ next) = (entries .lenient source' next).map (es ++ ·) := by
  induction hlen : s.length using Nat.strongRecOn generalizing s es with
  | ind n ih =>
    subst hlen
    obtain rfl | hended := hs
    · rw [entries, dif_pos rfl] at h
      cases h
      cases hlen : entries .lenient source' next <;> simp [hlen, Except.map]
    have hne : s ≠ [] := hended.ne_nil
    rw [entries, dif_neg hne] at h
    cases he : entry s with
    | failed e => simp [he] at h
    | done e r =>
      obtain ⟨hlt, hwhole⟩ := readsLines_entry s e r he
      have hr : Closed r := hended.closed.of_suffix hwhole.suffix
      simp only [he, hlt, ↓reduceIte] at h
      obtain ⟨es', hes, rfl⟩ := map_eq_ok.mp h
      have halone : ∀ c, e = .comment c → Continues r := by
        rintro c rfl
        refine continues_of_entries ?_ hes
        rintro rfl
        have hnil : es' = [] := by
          simpa [skipBlankLines_nil, entries] using hes.symm
        exact hlast c (by simp [hnil])
      have hlast' : ∀ c, es'.getLast? ≠ some (.comment c) := by
        intro c hc
        exact hlast c (by simp [List.getLast?_cons, hc])
      have hle := skipBlankLines_length r
      have hclosed := hr.of_suffix (skipBlankLines_spec r).1.suffix
      have hrest := ih _ (by omega) hclosed hes hlast' rfl
      rw [entries, dif_neg (by simp [hne]), entry_next hn hended he halone]
      simp only [List.length_append, Nat.add_lt_add_iff_right, hlt, ↓reduceIte,
        skipBlankLines_next hn hr, hrest]
      cases entries .lenient source' next <;> rfl

end Entries

/-- Text in front of a source moves the places of its failures, and nothing else. -/
theorem entries_moveDown {front source s : List Char} (hfront : Closed front)
    (hs : s <:+ source) :
    entries .lenient (front ++ source) s =
      (entries .lenient source s).map (List.map (Entry.moveDown (front.count '\n'))) := by
  induction hlen : s.length using Nat.strongRecOn generalizing s with
  | ind n ih =>
    subst hlen
    have hstep : ∀ {r : List Char}, r <:+ s → r.length < s.length →
        entries .lenient (front ++ source) (skipBlankLines r) =
          (entries .lenient source (skipBlankLines r)).map
            (List.map (Entry.moveDown (front.count '\n'))) := by
      intro r hr hlt
      have hle := skipBlankLines_length r
      exact ih _ (by omega) (((skipBlankLines_spec r).1.suffix.trans hr).trans hs) rfl
    by_cases hne : s = []
    · simp [hne, entries, Except.map]
    rw [entries, dif_neg hne, entries, dif_neg hne]
    cases he : entry s with
    | done e r =>
      obtain ⟨hlt, hwhole⟩ := readsLines_entry s e r he
      have hmove : e.moveDown (front.count '\n') = e := by
        cases e with
        | junk j => exact absurd rfl (entry_ne_junk he j)
        | _ => rfl
      simp only [hlt, ↓reduceIte, hstep hwhole.suffix hlt]
      cases entries .lenient source (skipBlankLines r) <;> simp [Except.map, hmove]
    | failed e =>
      have hrest : e.rest <:+ source := (advances_entry.of_failed he).trans hs
      simp only [hstep (wholeLines_junk s).suffix (junk_length hne)]
      cases entries .lenient source (skipBlankLines (junk s).2) <;>
        simp [Except.map, Entry.moveDown, Annotation.moveDown, annotation,
          Position.ofRest_append_left hfront hrest]

theorem dropByteOrderMark_append {front back : List Char} (hfront : Closed front)
    (hback : Opens back) :
    dropByteOrderMark (front ++ back) = dropByteOrderMark front ++ back ∧
      Closed (dropByteOrderMark front) ∧
      (dropByteOrderMark front).count '\n' = front.count '\n' := by
  cases front with
  | nil =>
    obtain ⟨c, cs, rfl, hc⟩ := hback
    have hmark : c ≠ '\uFEFF' := ne_of_isEntryOpening hc (by decide)
    refine ⟨?_, .inl rfl, rfl⟩
    simp [dropByteOrderMark, hmark]
  | cons c cs =>
    by_cases hmark : c = '\uFEFF'
    · subst hmark
      exact ⟨rfl, (hfront.of_cons (by decide)).closed, by simp [dropByteOrderMark]⟩
    · have hdrop : ∀ t, dropByteOrderMark (c :: t) = c :: t := by
        intro t
        simp [dropByteOrderMark, hmark]
      rw [List.cons_append, hdrop, hdrop]
      exact ⟨rfl, hfront, rfl⟩

end Source

open Source in
/-- Reading a text behind a well-formed one that is closed by a line feed and not by a
comment: its entries follow those in front of it, further down. -/
theorem Resource.parse_append {front back : String} {r : Resource}
    (hread : Resource.parse .strict front = .ok r) (hclosed : Closed front.toList)
    (hlast : ∀ c, r.body.getLast? ≠ some (.comment c)) (hopens : Opens back.toList) :
    ∃ r', Resource.parse .lenient back = .ok r' ∧
      Resource.parse .lenient (front ++ back) =
        .ok ⟨r.body ++ r'.body.map (Entry.moveDown (front.toList.count '\n'))⟩ := by
  obtain ⟨hdrop, hclosed', hcount⟩ := dropByteOrderMark_append hclosed hopens
  have hback : dropByteOrderMark back.toList = back.toList :=
    (dropByteOrderMark_append (.inl rfl) hopens).1
  have hskip : skipBlankLines back.toList = back.toList := by
    simpa [skipBlankLines_nil] using skipBlankLines_next hopens (.inl rfl)
  -- Both readings, as lists of entries.
  obtain ⟨es, hes, -⟩ := entries_divided back.toList back.toList (.refl _)
  rw [hskip] at hes
  have hfront := parse_eq_ok.mp hread
  refine ⟨⟨es⟩, parse_eq_ok.mpr (by rw [hback, hskip, hes]), parse_eq_ok.mpr ?_⟩
  have hclosed'' := hclosed'.of_suffix (skipBlankLines_spec _).1.suffix
  rw [String.toList_append, hdrop, skipBlankLines_next hopens hclosed',
    entries_next hopens _ _ hclosed'' hfront hlast,
    entries_moveDown hclosed' List.suffix_rfl, hes, hcount]
  rfl

/-- A selection and an attribute in front of a malformed entry. -/
theorem Resource.parse_append_selection :
    ∃ r r', Resource.parse .strict "a =\n  \x7b $x ->\n *[o] v\n\x7d\n .b = y\n" = .ok r ∧
      Resource.parse .lenient "-> c\nd = y\n" = .ok r' ∧
      Resource.parse .lenient ("a =\n  \x7b $x ->\n *[o] v\n\x7d\n .b = y\n" ++ "-> c\nd = y\n") =
        .ok ⟨r.body ++ r'.body.map (Entry.moveDown 5)⟩ := by
  have hread : Resource.parse .strict "a =\n  \x7b $x ->\n *[o] v\n\x7d\n .b = y\n" =
      .ok ⟨[.message ⟨"a",
        some [.placeable (.select (.argument "x") [⟨.name "o", [.text "v"]⟩] 0)],
        [⟨"b", [.text "y"]⟩], none⟩]⟩ := by
    cbv
  have hopens : Source.Opens "-> c\nd = y\n".toList := ⟨'-', _, rfl, by decide⟩
  obtain ⟨r', hback, happend⟩ := Resource.parse_append hread (.inr (by rfl)) (by simp) hopens
  exact ⟨_, r', hread, hback, happend⟩

end Phrasebook
