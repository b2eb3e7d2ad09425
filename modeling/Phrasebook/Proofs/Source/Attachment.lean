import Phrasebook.Proofs.Source.Concatenation
import Phrasebook.Proofs.Source.RoundTrip

/-!
# Comments in front of an entry

Behind a comment the reading looks for a term and then for a message, and forgets whatever
failure it meets there. The next round meets it again. So a comment in front of a text
changes nothing in how the text is read: it is attached to the first entry, or it stands
alone in front of the junk that the text starts with.

## Main definitions

* `Comment.attach`: what becomes of some entries with a comment in front of them.
* `Source.Started`: a text that starts like a message or a term.
-/

namespace Phrasebook

/-- A comment belongs to the message or the term right behind it, and stands alone in front
of anything else. -/
def Comment.attach (c : Comment) : List Entry → List Entry
  | .message m :: es => .message { m with comment := some c } :: es
  | .term t :: es => .term { t with comment := some c } :: es
  | es => .comment c :: es

namespace Source

open Alphabet Phrasebook.Source.Parser

/-! ## Texts that start like an entry -/

/-- A text that starts like a message or a term. -/
def Started (s : List Char) : Prop :=
  ∃ x xs, s = x :: xs ∧ (isNameStart x = true ∨ x = '-')

theorem Started.head_ne {s : List Char} (h : Started s) {d : Char} (hd : isNameStart d = false)
    (hminus : d ≠ '-') : s.head? ≠ some d := by
  obtain ⟨x, xs, rfl, hx | rfl⟩ := h
  · simpa using ne_of_isNameStart hx hd
  · simpa using hminus.symm

theorem Started.solid {s : List Char} (h : Started s) : Solid s := by
  intro c hc
  refine ⟨?_, ?_, ?_⟩ <;>
  · rintro rfl
    exact h.head_ne (by decide) (by decide) hc

theorem Started.ne_nil {s : List Char} (h : Started s) : s ≠ [] := by
  obtain ⟨x, xs, rfl, -⟩ := h
  simp

/-- A text that starts like an entry is a term, or else a message, or else malformed. -/
theorem Started.entry_cases {s : List Char} (h : Started s) :
    (∃ t r, term s = .done t r ∧ entry s = .done (.term t) r) ∨
      (∃ m r, term.Fails s ∧ message s = .done m r ∧ entry s = .done (.message m) r) ∨
      (term.Fails s ∧ message.Fails s ∧ entry.Fails s) := by
  have hentry := entry_of_head (h.head_ne (by decide : isNameStart '#' = false) (by decide))
  obtain ⟨x, xs, rfl, hx | rfl⟩ := h
  · have hterm : term.Refuses (x :: xs) :=
      refuses_term_of_head (by simpa using ne_of_isNameStart hx (by decide))
    rw [or_of_refuses (refuses_map.mpr hterm), map_apply] at hentry
    cases hm : message (x :: xs) with
    | done m r =>
      rw [hm] at hentry
      exact .inr (.inl ⟨m, r, hterm.fails, rfl, hentry⟩)
    | failed e =>
      rw [hm] at hentry
      exact .inr (.inr ⟨hterm.fails, ⟨e, hm⟩, e, hentry⟩)
  · have hmessage : message.Refuses ('-' :: xs) :=
      refuses_message_of_head (stops_cons (by decide))
    cases ht : term ('-' :: xs) with
    | done t r => exact .inl ⟨t, r, rfl, hentry.trans (or_of_done (map_of_done _ ht))⟩
    | failed e =>
      refine .inr (.inr ⟨⟨e, ht⟩, hmessage.fails, ?_⟩)
      obtain ⟨e', hm, -⟩ := hmessage
      simp only [Fails, hentry, Parser.or, map_apply, ht, hm, Outcome.map]
      split <;> simp

/-- The first entry of such a text is a message, a term or junk. -/
theorem Started.entries_eq_cons {source s : List Char} (h : Started s)
    (hs : WholeLines source s) :
    ∃ first rest, (∀ c, first ≠ .comment c) ∧
      entries .lenient source s = .ok (first :: rest) := by
  have hrest {r : List Char} (hr : WholeLines s r) :
      ∃ es, entries .lenient source (skipBlankLines r) = .ok es :=
    (entries_divided source r (hs.trans hr)).imp fun _ h => h.1
  obtain ⟨t, r, -, he⟩ | ⟨m, r, -, -, he⟩ | ⟨-, -, e, he⟩ := h.entry_cases
  · obtain ⟨es, hes⟩ := hrest (readsLines_entry _ _ _ he).2
    exact ⟨.term t, es, by simp, by rw [entries_of_done .lenient source he, hes]; rfl⟩
  · obtain ⟨es, hes⟩ := hrest (readsLines_entry _ _ _ he).2
    exact ⟨.message m, es, by simp, by rw [entries_of_done .lenient source he, hes]; rfl⟩
  · obtain ⟨es, hes⟩ := hrest (wholeLines_junk s)
    exact ⟨.junk _, es, by simp, by rw [entries_of_failed source h.ne_nil he, hes]; rfl⟩

/-! ## Reading with a comment in front -/

section Front

variable {c : Comment} (hlevel : c.level = .entry) (hc : c.Valid WritableLine)
include hlevel hc

/-- Whatever is found behind a comment, the reading of the text itself finds the same. -/
theorem entries_comment (source : List Char) {s : List Char} (hs : Started s) :
    entries .lenient source (writeComment c ++ s) =
      (entries .lenient source s).map c.attach := by
  have hcomment : comment .entry (writeComment c ++ s) = .done c s :=
    hlevel ▸ comment_append hc (hs.head_ne (by decide) (by decide))
  have hread {e : Entry} {r : List Char} (h : commented (writeComment c ++ s) = .done e r) :=
    entries_of_done .lenient source (entry_of_attached hlevel hc.ne_nil h)
  obtain ⟨t, r, ht, he⟩ | ⟨m, r, ht, hm, he⟩ | ⟨ht, hm, e, he⟩ := hs.entry_cases
  · rw [hread (commented_of_term hcomment ht), entries_of_done .lenient source he]
    cases entries .lenient source (skipBlankLines r) <;> rfl
  · rw [hread (commented_of_message hcomment ht hm), entries_of_done .lenient source he]
    cases entries .lenient source (skipBlankLines r) <;> rfl
  · rw [hread (commented_of_alone hcomment ht hm), hs.solid.skipBlankLines,
      entries_of_failed source hs.ne_nil he]
    cases entries .lenient source (skipBlankLines (junk s).2) <;> rfl

end Front

/-- A comment takes one line for each line of its text. -/
theorem closed_writeComment {c : Comment} (hc : c.Valid WritableLine) :
    Closed (writeComment c) ∧ (writeComment c).count '\n' = c.lines.length := by
  obtain ⟨level, lines⟩ := c
  have hmarker : level.marker.toList.count '\n' = 0 := by
    cases level <;> decide
  have hline : ∀ line ∈ lines, line.toList.count '\n' = 0 := fun line hmem =>
    List.count_eq_zero.mpr (hc.lines line hmem).1
  constructor
  · obtain ⟨front, last, rfl⟩ := (List.eq_nil_or_concat lines).resolve_left hc.ne_nil
    exact .inr (by simp [writeComment, Ended, List.getLast?_cons])
  · clear hc
    induction lines with
    | nil => rfl
    | cons line lines ih =>
      obtain ⟨hfirst, hlines⟩ := List.forall_mem_cons.mp hline
      have hrest := ih hlines
      simp only [writeComment, List.flatMap_cons, List.count_append] at hrest ⊢
      simp only [hrest, hmarker, hfirst, List.count_cons, List.count_nil, List.length_cons]
      simp [Nat.add_comm]

end Source

open Source in
/-- A comment in front of a text that starts like a message or a term is attached to the first
entry, if that is one of them, and stands alone in front of junk; the annotations of the text
move down by the lines of the comment. -/
theorem Resource.parse_comment_append {lines : List String} (hne : lines ≠ [])
    (hlines : ∀ line ∈ lines, WritableLine line) {text : String} (hstart : Started text.toList) :
    ∃ first rest, (∀ c, first ≠ .comment c) ∧
      Resource.parse .lenient text = .ok ⟨first :: rest⟩ ∧
      Resource.parse .lenient (String.ofList (writeComment ⟨.entry, lines⟩) ++ text) =
        .ok ⟨Comment.attach ⟨.entry, lines⟩
          ((first :: rest).map (Entry.moveDown lines.length))⟩ := by
  have hc : Comment.Valid WritableLine ⟨.entry, lines⟩ := ⟨hne, hlines⟩
  have hfresh := fresh_of_comment (c := ⟨.entry, lines⟩) hne text.toList
  have htext := dropByteOrderMark_of_head (hstart.head_ne (by decide) (by decide))
  have hfront := dropByteOrderMark_of_head (hfresh.head_ne (by decide) (by decide))
  obtain ⟨hclosed, hcount⟩ := closed_writeComment hc
  obtain ⟨first, rest, hfirst, hread⟩ := hstart.entries_eq_cons (.refl text.toList)
  refine ⟨first, rest, hfirst, parse_eq_ok.mpr ?_, parse_eq_ok.mpr ?_⟩
  · rw [htext, hstart.solid.skipBlankLines, hread]
  · rw [String.toList_append, String.toList_ofList, hfront, hfresh.solid.skipBlankLines,
      entries_comment rfl hc _ hstart, entries_moveDown hclosed List.suffix_rfl, hread, hcount]
    rfl

/-- A comment in front of an unclosed placeable stands alone, and the junk behind it is found two
lines further down. -/
theorem Resource.parse_comment_append_unclosed :
    Source.Started "m = \x7b\nn = o\n- p\n".toList ∧
      Resource.parse .lenient
          (String.ofList (Source.writeComment ⟨.entry, ["one", "#"]⟩) ++
            "m = \x7b\nn = o\n- p\n") =
        .ok ⟨[.comment ⟨.entry, ["one", "#"]⟩,
          .junk ⟨"m = \x7b\n", [⟨"invalid placeable; expected `\x7d`", ⟨4, 3⟩⟩]⟩,
          .message ⟨"n", some [.text "o"], [], none⟩,
          .junk ⟨"- p\n", [⟨"expected a message, term or comment", ⟨5, 1⟩⟩]⟩]⟩ := by
  have hbody : Resource.parse .lenient "m = \x7b\nn = o\n- p\n" =
      .ok ⟨[.junk ⟨"m = \x7b\n", [⟨"invalid placeable; expected `\x7d`", ⟨2, 3⟩⟩]⟩,
        .message ⟨"n", some [.text "o"], [], none⟩,
        .junk ⟨"- p\n", [⟨"expected a message, term or comment", ⟨3, 1⟩⟩]⟩]⟩ := by
    cbv
  have hstart : Source.Started "m = \x7b\nn = o\n- p\n".toList := ⟨'m', _, rfl, .inl (by decide)⟩
  have hlines : ∀ line ∈ ["one", "#"], Source.WritableLine line := by
    simp [Source.WritableLine]
  obtain ⟨first, rest, -, hread, happend⟩ :=
    Resource.parse_comment_append (by simp) hlines hstart
  rw [hbody] at hread
  cases hread
  exact ⟨hstart, happend⟩

end Phrasebook
