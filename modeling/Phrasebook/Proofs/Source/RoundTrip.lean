import Phrasebook.Proofs.Keyed
import Phrasebook.Proofs.Source.Reading
import Phrasebook.Proofs.Source.Segments
import Phrasebook.Proofs.Source.Soundness

/-!
# Written resources are read back

A plain resource is written with a blank line behind every entry. Reading the text gives
the resource back, entry by entry: the blank line closes the last pattern of an entry and
keeps a comment from the entry behind it. Placeables may be nested as deep as reading
allows, which is less than the same number of selections with a placeable inside.
-/

namespace Phrasebook

namespace Source

open Alphabet Phrasebook.Source.Parser

/-- A pattern that can be written and read back. -/
def Writable (p : Pattern) : Prop :=
  p.Valid Pattern.Plain ∧ p.placeableDepth ≤ maxNesting

/-- A line of a comment that can be written and read back. -/
def WritableLine (line : String) : Prop :=
  '\n' ∉ line.toList ∧ line.toList.getLast? ≠ some '\r'

/-! ## Behind an entry -/

/-- The end of the text or the first line of an entry. -/
def Fresh (s : List Char) : Prop :=
  ∀ c, s.head? = some c → c = '#' ∨ c = '-' ∨ isNameStart c = true

theorem Fresh.head_ne {s : List Char} (h : Fresh s) {d : Char} (hmark : d ≠ '#' ∧ d ≠ '-')
    (hname : isNameStart d = false) : s.head? ≠ some d := by
  intro hd
  obtain rfl | rfl | hstart := h d hd
  · exact hmark.1 rfl
  · exact hmark.2 rfl
  · simp [hstart] at hname

theorem Fresh.solid {s : List Char} (h : Fresh s) : Solid s := by
  intro c hc
  refine ⟨?_, ?_, ?_⟩ <;>
  · rintro rfl
    exact h.head_ne (by decide) (by decide) hc

theorem Fresh.closing {next : List Char} (h : Fresh next) : Closing ('\n' :: '\n' :: next) :=
  ⟨['\n', '\n'], [], next, rfl, by simp, by simp, by simp, h.solid,
    h.head_ne (by decide) (by decide), .inl rfl⟩

theorem Solid.skipBlankLines {s : List Char} (h : Solid s) : skipBlankLines s = s := by
  cases s with
  | nil => exact skipBlankLines_nil
  | cons c cs =>
    obtain ⟨hs, hf, hr⟩ := h c rfl
    exact skipBlankLines_cons_of_ne hs hf hr

theorem Solid.skipBlankLines_lineFeed {s : List Char} (h : Solid s) :
    Source.skipBlankLines ('\n' :: s) = s := by
  have hskip := h.skipBlankLines
  simp only [Source.skipBlankLines, blankLines_lineFeed] at hskip ⊢
  exact hskip

/-! ## Attributes -/

theorem writeAttribute_append (a : Attribute) (rest : List Char) :
    writeAttribute a ++ rest = '\n' :: ' ' :: ' ' :: ' ' :: ' ' :: '.' ::
      (a.id.toList ++ ' ' :: '=' :: ' ' :: (writeElements a.value ++ rest)) := by
  have hdot : "\n    .".toList = ['\n', ' ', ' ', ' ', ' ', '.'] := rfl
  have hequals : " = ".toList = [' ', '=', ' '] := rfl
  unfold writeAttribute
  rw [hdot, hequals]
  simp

theorem attributeLine_append {a : Attribute} {rest : List Char} (hid : IsName a.id)
    (hvalue : Writable a.value) (hrest : Closing rest) :
    attributeLine (writeAttribute a ++ rest) = .done a rest := by
  have hindent : ∀ s, blank (' ' :: ' ' :: ' ' :: ' ' :: '.' :: s) = .done () ('.' :: s) := by
    intro s
    simp [blank, skipBlank]
  rw [writeAttribute_append, attributeLine, bind_of_done (lineEnd_lineFeed _),
    bind_of_done (hindent _), bind_of_done char_of_head]
  refine label_eq_done.mpr (commit_eq_done.mpr ?_)
  rw [bind_of_done (identifier_append hid (stops_cons (by decide))),
    bind_of_done (spaces_cons (by simp)), bind_of_done char_of_head,
    bind_of_done (spaces_cons (head_writeElements hvalue.1.1 _)),
    bind_of_done (pattern_append hvalue.1 hvalue.2 hrest), pure_apply]

/-- Attributes with different ids are kept as they are. -/
theorem merge_of_valid {P : Pattern → Prop} {attributes : List Attribute}
    (h : AttributesValid P attributes) : Attribute.merge attributes = attributes :=
  Keyed.putAll_of_nodup h.distinct

/-! ## Comments -/

theorem dropCarriageReturn_of_ne {line : List Char} (h : line.getLast? ≠ some '\r') :
    dropCarriageReturn line = line := if_neg h

theorem commentLine_append {line : String} (h : WritableLine line) (level : CommentLevel)
    (rest : List Char) :
    commentLine level (level.marker.toList ++ ' ' :: (line.toList ++ '\n' :: rest)) =
      .done line rest := by
  have hmarker : ∀ s, literal level.marker.toList (level.marker.toList ++ s) = .done () s :=
    fun _ => literal_eq_done.mpr rfl
  have hchars : ∀ c ∈ line.toList, (c != '\n') = true := by
    intro c hc
    simp only [bne_iff_ne]
    rintro rfl
    exact h.1 hc
  have hcontent : (do char ' '; takeWhile (· != '\n') : Parser (List Char))
      (' ' :: (line.toList ++ '\n' :: rest)) = .done line.toList ('\n' :: rest) :=
    (bind_of_done char_of_head).trans (takeWhile_append hchars (stops_cons (by decide)))
  have hend : lineEndOrEnd ('\n' :: rest) = .done () rest := or_of_done rfl
  rw [commentLine, bind_of_done (hmarker _), bind_of_done (optional_of_done hcontent),
    bind_of_done hend, pure_apply, Option.getD_some, dropCarriageReturn_of_ne h.2,
    String.ofList_toList]

theorem many_commentLine {lines : List String} (h : ∀ line ∈ lines, WritableLine line)
    (level : CommentLevel) {rest : List Char} (hrest : rest.head? ≠ some '#') :
    (commentLine level).many ((lines.flatMap fun line =>
      level.marker.toList ++ ' ' :: line.toList ++ ['\n']) ++ rest) = .done lines rest := by
  refine many_flatMap (by simp) (fun line hline others => ?_) (refuses_commentLine_of_head hrest)
  simpa using commentLine_append (h line hline) level _

theorem comment_append {c : Comment} (h : c.Valid WritableLine) {rest : List Char}
    (hrest : rest.head? ≠ some '#') : comment c.level (writeComment c ++ rest) = .done c rest := by
  obtain ⟨level, lines⟩ := c
  cases lines with
  | nil => exact absurd rfl h.ne_nil
  | cons line lines =>
    obtain ⟨hline, hlines⟩ := List.forall_mem_cons.mp h.lines
    have hmany := many_commentLine hlines level hrest
    simp only [writeComment, List.flatMap_cons, List.append_assoc, List.cons_append,
      List.nil_append] at hmany ⊢
    rw [comment, bind_of_done (many1_of_done (commentLine_append hline level _) hmany), pure_apply]

/-- A comment is not taken for one of a level with a longer mark. -/
theorem refuses_comment_of_level {c : Comment} (h : c.lines ≠ []) {level : CommentLevel}
    (hlevel : ∀ s, ¬ level.marker.toList <+: c.level.marker.toList ++ ' ' :: s)
    (rest : List Char) : (comment level).Refuses (writeComment c ++ rest) := by
  obtain ⟨own, lines⟩ := c
  cases lines with
  | nil => exact absurd rfl h
  | cons line lines =>
    refine Refuses.bind (Refuses.bind (Refuses.bind (refuses_literal.mpr ?_)))
    simp only [writeComment, List.flatMap_cons, List.append_assoc]
    exact hlevel _

/-- A comment in front of an entry is looked at after those of higher levels. -/
theorem entry_of_attached {c : Comment} (hlevel : c.level = .entry) (h : c.lines ≠ [])
    {rest after : List Char} {e : Entry}
    (hread : commented (writeComment c ++ rest) = .done e after) :
    entry (writeComment c ++ rest) = .done e after := by
  have hresource : (comment .resource).Refuses (writeComment c ++ rest) :=
    refuses_comment_of_level h (by simp [hlevel, CommentLevel.marker, List.cons_prefix_cons]) rest
  have hgroup : (comment .group).Refuses (writeComment c ++ rest) :=
    refuses_comment_of_level h (by simp [hlevel, CommentLevel.marker, List.cons_prefix_cons]) rest
  rw [entry, or_of_refuses (refuses_map.mpr hresource), or_of_refuses (refuses_map.mpr hgroup)]
  exact or_of_done hread

/-- The blank line behind a comment keeps it alone. -/
theorem entry_comment {c : Comment} (h : c.Valid WritableLine) (next : List Char) :
    entry (writeComment c ++ '\n' :: next) = .done (.comment c) ('\n' :: next) := by
  have hread : comment c.level (writeComment c ++ '\n' :: next) = .done c ('\n' :: next) :=
    comment_append h (by simp)
  cases hlevel : c.level with
  | resource =>
    rw [hlevel] at hread
    exact or_of_done (map_of_done _ hread)
  | group =>
    have hresource : (comment .resource).Refuses (writeComment c ++ '\n' :: next) :=
      refuses_comment_of_level h.ne_nil
        (by simp [hlevel, CommentLevel.marker, List.cons_prefix_cons]) _
    rw [hlevel] at hread
    rw [entry, or_of_refuses (refuses_map.mpr hresource)]
    exact or_of_done (map_of_done _ hread)
  | entry =>
    rw [hlevel] at hread
    exact entry_of_attached hlevel h.ne_nil (commented_of_alone hread
      (refuses_term_of_head (by simp)).fails
      (refuses_message_of_head (stops_cons (by decide))).fails)

/-! ## Messages and terms -/

theorem refuses_pattern_of_closing {s : List Char} (h : Closing s) : pattern.Refuses s :=
  (refuses_patternPart_of_closing (fun _ => refuses_placeable maxNesting) h).bind.bind

/-- The value of a message is read up to what closes it, and if there is none then nothing. -/
theorem value_append {value : Option Pattern} {rest : List Char}
    (hvalue : ∀ p, value = some p → Writable p) (hrest : Closing rest) :
    ∃ s, spaces (writeValue value ++ rest) = .done () s ∧
      pattern.optional s = .done value rest := by
  cases value with
  | none =>
    obtain ⟨s', rfl⟩ := hrest.head
    exact ⟨_, spaces_of_head (by simp [writeValue]),
      optional_of_refuses (refuses_pattern_of_closing hrest)⟩
  | some p =>
    obtain ⟨hplain, hdepth⟩ := hvalue p rfl
    exact ⟨_, spaces_cons (head_writeElements hplain.1 rest),
      optional_of_done (pattern_append hplain hdepth hrest)⟩

theorem entryEnd_lineFeed (s : List Char) : entryEnd ('\n' :: s) = .done () s :=
  expecting_eq_done.mpr (or_of_done rfl)

theorem writeMessage_append (m : Message) (rest : List Char) :
    writeMessage m ++ rest = writeAttached m.comment ++ (m.id.toList ++ ' ' :: '=' ::
      (writeValue m.value ++ (m.attributes.flatMap writeAttribute ++ '\n' :: rest))) := by
  have hequals : " =".toList = [' ', '='] := rfl
  unfold writeMessage
  rw [hequals]
  simp

theorem writeTerm_append (t : Term) (rest : List Char) :
    writeTerm t ++ rest = writeAttached t.comment ++ '-' :: (t.id.toList ++ ' ' :: '=' :: ' ' ::
      (writeElements t.value ++ (t.attributes.flatMap writeAttribute ++ '\n' :: rest))) := by
  have hequals : " =".toList = [' ', '='] := rfl
  unfold writeTerm
  rw [hequals]
  simp [writeValue]

section Behind

variable {next : List Char} (hnext : Fresh next)
include hnext

/-- Attributes close the pattern in front of them, and so does the end of their entry. -/
theorem closing_of_attributes (attributes : List Attribute) :
    Closing (attributes.flatMap writeAttribute ++ '\n' :: '\n' :: next) := by
  cases attributes with
  | nil => exact hnext.closing
  | cons a attributes =>
    rw [List.flatMap_cons, List.append_assoc, writeAttribute_append]
    exact ⟨['\n'], [' ', ' ', ' ', ' '], '.' :: _, rfl, by simp, by simp, by simp [isBlank],
      solid_cons (by decide), by simp, .inr (stops_cons (by decide))⟩

theorem many_attributeLine {attributes : List Attribute} (h : AttributesValid Writable attributes) :
    attributeLine.many (attributes.flatMap writeAttribute ++ '\n' :: '\n' :: next) =
      .done attributes ('\n' :: '\n' :: next) := by
  refine many_flatMap (fun a => ?_) (fun a ha others => ?_) ?_
  · have htext := writeAttribute_append a []
    rw [List.append_nil] at htext
    simp [htext]
  · exact attributeLine_append (h.name a ha) (h.value a ha) (closing_of_attributes hnext others)
  · have hdot : next.head? ≠ some '.' := hnext.head_ne (by decide) (by decide)
    exact refuses_bind_of_done (lineEnd_lineFeed _) <|
      refuses_bind_of_done hnext.solid.blank_lineFeed (refuses_char.mpr hdot).bind

theorem message_append {m : Message} (h : m.Valid Writable WritableLine) :
    message (m.id.toList ++ ' ' :: '=' :: (writeValue m.value ++
      (m.attributes.flatMap writeAttribute ++ '\n' :: '\n' :: next))) =
        .done { m with comment := none } ('\n' :: next) := by
  obtain ⟨s, hspaces, hvalue⟩ := value_append h.value (closing_of_attributes hnext m.attributes)
  have hcontent : ¬ (m.value.isNone && m.attributes.isEmpty) = true := by
    simpa [Classical.or_iff_not_imp_left] using h.content
  rw [message, bind_of_done (identifier_append h.name (stops_cons (by decide))),
    bind_of_done (spaces_cons (by simp)), bind_of_done char_of_head, bind_of_done hspaces,
    bind_of_done hvalue, bind_of_done (many_attributeLine hnext h.attributes), if_neg hcontent,
    bind_of_done (entryEnd_lineFeed _), pure_apply, Message.make, merge_of_valid h.attributes]

theorem term_append {t : Term} (h : t.Valid Writable WritableLine) :
    term ('-' :: (t.id.toList ++ ' ' :: '=' :: ' ' :: (writeElements t.value ++
      (t.attributes.flatMap writeAttribute ++ '\n' :: '\n' :: next)))) =
        .done { t with comment := none } ('\n' :: next) := by
  have hvalue := pattern_append h.value.1 h.value.2 (closing_of_attributes hnext t.attributes)
  rw [term, bind_of_done char_of_head,
    bind_of_done (identifier_append h.name (stops_cons (by decide))),
    bind_of_done (spaces_cons (by simp)), bind_of_done char_of_head,
    bind_of_done (spaces_cons (head_writeElements h.value.1.1 _)),
    bind_of_done (expecting_eq_done.mpr (label_eq_done.mpr (commit_eq_done.mpr hvalue))),
    bind_of_done (many_attributeLine hnext h.attributes), bind_of_done (entryEnd_lineFeed _),
    pure_apply, Term.make, merge_of_valid h.attributes]

theorem entry_message {m : Message} (h : m.Valid Writable WritableLine) :
    entry (writeMessage m ++ '\n' :: next) = .done (.message m) ('\n' :: next) := by
  have hread := message_append hnext h
  obtain ⟨x, s, hs, hx⟩ := head_of_isName h.name (' ' :: '=' :: (writeValue m.value ++
    (m.attributes.flatMap writeAttribute ++ '\n' :: '\n' :: next)))
  have hterm : term.Refuses (x :: s) :=
    refuses_term_of_head (by simpa using ne_of_isNameStart hx (by decide))
  have hmark : (x :: s).head? ≠ some '#' := by simpa using ne_of_isNameStart hx (by decide)
  obtain ⟨id, value, attributes, attached⟩ := m
  rw [writeMessage_append, hs]
  rw [hs] at hread
  cases attached with
  | none =>
    rw [writeAttached, List.nil_append, entry_of_head hmark, or_of_refuses (refuses_map.mpr hterm)]
    exact map_of_done _ hread
  | some c =>
    obtain ⟨hlevel, hvalid⟩ := h.comment c rfl
    refine entry_of_attached hlevel hvalid.ne_nil (commented_of_message ?_ hterm.fails hread)
    rw [← hlevel]
    exact comment_append hvalid hmark

theorem entry_term {t : Term} (h : t.Valid Writable WritableLine) :
    entry (writeTerm t ++ '\n' :: next) = .done (.term t) ('\n' :: next) := by
  have hread := term_append hnext h
  obtain ⟨id, value, attributes, attached⟩ := t
  rw [writeTerm_append]
  cases attached with
  | none =>
    rw [writeAttached, List.nil_append, entry_of_head (by simp)]
    exact or_of_done (map_of_done _ hread)
  | some c =>
    obtain ⟨hlevel, hvalid⟩ := h.comment c rfl
    refine entry_of_attached hlevel hvalid.ne_nil (commented_of_term ?_ hread)
    rw [← hlevel]
    exact comment_append hvalid (by simp)

end Behind

/-! ## Whole resources -/

theorem fresh_of_isName {name : String} (h : IsName name) (rest : List Char) :
    Fresh (name.toList ++ rest) := by
  obtain ⟨c, s, hs, hc⟩ := head_of_isName h rest
  rw [hs]
  rintro _ ⟨⟩
  exact .inr (.inr hc)

theorem fresh_of_comment {c : Comment} (h : c.lines ≠ []) (rest : List Char) :
    Fresh (writeComment c ++ rest) := by
  obtain ⟨level, lines⟩ := c
  cases lines with
  | nil => exact absurd rfl h
  | cons line lines =>
    cases level <;> simp [Fresh, writeComment, CommentLevel.marker]

/-- An entry that can be written and read back. -/
def WritableEntry (e : Entry) : Prop :=
  (∀ j, e ≠ .junk j) ∧ e.Valid Writable WritableLine

theorem fresh_of_entry {e : Entry} (h : WritableEntry e) (rest : List Char) :
    Fresh (writeEntry e ++ rest) := by
  obtain ⟨hjunk, h⟩ := h
  cases e with
  | junk j => exact absurd rfl (hjunk j)
  | comment c => exact fresh_of_comment h.ne_nil rest
  | message m =>
    rw [writeEntry, writeMessage_append]
    cases hc : m.comment with
    | none => exact fresh_of_isName h.name _
    | some c => exact fresh_of_comment (h.comment c hc).2.ne_nil _
  | term t =>
    rw [writeEntry, writeTerm_append]
    cases hc : t.comment with
    | none =>
      rintro _ ⟨⟩
      exact .inr (.inl rfl)
    | some c => exact fresh_of_comment (h.comment c hc).2.ne_nil _

theorem entry_append {e : Entry} (h : WritableEntry e) {next : List Char} (hnext : Fresh next) :
    entry (writeEntry e ++ '\n' :: next) = .done e ('\n' :: next) := by
  obtain ⟨hjunk, h⟩ := h
  cases e with
  | junk j => exact absurd rfl (hjunk j)
  | comment c => exact entry_comment h next
  | message m => exact entry_message hnext h
  | term t => exact entry_term hnext h

def writeBody (body : List Entry) : List Char :=
  body.flatMap fun e => writeEntry e ++ ['\n']

theorem fresh_writeBody {body : List Entry} (h : ∀ e ∈ body, WritableEntry e) :
    Fresh (writeBody body) := by
  cases body with
  | nil => rintro _ ⟨⟩
  | cons e body =>
    rw [writeBody, List.flatMap_cons, List.append_assoc]
    exact fresh_of_entry (h e (.head _)) _

theorem entries_writeBody {body : List Entry} (h : ∀ e ∈ body, WritableEntry e) (mode : Mode)
    (source : List Char) : entries mode source (writeBody body) = .ok body := by
  induction body with
  | nil => simp [writeBody, entries]
  | cons e body ih =>
    obtain ⟨he, hbody⟩ := List.forall_mem_cons.mp h
    have hnext := fresh_writeBody hbody
    have htext : writeBody (e :: body) = writeEntry e ++ '\n' :: writeBody body := by
      simp [writeBody]
    have hne : writeEntry e ++ '\n' :: writeBody body ≠ [] := by simp
    have hread := entry_append he hnext
    have hlt := (readsLines_entry _ _ _ hread).1
    rw [htext, entries, dif_neg hne, hread]
    simp only [hlt, ↓reduceIte, hnext.solid.skipBlankLines_lineFeed, ih hbody]
    rfl

end Source

open Source

/-- Writing a plain resource and reading it gives it back. -/
theorem Resource.parse_write (mode : Mode) {r : Resource} (h : r.Plain Pattern.placeableDepth) :
    Resource.parse mode r.write = .ok r := by
  have hall : ∀ e ∈ r.body, WritableEntry e := h
  have hfresh := fresh_writeBody hall
  have htext : r.write.toList = writeBody r.body := String.toList_ofList
  have hmark : dropByteOrderMark (writeBody r.body) = writeBody r.body := by
    have hhead : (writeBody r.body).head? ≠ some '\uFEFF' :=
      hfresh.head_ne (by decide) (by decide)
    unfold dropByteOrderMark
    split
    · next heq => simp [heq] at hhead
    · rfl
  rw [parse_eq_ok, htext, hmark, hfresh.solid.skipBlankLines]
  exact entries_writeBody hall mode _

/-! ## Nested selections -/

/-- Selections inside each other, and a placeable in the innermost one. -/
def nested : Nat → Pattern
  | 0 => [.placeable (.inline (.argument "x"))]
  | n + 1 => [.placeable (.select (.argument "x") [⟨.name "a", nested n⟩] 0)]

def nestedMessage (n : Nat) : Resource :=
  ⟨[.message ⟨"m", some (nested n), [], none⟩]⟩

theorem plain_placeable (e : Expression) : Pattern.Plain [.placeable e] :=
  ⟨Pattern.merged_placeable_cons.mpr .nil, by simp, by simp, by simp, by simp⟩

theorem nested_valid (n : Nat) : (nested n).Valid Pattern.Plain := by
  have hx : IsName "x" := ⟨'x', [], rfl, by decide, by simp⟩
  have ha : IsName "a" := ⟨'a', [], rfl, by decide, by simp⟩
  induction n with
  | zero =>
    refine ⟨plain_placeable _, fun e he => ?_⟩
    obtain rfl : e = .inline (.argument "x") := by simpa [nested] using he
    exact .inline hx
  | succ n ih =>
    refine ⟨plain_placeable _, fun e he => ?_⟩
    obtain rfl : e = .select (.argument "x") [⟨.name "a", nested n⟩] 0 := by
      simpa [nested] using he
    refine .select hx (by simp) ?_ ?_ <;> simp only [List.mem_singleton] <;> rintro v rfl
    · exact ⟨ha, ih.1⟩
    · exact ih.2

theorem nested_depth (leaf n : Nat) : elementsDepth leaf (nested n) = leaf + n := by
  induction n with
  | zero => simp [nested, elementsDepth, Expression.depth]
  | succ n ih => simp [nested, elementsDepth, Expression.depth, variantsDepth, ih, Nat.add_assoc]

theorem nestedMessage_plain {depth : Pattern → Nat} {n : Nat} (h : depth (nested n) ≤ maxNesting) :
    (nestedMessage n).Plain depth := by
  intro e he
  obtain rfl : e = .message ⟨"m", some (nested n), [], none⟩ := by
    simpa [nestedMessage] using he
  have hm : IsName "m" := ⟨'m', [], rfl, by decide, by simp⟩
  refine ⟨by simp, hm, by simp, ?_, ⟨by simp, by simp, by simp⟩, ?_⟩
  · rintro p ⟨⟩
    exact ⟨nested_valid n, h⟩
  · rintro c ⟨⟩

/-- The innermost placeable is the last one that may stand there. -/
theorem Resource.parse_write_nestedMessage :
    (nestedMessage 31).Plain Pattern.placeableDepth ∧
      Resource.parse .strict (nestedMessage 31).write = .ok (nestedMessage 31) := by
  have hplain : (nestedMessage 31).Plain Pattern.placeableDepth := by
    refine nestedMessage_plain ?_
    rw [Pattern.placeableDepth, nested_depth]
    decide
  exact ⟨hplain, Resource.parse_write .strict hplain⟩

/-- With as many selections as there may be placeables, the placeable inside them is
nested too deep. -/
theorem Resource.parse_write_nested_too_deep :
    (nestedMessage 32).Plain Pattern.selectDepth ∧
      Resource.parse .strict (nestedMessage 32).write ≠ .ok (nestedMessage 32) := by
  constructor
  · refine nestedMessage_plain ?_
    rw [Pattern.selectDepth, nested_depth]
    decide
  · intro h
    have hvalid : Message.Valid Kept OneLine ⟨"m", some (nested 32), [], none⟩ :=
      entries_valid (parse_eq_ok.mp h) _ (.head _)
    have hdepth := (hvalid.value _ rfl).2
    rw [Pattern.placeableDepth, nested_depth] at hdepth
    exact absurd hdepth (by decide)

end Phrasebook
