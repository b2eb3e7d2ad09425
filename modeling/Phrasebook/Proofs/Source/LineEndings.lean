import Mathlib
import Phrasebook.Proofs.Source.Modes
import Phrasebook.Proofs.Source.PatternLines

/-!
# Line endings

A text whose lines end in carriage return and line feed is read like the text with plain
line feeds, except where a value is missing at the end of a line: the carriage return in
that place is taken for running text, and the layout makes an empty value of it. So a
message that has only attributes gets an empty value, and an entry that is junk because it
lacks a value is not junk any more. As long as no entry of the plain text lacks a value in
this way, the entries correspond one by one, and so do the answers of the strict reading.

## Main definitions

* `Annotation.WantsValue`: the complaint about a value that is missing at the end of a line.
* `Counterpart`: an entry of the plain text and the same entry of the other one.
-/

namespace Phrasebook

/-- A complaint in front of a line break about something whose value may be missing. -/
structure Annotation.WantsValue (source : List Char) (note : Annotation) : Prop where
  message : ∃ name ∈ Source.valueLabels, ("invalid " ++ name).toList <+: note.message.toList
  place : ∃ u v, source = u ++ '\n' :: v ∧ note.position = Position.after u

/-- The message with an empty value if it had none. -/
def Message.withValue (m : Message) : Message :=
  { m with value := some (m.value.getD []) }

namespace Source

open Alphabet Phrasebook.Source.Parser

/-- An entry of a plain text and the entry that the text with carriage returns has in its
place. A message without a value has an empty one there. -/
inductive Counterpart : Entry → Entry → Prop
  | message (m : Message) : Counterpart (.message m) (.message m.withValue)
  | term (t : Term) : Counterpart (.term t) (.term t)
  | comment (c : Comment) : Counterpart (.comment c) (.comment c)
  | junk {j j' : Junk} : j'.content.toList = withReturns j.content.toList →
      Counterpart (.junk j) (.junk j')

/-! ## Comments -/

theorem dropCarriageReturn_pending {line : List Char} (h : '\r' ∉ line) (ahead : Bool) :
    dropCarriageReturn (line ++ pending ahead) = dropCarriageReturn line := by
  have hlast : line.getLast? ≠ some '\r' := fun hlast => h (List.mem_of_getLast? hlast)
  cases ahead with
  | false => simp [pending]
  | true => simp [dropCarriageReturn, pending, hlast]

/-- The text of a comment line takes the carriage return with it. -/
theorem mirrors_commentText {s s' : List Char} (h : Returned s s') :
    Mirrors (fun u u' r r' => ∃ ahead, u' = u ++ pending ahead ∧ '\r' ∉ u ∧ Abreast ahead r r')
      ((do char ' '; takeWhile (· != '\n') : Parser (List Char)) s)
      ((do char ' '; takeWhile (· != '\n') : Parser (List Char)) s') := by
  refine ((mirrored_char ' ') s s' h).bind ?_
  rintro _ _ r r' ⟨-, hr⟩
  obtain ⟨ahead, htake, hdrop⟩ := hr.span_ahead (· != '\n') rfl rfl
  exact .done ⟨ahead, htake, (hr.takeWhile_self _ rfl).not_mem, hdrop⟩

theorem mirrored_commentLine (level : CommentLevel) :
    Mirrored Returned (commentLine level) Returned := by
  have hmarker : Mirrored Returned (literal level.marker.toList) Returned := by
    cases level <;> exact mirrored_literal _ (by decide) (by decide)
  intro s s' hs
  refine (hmarker s s' hs).bind ?_
  rintro _ _ r r' ⟨-, hr⟩
  have hcontent : Mirrors (fun o o' t t' => ∃ ahead, o'.getD [] = o.getD [] ++ pending ahead ∧
      '\r' ∉ o.getD [] ∧ Abreast ahead t t')
      ((do char ' '; takeWhile (· != '\n') : Parser (List Char)).optional r)
      ((do char ' '; takeWhile (· != '\n') : Parser (List Char)).optional r') :=
    (mirrors_commentText hr).optional id fun _ => ⟨false, by simp [pending], by simp, hr⟩
  refine hcontent.bind ?_
  rintro o o' t t' ⟨ahead, heq, hmem, ht⟩
  refine (mirrored_lineEndOrEnd t t' ⟨ahead, ht⟩).bind ?_
  rintro _ _ t t' ⟨-, ht⟩
  refine .done ⟨?_, ht⟩
  rw [heq, dropCarriageReturn_pending hmem]

theorem mirrored_comment (level : CommentLevel) : Mirrored Returned (comment level) Returned :=
  ((mirrored_commentLine level).many1 fun s a r h =>
    (readsLines_commentLine level s a r h).1).bind fun _ => .pure _

/-! ## Terms and messages -/

theorem mirrored_entryEnd : Mirrored Near entryEnd Returned :=
  mirrored_lineEndOrEnd.expecting _

theorem mirrored_attributeLine : Mirrored Near attributeLine Near := by
  refine mirrored_lineEnd.bind fun _ => mirrored_blank.bind fun _ =>
    (mirrored_char '.').bind fun _ => ?_
  -- Every part of the line is committed and labelled by itself, the value among them.
  simp only [commit_bind, label_bind]
  exact (mirrored_identifier.commit.label _).bind fun _ => (mirrored_spaces.commit.label _).bind
    fun _ => ((mirrored_char '=').flush.commit.label _).bind fun _ =>
      (mirrored_spaces.commit.label _).bind fun _ =>
        (mirrored_value (nestable_placeable maxNesting) (by decide)).bind fun _ =>
          ((Mirrored.pure _).commit.label _)

theorem consumes_attributeLine : Consumes attributeLine :=
  consumes_lineEnd.bind fun _ => advances_blank.bind fun _ => (advances_char '.').bind fun _ =>
    (advances_identifier.bind fun _ => advances_spaces.bind fun _ =>
      (advances_char '=').bind fun _ => advances_spaces.bind fun _ =>
        advances_pattern.bind fun _ => .pure _).commit.label _

theorem mirrored_attributes : Mirrored Near attributeLine.many Near :=
  mirrored_attributeLine.many consumes_attributeLine

theorem mirrored_term : Mirrored Returned term Returned :=
  (mirrored_char '-').bind fun _ => mirrored_identifier.bind fun _ =>
    mirrored_spaces.bind fun _ => (mirrored_char '=').flush.bind fun _ =>
      mirrored_spaces.bind fun _ =>
        ((mirrored_value (nestable_placeable maxNesting) (by decide)).expecting _).bind fun _ =>
          mirrored_attributes.bind fun _ => mirrored_entryEnd.bind fun _ => .pure _

/-- The values of a message in two readings: the same one, or none and none at a place that is
no line break, or none and an empty one in front of a line feed. -/
inductive ValueRead : Option Pattern → Option Pattern → List Char → List Char → Prop
  | same {p : Pattern} {r r' : List Char} : Near r r' → ValueRead (some p) (some p) r r'
  | missing {r r' : List Char} : Returned r r' → r.head? ≠ some '\n' → ValueRead none none r r'
  | strayed {t t' : List Char} : Returned t t' →
      ValueRead none (some []) ('\n' :: t) ('\n' :: t')

theorem mirrors_optional_pattern {s s' : List Char} (h : Flush s s') :
    Mirrors ValueRead (pattern.optional s) (pattern.optional s') := by
  obtain hvalue | ⟨t, t', rfl, rfl, ht, hrefused, hfound⟩ :=
    mirrors_patternOf (nestable_placeable maxNesting) h
  · refine hvalue.optional ?_ fun hrefuses => .missing h.1 fun hhead => ?_
    · rintro p _ r r' ⟨rfl, hr⟩
      exact .same hr
    · obtain ⟨t, rfl⟩ := List.head?_eq_some_iff.mp hhead
      obtain ⟨hs, -⟩ := h
      cases hs with
      | char hc _ _ => contradiction
      | line _ => exact not_refuses_patternOf_return _ hrefuses
  · rw [pattern, optional_of_refuses ⟨_, hrefused, rfl⟩, optional_of_done hfound]
    exact .done (.strayed ht)

theorem many_eq_done_nil {α : Type} {p : Parser α} {s r : List Char} (h : p.many s = .done [] r) :
    r = s := by
  rw [Parser.many] at h
  split at h
  · split at h <;> cases h
    rfl
  · split at h
    · split at h <;> cases h
    · cases h
      rfl

theorem refuses_attributeLine {s : List Char} (h : s.head? ≠ some '\n') (hr : s.head? ≠ some '\r') :
    attributeLine.Refuses s := by
  refine Refuses.bind ⟨{ rest := s }, ?_, rfl⟩
  cases s with
  | nil => rfl
  | cons c s => rw [lineEnd, lineEnd?_cons_of_ne (by simpa using h) (by simpa using hr)]

/-- What is read behind the value of a message. -/
def messageRest (id : String) (value : Option Pattern) : Parser Message := do
  let attributes ← attributeLine.many
  if value.isNone && attributes.isEmpty then
    fail.commit.label "message" |>.expecting "a value or at least one attribute"
  else
    entryEnd
    return Message.make id value attributes none

theorem mirrors_messageRest (id : String) {value value' : Option Pattern} {s s' : List Char}
    (h : ValueRead value value' s s') :
    Mirrors (fun m m' r r' => m' = m.withValue ∧ Returned r r')
      (messageRest id value s) (messageRest id value' s') := by
  cases h with
  | @same p _ _ hs =>
    refine (mirrored_attributes s s' hs).bind ?_
    rintro attributes _ r r' ⟨rfl, hr⟩
    refine (mirrored_entryEnd r r' hr).bind ?_
    rintro _ _ r r' ⟨-, hr⟩
    exact .done ⟨rfl, hr⟩
  | missing hs hline =>
    have hreturn : s'.head? ≠ some '\n' ∧ s'.head? ≠ some '\r' ∧ s.head? ≠ some '\r' := by
      cases hs with
      | nil => simp
      | char hc hr _ => simp [hc, hr]
      | line _ => simp at hline
    rw [messageRest, bind_of_done (many_of_refuses (refuses_attributeLine hline hreturn.2.2)),
      bind_of_done (many_of_refuses (refuses_attributeLine hreturn.1 hreturn.2.1))]
    exact .failed rfl
  | @strayed t t' ht =>
    refine (mirrored_attributes _ _ ht.near_line).and_done.bind ?_
    rintro attributes _ r r' ⟨⟨rfl, hr⟩, hdone⟩
    cases attributes with
    | nil =>
      -- The plain text lacks a value and has no attributes either.
      obtain rfl := many_eq_done_nil hdone
      exact .wanting ⟨rfl, rfl, "message", by decide, rfl⟩
    | cons a attributes =>
      refine (mirrored_entryEnd r r' hr).bind ?_
      rintro _ _ r r' ⟨-, hr⟩
      exact .done ⟨rfl, hr⟩

theorem mirrors_message {s s' : List Char} (h : Returned s s') :
    Mirrors (fun m m' r r' => m' = m.withValue ∧ Returned r r') (message s) (message s') := by
  refine (mirrored_identifier s s' h).bind ?_
  rintro id _ r r' ⟨rfl, hr⟩
  refine (mirrored_spaces r r' hr).bind ?_
  rintro _ _ r r' ⟨-, hr⟩
  refine ((mirrored_char '=').flush r r' hr).bind ?_
  rintro _ _ r r' ⟨-, hr⟩
  refine (mirrored_spaces r r' hr).bind ?_
  rintro _ _ r r' ⟨-, hr⟩
  exact (mirrors_optional_pattern hr).bind fun hvalue => mirrors_messageRest id hvalue

/-! ## Entries -/

/-- The next entry of the plain text lacks a value. -/
def Doomed (s : List Char) : Prop :=
  skipBlankLines s = s ∧ ∃ e, entry s = .failed e ∧ e.WantsValue

theorem doomed_of_term {s : List Char} {e : Failure} (h : term s = .failed e) (he : e.WantsValue) :
    Doomed s ∧ message.Refuses s := by
  have hhead : s.head? = some '-' := by
    by_contra hhead
    exact he.not_refuses h (refuses_term_of_head hhead)
  obtain ⟨t, rfl⟩ := List.head?_eq_some_iff.mp hhead
  refine ⟨⟨skipBlankLines_cons_of_ne (by decide) (by decide) (by decide), e, ?_, he⟩, ?_⟩
  · rw [entry_of_head (by simp), Parser.or, map_apply, h]
    simp [Outcome.map, he.committed]
  · exact refuses_message_of_head (by simp [isNameStart, isLetter])

theorem doomed_of_message {s : List Char} {e : Failure} (h : message s = .failed e)
    (he : e.WantsValue) : Doomed s := by
  obtain ⟨c, hhead, hc⟩ : ∃ c, s.head? = some c ∧ isNameStart c = true := by
    by_contra hhead
    refine he.not_refuses h (refuses_message_of_head fun c hc => ?_)
    simpa using fun hname => hhead ⟨c, hc, hname⟩
  obtain ⟨t, rfl⟩ := List.head?_eq_some_iff.mp hhead
  have hne {d : Char} (hd : isNameStart d = false) : c ≠ d := by
    rintro rfl
    simp [hc] at hd
  refine ⟨skipBlankLines_cons_of_ne (hne rfl) (hne rfl) (hne rfl), e, ?_, he⟩
  have hterm : (Entry.term <$> term).Refuses (c :: t) :=
    refuses_map.mpr (refuses_term_of_head (by simpa using hne rfl))
  rw [entry_of_head (by simpa using hne rfl), or_of_refuses hterm, map_apply, h]
  rfl

/-- Two readings of an entry. A comment swallows the failure of the entry behind it, so a
value that is missing there shows only in the entry that is read next. -/
inductive EntryRead : Entry → Entry → List Char → List Char → Prop
  | counterpart {e e' : Entry} {r r' : List Char} : Counterpart e e' → Returned r r' →
      EntryRead e e' r r'
  | doomed {e e' : Entry} {r r' : List Char} : Doomed r → EntryRead e e' r r'

theorem mirrors_commented {s s' : List Char} (h : Returned s s') :
    Mirrors EntryRead (commented s) (commented s') := by
  have hcomment := mirrored_comment .entry s s' h
  unfold commented
  generalize comment .entry s = o, comment .entry s' = o' at hcomment
  cases hcomment with
  | failed h => exact .failed h
  | wanting h => exact .wanting h
  | @done c _ r r' h =>
    obtain ⟨rfl, hr⟩ := h
    have hterm := mirrored_term r r' hr
    have hmessage := mirrors_message hr
    dsimp only
    generalize ht : term r = o at hterm ⊢
    generalize hm : message r = q at hmessage ⊢
    generalize term r' = o', message r' = q' at hterm hmessage ⊢
    cases hterm with
    | done h =>
      obtain ⟨rfl, hr⟩ := h
      exact .done (EntryRead.counterpart (.term _) hr)
    | wanting hw =>
      obtain ⟨hdoomed, e, hrefused, -⟩ := doomed_of_term ht hw
      obtain rfl : q = .failed e := hm.symm.trans hrefused
      cases o' with
      | done => exact .done (EntryRead.doomed hdoomed)
      | failed => cases q' <;> exact .done (EntryRead.doomed hdoomed)
    | failed _ =>
      cases hmessage with
      | done h =>
        obtain ⟨rfl, hr⟩ := h
        exact .done (EntryRead.counterpart (.message _) hr)
      | failed _ => exact .done (EntryRead.counterpart (.comment c) hr)
      | wanting hw =>
        have hdoomed := doomed_of_message hm hw
        cases q' <;> exact .done (EntryRead.doomed hdoomed)

theorem mirrors_entry {s s' : List Char} (h : Returned s s') :
    Mirrors EntryRead (entry s) (entry s') := by
  have hcomment (level : CommentLevel) : Mirrors EntryRead ((Entry.comment <$> comment level) s)
      ((Entry.comment <$> comment level) s') := by
    refine (mirrored_comment level s s' h).fmap ?_
    rintro c _ r r' ⟨rfl, hr⟩
    exact .counterpart (.comment c) hr
  refine (hcomment .resource).or fun _ => (hcomment .group).or fun _ =>
    (mirrors_commented h).or fun _ => Mirrors.or ?_ fun _ => ?_
  · refine (mirrored_term s s' h).fmap ?_
    rintro t _ r r' ⟨rfl, hr⟩
    exact .counterpart (.term t) hr
  · refine (mirrors_message h).fmap ?_
    rintro m _ r r' ⟨rfl, hr⟩
    exact .counterpart (.message m) hr

/-! ## Blank lines and junk between entries -/

theorem Returned.all_isBlank {s s' : List Char} (h : Returned s s') :
    s.all isBlank = s'.all isBlank := by
  induction h with
  | nil => rfl
  | char _ _ _ ih => simp only [List.all_cons, ih]
  | line _ _ => rfl

theorem Returned.skipBlankLines {s s' : List Char} (h : Returned s s') :
    Returned (skipBlankLines s) (Source.skipBlankLines s') := by
  have hrest := h.blankLines.2
  simp only [Source.skipBlankLines, hrest.all_isBlank]
  split
  · exact .nil
  · exact hrest

theorem Returned.junkSpan {s s' : List Char} (h : Returned s s') (lineStart : Bool) :
    Returned (junkSpan lineStart s).1 (Source.junkSpan lineStart s').1 ∧
      Returned (Source.junkSpan lineStart s).2 (Source.junkSpan lineStart s').2 := by
  induction h generalizing lineStart with
  | nil => exact ⟨.nil, .nil⟩
  | @char c s s' hc hr h ih =>
    simp only [Source.junkSpan]
    split
    · exact ⟨.nil, h.char hc hr⟩
    · exact ⟨(ih _).1.char hc hr, (ih _).2⟩
  | @line s s' h ih =>
    have hopening : isEntryOpening '\n' = false ∧ isEntryOpening '\r' = false := by decide
    simp only [Source.junkSpan, hopening]
    simpa using ⟨(ih true).1.line, (ih true).2⟩

theorem Returned.junk {s s' : List Char} (h : Returned s s') :
    Returned (junk s).1 (Source.junk s').1 ∧ Returned (Source.junk s).2 (Source.junk s').2 :=
  h.junkSpan false

theorem Returned.dropByteOrderMark {s s' : List Char} (h : Returned s s') :
    Returned (dropByteOrderMark s) (Source.dropByteOrderMark s') := by
  cases h with
  | nil => exact .nil
  | line h => exact h.line
  | @char c s s' hc hr h =>
    by_cases hmark : c = '\uFEFF'
    · subst hmark
      exact h
    · have hkeep (t : List Char) : Source.dropByteOrderMark (c :: t) = c :: t := by
        unfold Source.dropByteOrderMark
        split
        · next heq => exact absurd (List.cons.inj heq).1 hmark
        · rfl
      rw [hkeep, hkeep]
      exact h.char hc hr

/-! ## Whole texts -/

theorem prefix_intercalate (separator text : String) (texts : List String) :
    text.toList <+: (separator.intercalate (text :: texts)).toList := by
  cases texts with
  | nil => simp only [String.intercalate_singleton, List.prefix_rfl]
  | cons next texts =>
    rw [String.intercalate_cons_cons, String.toList_append, String.toList_append,
      List.append_assoc]
    exact List.prefix_append _ _

/-- The complaint starts with what was being read. -/
theorem prefix_message {e : Failure} {name : String} (h : e.contexts.head? = some (.label name))
    (fallback : String) : ("invalid " ++ name).toList <+: (e.message fallback).toList := by
  obtain ⟨cs, hcs⟩ := List.head?_eq_some_iff.mp h
  simp only [Failure.message, hcs, List.findSome?_cons, Option.toList_some, List.cons_append,
    List.nil_append, List.isEmpty_cons, Bool.false_eq_true, if_false]
  exact prefix_intercalate _ _ _

theorem annotation_wantsValue {source : List Char} {e : Failure} (he : e.WantsValue)
    (hrest : e.rest <:+ source) : ( annotation source e).WantsValue source := by
  obtain ⟨u, rfl⟩ := hrest
  obtain ⟨name, hname, hlabel⟩ := he.label
  obtain ⟨v, hv⟩ := List.head?_eq_some_iff.mp he.atLineEnd
  exact ⟨⟨name, hname, prefix_message hlabel _⟩, u, v, by rw [hv],
    Position.ofRest_append u e.rest⟩

/-- An entry that lacks a value is junk, and its annotation says so. -/
theorem entries_wanting {source s : List Char} {e : Failure} (hs : s <:+ source)
    (h : entry s = .failed e) (he : e.WantsValue) {es : List Entry}
    (hes : entries .lenient source s = .ok es) :
    ∃ j ∈ (Resource.mk es).junk, ∃ note ∈ j.annotations, note.WantsValue source := by
  have hne : s ≠ [] := by
    rintro rfl
    have hrest := List.suffix_nil.mp (advances_entry.of_failed h)
    simpa [hrest] using he.atLineEnd
  rw [entries_of_failed source hne h] at hes
  obtain ⟨es, -, rfl⟩ := map_eq_ok.mp hes
  have hnote := annotation_wantsValue he ((advances_entry.of_failed h).trans hs)
  exact ⟨_, List.mem_cons_self, _, List.mem_singleton.mpr rfl, hnote⟩

/-- One round of both readings: each takes the same entry or junk off the front. -/
theorem entries_counterpart (source' : List Char) {source s s' : List Char} (h : Returned s s')
    (hsource : s <:+ source) {es : List Entry} (hes : entries .lenient source s = .ok es)
    (hvalue : ∀ j ∈ (Resource.mk es).junk, ∀ note ∈ j.annotations, ¬ note.WantsValue source) :
    ∃ es', entries .lenient source' s' = .ok es' ∧ List.Forall₂ Counterpart es es' := by
  -- Rounds are counted by what is left of the plain text.
  induction hn : s.length using Nat.strongRecOn generalizing s s' es with
  | ind n ih =>
    subst hn
    by_cases hs : s = []
    · subst hs
      cases h
      rw [entries_nil] at hes
      cases hes
      exact ⟨[], entries_nil _ _, .nil⟩
    have hs' : s' ≠ [] := by
      rintro rfl
      cases h
      contradiction
    have hentry := mirrors_entry h
    generalize ho : entry s = o at hentry
    generalize ho' : entry s' = o' at hentry
    cases hentry with
    | @done e e' r r' hread =>
      rw [entries_of_done _ _ ho] at hes
      obtain ⟨rest, hrest, rfl⟩ := map_eq_ok.mp hes
      have hsuffix : skipBlankLines r <:+ source :=
        (skipBlankLines_spec r).1.suffix.trans ((advances_entry.of_done ho).trans hsource)
      rw [Resource.junk_cons (entry_ne_junk ho)] at hvalue
      cases hread with
      | counterpart he hr =>
        have hlt : (skipBlankLines r).length < s.length :=
          Nat.lt_of_le_of_lt (skipBlankLines_length r) (readsLines_entry s e r ho).1
        obtain ⟨es', hes', hforall⟩ := ih _ hlt hr.skipBlankLines hsuffix hrest hvalue rfl
        exact ⟨e' :: es', by rw [entries_of_done _ _ ho', hes']; rfl, .cons he hforall⟩
      | doomed hr =>
        -- The next round of the plain text lacks a value, against the assumption.
        obtain ⟨hskip, f, hf, hwants⟩ := hr
        rw [hskip] at hrest hsuffix
        obtain ⟨j, hj, note, hnote, hwants⟩ := entries_wanting hsuffix hf hwants hrest
        exact absurd hwants (hvalue j hj note hnote)
    | wanting hwants =>
      obtain ⟨j, hj, note, hnote, hwants⟩ := entries_wanting hsource ho hwants hes
      exact absurd hwants (hvalue j hj note hnote)
    | failed _ =>
      obtain ⟨hjunk, hbehind⟩ := h.junk
      rw [entries_of_failed source hs ho] at hes
      obtain ⟨rest, hrest, rfl⟩ := map_eq_ok.mp hes
      have hlt : (skipBlankLines (junk s).2).length < s.length :=
        Nat.lt_of_le_of_lt (skipBlankLines_length _) (junk_length hs)
      have hsuffix : skipBlankLines (junk s).2 <:+ source :=
        (skipBlankLines_spec _).1.suffix.trans ((wholeLines_junk s).suffix.trans hsource)
      obtain ⟨es', hes', hforall⟩ := ih _ hlt hbehind.skipBlankLines hsuffix hrest
        (fun j hj => hvalue j (.tail _ hj)) rfl
      refine ⟨_, by rw [entries_of_failed source' hs' ho', hes']; rfl, .cons (.junk ?_) hforall⟩
      simpa using hjunk.eq_withReturns

theorem junk_eq_nil_iff {es es' : List Entry} (h : List.Forall₂ Counterpart es es') :
    (Resource.mk es).junk = [] ↔ (Resource.mk es').junk = [] := by
  induction h with
  | nil => rfl
  | cons he _ ih => cases he <;> simp_all [Resource.junk]

/-- The strict reading accepts a text if its lenient reading has no junk. -/
theorem strict_accepts_iff {text : String} {r : Resource}
    (h : Resource.parse .lenient text = .ok r) :
    (∃ r', Resource.parse .strict text = .ok r') ↔ r.junk = [] := by
  obtain ⟨es, hes, hverdict⟩ := entries_verdict (dropByteOrderMark text.toList)
    (skipBlankLines (dropByteOrderMark text.toList))
  obtain rfl : es = r.body := by simpa [parse_eq_ok.mp h] using hes.symm
  simp only [Resource.parse, map_eq_ok]
  generalize entries .strict _ _ = answer at hverdict
  cases hverdict with
  | accepted hjunk => simpa using hjunk
  | refused hjunk _ =>
    have hne : r.junk ≠ [] := by
      intro hnil
      simp [hnil] at hjunk
    simp [hne]

end Source

open Source in
/-- Line endings do not change what a text means, as long as no value is missing at the end of
a line. A text without carriage returns always has a lenient reading. If none of its junk
lacks a value in front of a line break, the text with a carriage return in front of every
line feed has the same entries one by one, but for its own line breaks in junk and an empty
value for a message without one; and the strict reading accepts both texts or neither. -/
theorem Resource.parse_withReturns (text : String) (h : '\r' ∉ text.toList) :
    ∃ r, Resource.parse .lenient text = .ok r ∧
      ((∀ j ∈ r.junk, ∀ note ∈ j.annotations,
          ¬ note.WantsValue (dropByteOrderMark text.toList)) →
        (∃ r', Resource.parse .lenient (String.ofList (withReturns text.toList)) = .ok r' ∧
          List.Forall₂ Counterpart r.body r'.body) ∧
        ((∃ r', Resource.parse .strict text = .ok r') ↔
          ∃ r', Resource.parse .strict (String.ofList (withReturns text.toList)) = .ok r')) := by
  have hsource := (Returned.of_not_mem h).dropByteOrderMark
  obtain ⟨es, hes, -⟩ := entries_verdict (dropByteOrderMark text.toList)
    (skipBlankLines (dropByteOrderMark text.toList))
  refine ⟨⟨es⟩, parse_eq_ok.mpr hes, fun hvalue => ?_⟩
  obtain ⟨es', hes', hforall⟩ := entries_counterpart (dropByteOrderMark (withReturns text.toList))
    hsource.skipBlankLines (skipBlankLines_spec _).1.suffix hes hvalue
  have hread : Resource.parse .lenient (String.ofList (withReturns text.toList)) = .ok ⟨es'⟩ := by
    simpa only [parse_eq_ok, String.toList_ofList] using hes'
  refine ⟨⟨⟨es'⟩, hread, hforall⟩, ?_⟩
  rw [strict_accepts_iff (parse_eq_ok.mpr hes), strict_accepts_iff hread]
  exact junk_eq_nil_iff hforall

open Source in
/-- Junk, a message with attributes only, and a value of several lines with a selection. -/
theorem Resource.parse_withReturns_recovered : ∃ r r',
    Resource.parse .lenient
        "-> c\ng =\n .a = z\n# d\ne =\n  f\n    \x7b $x ->\n *[o] v\n\x7d\n" = .ok r ∧
      r.body.length = 3 ∧ r.junk.length = 1 ∧
      Resource.parse .lenient
        "-> c\r\ng =\r\n .a = z\r\n# d\r\ne =\r\n  f\r\n    \x7b $x ->\r\n *[o] v\r\n\x7d\r\n" =
          .ok r' ∧
      List.Forall₂ Counterpart r.body r'.body := by
  obtain ⟨r, hr, hreturns⟩ := Resource.parse_withReturns
    "-> c\ng =\n .a = z\n# d\ne =\n  f\n    \x7b $x ->\n *[o] v\n\x7d\n" (by decide)
  have hread : Resource.parse .lenient
      "-> c\ng =\n .a = z\n# d\ne =\n  f\n    \x7b $x ->\n *[o] v\n\x7d\n" =
      .ok ⟨[.junk ⟨"-> c\n", [⟨"expected a message, term or comment", ⟨1, 1⟩⟩]⟩,
        .message ⟨"g", none, [⟨"a", [.text "z"]⟩], none⟩,
        .message ⟨"e", some [.text "f\n  ",
          .placeable (.select (.argument "x") [⟨.name "o", [.text "v"]⟩] 0)], [],
          some ⟨.entry, ["d"]⟩⟩]⟩ := by
    cbv
  rw [hread] at hr
  cases hr
  have hvalue : ∀ j ∈ [(⟨"-> c\n", [⟨"expected a message, term or comment", ⟨1, 1⟩⟩]⟩ : Junk)],
      ∀ note ∈ j.annotations, ¬ note.WantsValue (dropByteOrderMark
        "-> c\ng =\n .a = z\n# d\ne =\n  f\n    \x7b $x ->\n *[o] v\n\x7d\n".toList) := by
    intro j hj note hnote hwants
    obtain rfl := List.mem_singleton.mp hj
    obtain rfl := List.mem_singleton.mp hnote
    obtain ⟨name, -, hprefix⟩ := hwants.message
    simp at hprefix
  obtain ⟨⟨r', hr', hforall⟩, -⟩ := hreturns hvalue
  exact ⟨_, r', hread, rfl, rfl, hr', hforall⟩

open Source in
/-- Without a value at the end of a line the texts differ: a message with attributes only has
an empty value if there are carriage returns, and a message without anything, which the
strict reading refuses, is accepted. -/
theorem Resource.parse_withReturns_missing_value :
    Resource.parse .lenient "a =\n .b = x\n" =
        .ok ⟨[.message ⟨"a", none, [⟨"b", [.text "x"]⟩], none⟩]⟩ ∧
      Resource.parse .lenient (String.ofList (withReturns "a =\n .b = x\n".toList)) =
        .ok ⟨[.message ⟨"a", some [], [⟨"b", [.text "x"]⟩], none⟩]⟩ ∧
      (¬ ∃ r, Resource.parse .strict "a =\n" = .ok r) ∧
      ∃ r, Resource.parse .strict (String.ofList (withReturns "a =\n".toList)) = .ok r := by
  refine ⟨by cbv, by cbv, ?_, ⟨[.message ⟨"a", some [], [], none⟩]⟩, by cbv⟩
  have hrefused : Resource.parse .strict "a =\n" = .error (.malformed ⟨1, 4⟩
      "invalid message; expected a value or at least one attribute") := by
    cbv
  rw [hrefused]
  rintro ⟨r, hr⟩
  cases hr

end Phrasebook
