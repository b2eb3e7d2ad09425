import Phrasebook.Proofs.Source.Advance
import Phrasebook.Source.Document

/-!
# Every source is divided among its entries

The lenient reading accepts every text. It cuts the text into segments, one for each
entry, with nothing but blanks between them: what is read as an entry, or kept as junk, is
neither lost nor read again. Segments start where lines start, because an entry is read in
whole lines.

## Main definitions

* `Divided`: a text made up of the segments of entries and of blank stretches.
* `WholeLines`: what is left of a text after some of its lines.
-/

namespace Phrasebook

namespace Source

open Alphabet Phrasebook.Source.Parser

/-! ## Whole lines -/

/-- `r` is what is left of `s` behind some of its lines; the last line of a text may lack
its line feed. -/
def WholeLines (s r : List Char) : Prop :=
  ∃ u, s = u ++ r ∧ (u = [] ∨ r = [] ∨ u.getLast? = some '\n')

theorem WholeLines.refl (s : List Char) : WholeLines s s := ⟨[], rfl, .inl rfl⟩

theorem WholeLines.trans {s r t : List Char} (h : WholeLines s r) (g : WholeLines r t) :
    WholeLines s t := by
  obtain ⟨u, rfl, hu⟩ := h
  obtain ⟨v, rfl, hv⟩ := g
  refine ⟨u ++ v, by simp, ?_⟩
  obtain rfl | rfl | hv := hv
  · simpa using hu
  · exact .inr (.inl rfl)
  · simp [List.getLast?_append, hv]

theorem WholeLines.suffix {s r : List Char} (h : WholeLines s r) : r <:+ s := by
  obtain ⟨u, rfl, -⟩ := h
  exact List.suffix_append u r

/-- A parser that stops behind a line feed or at the end of the text. -/
def EndsLine {α : Type} (p : Parser α) : Prop :=
  ∀ s a r, p s = .done a r → ∃ u, s = u ++ r ∧ (r = [] ∨ u.getLast? = some '\n')

/-- A parser that reads whole lines, and at least one character. -/
def ReadsLines {α : Type} (p : Parser α) : Prop :=
  ∀ s a r, p s = .done a r → r.length < s.length ∧ WholeLines s r

section Combinators

variable {α β : Type} {p q : Parser α} {f : α → Parser β}

theorem EndsLine.pure_bind {b : β} (hp : EndsLine p) : EndsLine (p >>= fun _ => pure b) := by
  intro s a r h
  obtain ⟨a', r', h, hr⟩ := bind_eq_done.mp h
  cases hr
  exact hp s a' _ h

/-- It does not matter what is read in front of the end of the line. -/
theorem EndsLine.after (hp : p.Advances) (hf : ∀ a, EndsLine (f a)) : EndsLine (p >>= f) := by
  intro s b r h
  obtain ⟨a, r', h, hr⟩ := bind_eq_done.mp h
  obtain ⟨v, rfl⟩ := hp.of_done h
  obtain ⟨u, rfl, hu⟩ := hf a r' b r hr
  refine ⟨v ++ u, by simp, hu.imp_right fun hu => ?_⟩
  simp [List.getLast?_append, hu]

/-- What starts with a character and ends a line reads whole lines. -/
theorem ReadsLines.bind (hp : p.Advances)
    (hlt : ∀ {s a r}, p s = .done a r → r.length < s.length) (hf : ∀ a, EndsLine (f a)) :
    ReadsLines (p >>= f) := by
  intro s b r h
  obtain ⟨u, hs, hu⟩ := EndsLine.after hp hf s b r h
  refine ⟨?_, u, hs, .inr hu⟩
  obtain ⟨a, r', h, hr⟩ := bind_eq_done.mp h
  obtain ⟨v, rfl, -⟩ := hf a r' b r hr
  have := hlt h
  simp only [List.length_append] at this
  omega

theorem ReadsLines.or (hp : ReadsLines p) (hq : ReadsLines q) : ReadsLines (p.or q) := by
  intro s a r h
  obtain h | ⟨-, -, -, h⟩ := or_eq_done.mp h
  · exact hp s a r h
  · exact hq s a r h

theorem ReadsLines.map (hp : ReadsLines p) (g : α → β) : ReadsLines (g <$> p) := by
  intro s b r h
  obtain ⟨a, h, -⟩ := map_eq_done.mp h
  exact hp s a r h

theorem ReadsLines.many {s r : List Char} {as : List α} (hp : ReadsLines p)
    (h : p.many s = .done as r) : WholeLines s r := by
  fun_induction Parser.many p s generalizing as with
  | case1 => cases h
  | case2 => cases h; exact .refl _
  | case3 s a r' hd hlt as' r'' hm ih =>
    cases h
    exact (hp s a r' hd).2.trans (ih hm)
  | case4 => cases h
  | case5 => cases h; exact .refl _

end Combinators

/-! ## Entries take whole lines -/

theorem endsLine_lineEndOrEnd : EndsLine lineEndOrEnd := by
  intro s _ r h
  obtain h | ⟨-, -, -, h⟩ := or_eq_done.mp h
  · unfold lineEnd at h
    split at h
    · next eol rest heq =>
      cases h
      obtain ⟨rfl, rfl | rfl⟩ := lineEnd?_eq_some heq
      · exact ⟨['\n'], rfl, .inr rfl⟩
      · exact ⟨['\r', '\n'], rfl, .inr rfl⟩
    · cases h
  · cases s with
    | nil => cases h; exact ⟨[], rfl, .inl rfl⟩
    | cons c cs => cases h

theorem endsLine_entryEnd : EndsLine entryEnd :=
  fun s a r h => endsLine_lineEndOrEnd s a r (expecting_eq_done.mp h)

theorem readsLines_message : ReadsLines message := by
  refine .bind advances_identifier ?_ fun _ => .after advances_spaces fun _ =>
    .after (advances_char '=') fun _ => .after advances_spaces fun _ =>
      .after advances_pattern.optional fun _ => .after advances_attributeLine.many fun _ => ?_
  · intro s id r h
    simp only [identifier, bind_eq_done, satisfy_eq_done] at h
    obtain ⟨c, t, ⟨rfl, -⟩, cs, t', ht, h⟩ := h
    cases h
    exact Nat.lt_succ_of_le ((advances_takeWhile isNamePart).of_done ht).length_le
  · split
    · intro s m r h
      simp [fail] at h
    · exact endsLine_entryEnd.pure_bind

theorem readsLines_term : ReadsLines term := by
  refine .bind (advances_char '-') ?_ fun _ => .after advances_identifier fun _ =>
    .after advances_spaces fun _ => .after (advances_char '=') fun _ =>
      .after advances_spaces fun _ => .after ((advances_pattern.commit.label _).expecting _)
        fun _ => .after advances_attributeLine.many fun _ => endsLine_entryEnd.pure_bind
  intro s _ r h
  rw [char_eq_done.mp h]
  exact Nat.lt_succ_self _

theorem readsLines_commentLine (level : CommentLevel) : ReadsLines (commentLine level) := by
  refine .bind (advances_literal _) ?_ fun _ =>
    .after (((advances_char ' ').bind fun _ => advances_takeWhile _).optional) fun _ =>
      endsLine_lineEndOrEnd.pure_bind
  intro s _ r h
  have : 0 < level.marker.toList.length := by cases level <;> decide
  rw [literal_eq_done.mp h, List.length_append]
  omega

theorem readsLines_comment (level : CommentLevel) : ReadsLines (comment level) := by
  intro s c r h
  obtain ⟨lines, r', h, hr⟩ := bind_eq_done.mp h
  cases hr
  obtain ⟨line, r₁, lines', hline, hmany, rfl⟩ := many1_eq_done.mp h
  obtain ⟨hlt, hwhole⟩ := readsLines_commentLine level s line r₁ hline
  have hrest := (readsLines_commentLine level).many hmany
  exact ⟨Nat.lt_of_le_of_lt hrest.suffix.length_le hlt, hwhole.trans hrest⟩

theorem readsLines_commented : ReadsLines commented := by
  intro s e r h
  obtain ⟨c, rest, hc, hcases⟩ := commented_cases h
  obtain ⟨hlt, hwhole⟩ := readsLines_comment .entry s c rest hc
  have hthrough : r.length < rest.length ∧ WholeLines rest r →
      r.length < s.length ∧ WholeLines s r :=
    fun h => ⟨Nat.lt_trans h.1 hlt, hwhole.trans h.2⟩
  obtain ⟨t, ht, -⟩ | ⟨m, -, hm, -⟩ | ⟨-, -, -, rfl⟩ := hcases
  · exact hthrough (readsLines_term rest t r ht)
  · exact hthrough (readsLines_message rest m r hm)
  · exact ⟨hlt, hwhole⟩

theorem readsLines_entry : ReadsLines entry :=
  ((readsLines_comment .resource).map _).or <| ((readsLines_comment .group).map _).or <|
    readsLines_commented.or <| (readsLines_term.map _).or <| readsLines_message.map _

/-- Junk is what recovery makes of a failure; the grammar itself has none. -/
theorem entry_ne_junk {s r : List Char} {e : Entry} (h : entry s = .done e r) (j : Junk) :
    e ≠ .junk j := by
  simp only [entry, or_eq_done, map_eq_done] at h
  obtain ⟨c, -, rfl⟩ | ⟨-, -, -, ⟨c, -, rfl⟩ | ⟨-, -, -, h | ⟨-, -, -, ⟨t, -, rfl⟩ |
    ⟨-, -, -, m, -, rfl⟩⟩⟩⟩ := h
  any_goals simp
  obtain ⟨c, rest, -, ⟨t, -, rfl⟩ | ⟨m, -, -, rfl⟩ | ⟨-, -, rfl, -⟩⟩ := commented_cases h <;> simp

/-! ## Rounds of the reading -/

theorem entries_nil (mode : Mode) (source : List Char) : entries mode source [] = .ok [] := by
  simp [entries]

theorem entries_of_done (mode : Mode) (source : List Char) {s r : List Char} {e : Entry}
    (h : entry s = .done e r) :
    entries mode source s = (entries mode source (skipBlankLines r)).map (e :: ·) := by
  have hlt := (readsLines_entry s e r h).1
  have hs : s ≠ [] := by
    rintro rfl
    simp at hlt
  rw [entries, dif_neg hs, h]
  simp only [hlt, if_true]

theorem entries_of_failed (source : List Char) {s : List Char} (hs : s ≠ []) {failure : Failure}
    (h : entry s = .failed failure) :
    entries .lenient source s = (entries .lenient source (skipBlankLines (junk s).2)).map
      (.junk ⟨String.ofList (junk s).1, [ annotation source failure]⟩ :: ·) := by
  rw [entries, dif_neg hs, h]

/-! ## Blanks and junk take whole lines -/

theorem wholeLines_blankLines (s : List Char) : WholeLines s (blankLines s).2 := by
  fun_induction blankLines s with
  | case1 s eol rest h text after heq ih =>
    rw [heq] at ih
    refine WholeLines.trans ?_ ih
    obtain ⟨hs, heol⟩ := lineEnd?_eq_some h
    refine ⟨s.takeWhile isBlank ++ eol, ?_, .inr (.inr ?_)⟩
    · rw [List.append_assoc, ← hs, List.takeWhile_append_dropWhile]
    · obtain rfl | rfl := heol <;> simp
  | case2 s => exact .refl s

/-- Only blanks are skipped in front of an entry, and they are whole lines. -/
theorem skipBlankLines_spec (s : List Char) :
    WholeLines s (skipBlankLines s) ∧ ∃ b, Blank b ∧ s = b ++ skipBlankLines s := by
  have happend := blankLines_append s
  simp only [skipBlankLines]
  split
  · next hall =>
    have hrest : Blank (blankLines s).2 := blank_of_all (by simpa using hall)
    exact ⟨⟨s, by simp, .inr (.inl rfl)⟩, _, (blank_blankLines s).append hrest, by simp [happend]⟩
  · exact ⟨wholeLines_blankLines s, _, blank_blankLines s, happend.symm⟩

theorem junkSpan_append (lineStart : Bool) (s : List Char) :
    (junkSpan lineStart s).1 ++ (junkSpan lineStart s).2 = s := by
  induction s generalizing lineStart with
  | nil => rfl
  | cons c cs ih =>
    simp only [junkSpan]
    split
    · rfl
    · simp [ih]

/-- Junk stops in front of a line: at once only if a line starts there. -/
theorem junkSpan_stops (lineStart : Bool) (s : List Char) :
    (junkSpan lineStart s).2 = [] ∨ (junkSpan lineStart s).1.getLast? = some '\n' ∨
      (junkSpan lineStart s).1 = [] ∧ lineStart = true := by
  induction s generalizing lineStart with
  | nil => exact .inl rfl
  | cons c cs ih =>
    simp only [junkSpan]
    split
    · next h => exact .inr (.inr ⟨rfl, by simp_all⟩)
    · obtain h | h | ⟨h, hc⟩ := ih (c == '\n')
      · exact .inl h
      · refine .inr (.inl ?_)
        simp [List.getLast?_cons, h]
      · refine .inr (.inl ?_)
        simpa [h] using hc

theorem junk_append (s : List Char) : (junk s).1 ++ (junk s).2 = s := junkSpan_append false s

theorem wholeLines_junk (s : List Char) : WholeLines s (junk s).2 := by
  refine ⟨(junk s).1, (junk_append s).symm, .inr ?_⟩
  simpa [junk] using junkSpan_stops false s

/-! ## Division of a source -/

/-- `rest` is where a line of `source` starts. -/
def StartsLine (source rest : List Char) : Prop :=
  ∃ u, source = u ++ rest ∧ (u = [] ∨ u.getLast? = some '\n')

theorem WholeLines.startsLine {source s : List Char} (h : WholeLines source s) (hs : s ≠ []) :
    StartsLine source s := by
  obtain ⟨u, rfl, hu⟩ := h
  exact ⟨u, rfl, by simpa [hs] using hu⟩

/-- What an entry has to do with its segment, in front of the rest of the source. An entry
that is no junk is what the grammar reads there. Junk holds the segment itself, and its
only annotation points into the source at or behind the start of the segment. -/
inductive Segment (source segment rest : List Char) : Entry → Prop
  | read {e : Entry} : entry (segment ++ rest) = .done e rest → (∀ j, e ≠ .junk j) →
      Segment source segment rest e
  | junk {j : Junk} {note : Annotation} {u v : List Char} : j.content.toList = segment →
      j.annotations = [note] → source = u ++ v → v <:+ segment ++ rest →
      note.position = Position.after u → Segment source segment rest (.junk j)

/-- A text, the end of a source, that alternates between blank stretches and the segments
of entries. -/
inductive Divided (source : List Char) : List Char → List Entry → Prop
  | ending {blanks : List Char} : Blank blanks → Divided source blanks []
  | entry {blanks segment rest : List Char} {e : Entry} {es : List Entry} : Blank blanks →
      segment ≠ [] → StartsLine source (segment ++ rest) → Segment source segment rest e →
      Divided source rest es → Divided source (blanks ++ (segment ++ rest)) (e :: es)

theorem segment_junk {source s : List Char} {failure : Failure} (hs : s <:+ source)
    (h : entry s = .failed failure) :
    Segment source (junk s).1 (junk s).2
      (.junk ⟨String.ofList (junk s).1, [ annotation source failure]⟩) := by
  have hrest : failure.rest <:+ s := advances_entry.of_failed h
  obtain ⟨u, hu⟩ := hrest.trans hs
  refine .junk (by simp) rfl hu.symm (by rwa [junk_append]) ?_
  simp [ annotation, ← hu]

/-- One round of the reading: an entry or junk is taken off the front, and the next round
starts on a line again. -/
theorem entries_divided (source s : List Char) (hs : WholeLines source s) :
    ∃ es, entries .lenient source (skipBlankLines s) = .ok es ∧ Divided source s es := by
  -- Rounds are counted by what is left, which every entry makes shorter.
  induction hn : s.length using Nat.strongRecOn generalizing s with
  | ind n ih =>
    subst hn
    obtain ⟨hskip, b, hb, heq⟩ := skipBlankLines_spec s
    generalize skipBlankLines s = t at *
    by_cases ht : t = []
    · subst ht
      refine ⟨[], by simp [entries], ?_⟩
      rw [heq, List.append_nil]
      exact .ending hb
    have hline : WholeLines source t := hs.trans hskip
    have hle : t.length ≤ s.length := hskip.suffix.length_le
    rw [entries, dif_neg ht]
    cases he : Source.entry t with
    | done e rest =>
      obtain ⟨hlt, hwhole⟩ := readsLines_entry t e rest he
      obtain ⟨es, hes, hdiv⟩ := ih rest.length (by omega) rest (hline.trans hwhole) rfl
      refine ⟨e :: es, by simp [hlt, hes, Except.map], ?_⟩
      obtain ⟨segment, rfl⟩ := hwhole.suffix
      rw [heq]
      refine .entry hb ?_ (hline.startsLine ht) (.read he (entry_ne_junk he)) hdiv
      rintro rfl
      simp at hlt
    | failed failure =>
      have hlt := junk_length ht
      obtain ⟨es, hes, hdiv⟩ :=
        ih (junk t).2.length (by omega) (junk t).2 (hline.trans (wholeLines_junk t)) rfl
      have hne : (junk t).1 ≠ [] := by
        intro hnil
        have happend := junk_append t
        rw [hnil, List.nil_append] at happend
        rw [happend] at hlt
        omega
      have hjunk := segment_junk hline.suffix he
      have hstart : StartsLine source ((junk t).1 ++ (junk t).2) := by
        rw [junk_append]
        exact hline.startsLine ht
      refine ⟨_, by simp only [hes, Except.map]; rfl, ?_⟩
      have hall := Divided.entry hb hne hstart hjunk hdiv
      rwa [junk_append, ← heq] at hall

end Source

open Source in
/-- The lenient reading accepts every text, and the text without its byte order mark is
divided among the entries that were read. -/
theorem Resource.parse_lenient_divided (text : String) :
    ∃ r, Resource.parse .lenient text = .ok r ∧
      Divided (dropByteOrderMark text.toList) (dropByteOrderMark text.toList) r.body := by
  obtain ⟨es, hes, hdiv⟩ :=
    entries_divided (dropByteOrderMark text.toList) (dropByteOrderMark text.toList) (.refl _)
  exact ⟨⟨es⟩, parse_eq_ok.mpr hes, hdiv⟩

end Phrasebook
