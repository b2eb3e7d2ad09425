import Mathlib
import Phrasebook.Proofs.Source.Lookahead
import Phrasebook.Proofs.Source.Segments

/-!
# Where recovery resumes

Junk runs up to the first line behind its own whose first character may open an entry. So no
line that is kept as junk could be read as an entry, but for one case: a name may start with
an underscore, and a line that does is no place to resume at.
-/

namespace Phrasebook

namespace Source

open Alphabet Phrasebook.Source.Parser

/-! ## Junk -/

/-- No line inside of junk opens an entry. -/
theorem junkSpan_passes {lineStart : Bool} {s u v : List Char} {c : Char}
    (h : (junkSpan lineStart s).1 = u ++ c :: v)
    (hu : u = [] ∧ lineStart = true ∨ u.getLast? = some '\n') : isEntryOpening c = false := by
  induction s generalizing lineStart u with
  | nil => simp [junkSpan] at h
  | cons d ds ih =>
    simp only [junkSpan] at h
    split at h
    · simp at h
    · next hopening =>
      cases u with
      | nil =>
        obtain ⟨rfl, -⟩ := List.cons.inj h
        simp_all
      | cons e u =>
        obtain ⟨rfl, htail⟩ := List.cons.inj h
        refine ih htail ?_
        cases u with
        | nil => exact .inl ⟨rfl, by simpa using hu⟩
        | cons e' u => exact .inr (by simpa [List.getLast?_cons_cons] using hu)

/-- Junk ends with the text, or where an entry may open. -/
theorem junkSpan_opens (lineStart : Bool) (s : List Char) :
    (junkSpan lineStart s).2 = [] ∨ Opens (junkSpan lineStart s).2 := by
  induction s generalizing lineStart with
  | nil => exact .inl rfl
  | cons c cs ih =>
    simp only [junkSpan]
    split
    · next h =>
      simp only [Bool.and_eq_true] at h
      exact .inr ⟨c, cs, rfl, h.2⟩
    · exact ih _

/-- An entry starts with the mark of a comment or a term, or with a name. -/
theorem fails_entry_of_head {c : Char} {s : List Char} (hopening : isEntryOpening c = false)
    (hname : c ≠ '_') : entry.Fails (c :: s) := by
  obtain ⟨⟨hmark, hminus⟩, hletter⟩ : (c ≠ '#' ∧ c ≠ '-') ∧ isLetter c = false := by
    simpa [isEntryOpening] using hopening
  have hterm : term.Refuses (c :: s) := refuses_term_of_head (by simpa using hminus)
  have hmessage : message.Refuses (c :: s) := by
    apply refuses_message_of_head
    rintro d ⟨⟩
    simp [isNameStart, hletter, hname]
  obtain ⟨e, he, -⟩ : ((Entry.term <$> term).or (Entry.message <$> message)).Refuses (c :: s) :=
    (refuses_map.mpr hterm).or (refuses_map.mpr hmessage)
  exact ⟨e, by rw [entry_of_head (by simpa using hmark), he]⟩

/-! ## Rounds of the reading -/

/-- The first entry is what the grammar reads, or else the junk that is left of its failure;
the others are read from there on. -/
theorem entries_eq_cons {source t : List Char} {e : Entry} {es : List Entry}
    (h : entries .lenient source t = .ok (e :: es)) :
    (∃ r, entry t = .done e r ∧ entries .lenient source (skipBlankLines r) = .ok es) ∨
      ∃ failure, entry t = .failed failure ∧
        e = .junk ⟨String.ofList (junk t).1, [ annotation source failure]⟩ ∧
        entries .lenient source (skipBlankLines (junk t).2) = .ok es := by
  have ht : t ≠ [] := by
    rintro rfl
    simp [entries_nil] at h
  cases he : entry t with
  | done e' r =>
    rw [entries_of_done .lenient source he] at h
    obtain ⟨es', hes, heq⟩ := map_eq_ok.mp h
    cases heq
    exact .inl ⟨r, rfl, hes⟩
  | failed failure =>
    rw [entries_of_failed source ht he] at h
    obtain ⟨es', hes, heq⟩ := map_eq_ok.mp h
    cases heq
    exact .inr ⟨failure, rfl, rfl, hes⟩

/-- Some lines of a text are behind an entry of junk: it holds what recovery keeps of them,
and the entries behind it are what is read of the others. -/
theorem entries_junk {source s : List Char} {front back : List Entry} {j : Junk}
    (h : entries .lenient source (skipBlankLines s) = .ok (front ++ .junk j :: back)) :
    ∃ t, WholeLines s t ∧ t ≠ [] ∧ entry.Fails t ∧ j.content.toList = (junk t).1 ∧
      entries .lenient source (skipBlankLines (junk t).2) = .ok back := by
  have hskip := (skipBlankLines_spec s).1
  induction front generalizing s with
  | nil =>
    rcases entries_eq_cons h with ⟨r, he, -⟩ | ⟨failure, he, hj, hback⟩
    · exact absurd rfl (entry_ne_junk he j)
    · cases hj
      refine ⟨skipBlankLines s, hskip, ?_, ⟨failure, he⟩, by simp, hback⟩
      intro hnil
      simp [hnil, entries_nil] at h
  | cons e front ih =>
    rcases entries_eq_cons h with ⟨r, he, hrest⟩ | ⟨failure, he, -, hrest⟩
    · obtain ⟨t, hwhole, ht⟩ := ih hrest (skipBlankLines_spec r).1
      exact ⟨t, (hskip.trans (readsLines_entry _ _ _ he).2).trans hwhole, ht⟩
    · obtain ⟨t, hwhole, ht⟩ := ih hrest (skipBlankLines_spec _).1
      exact ⟨t, (hskip.trans (wholeLines_junk _)).trans hwhole, ht⟩

end Source

open Source Alphabet

/-- Junk stands where a line of the text starts, in front of what the entries behind it are
read from. The grammar reads no entry at any later line inside of it, unless that line starts
with an underscore. It ends with the text, or with the line in front of the first one whose
first character may open an entry. -/
theorem Resource.parse_lenient_junk {text : String} {r : Resource} {front back : List Entry}
    {j : Junk} (h : Resource.parse .lenient text = .ok r)
    (hr : r.body = front ++ .junk j :: back) :
    let source := dropByteOrderMark text.toList
    ∃ after, StartsLine source (j.content.toList ++ after) ∧
      entries .lenient source (skipBlankLines after) = .ok back ∧
      (∀ u v, j.content.toList = u ++ v → u.getLast? = some '\n' → v ≠ [] →
        v.head? ≠ some '_' → entry.Fails (v ++ after)) ∧
      (∀ u c v, j.content.toList = u ++ c :: v → u.getLast? = some '\n' →
        isEntryOpening c = false) ∧
      (after = [] ∨ j.content.toList.getLast? = some '\n' ∧ Opens after) := by
  intro source
  have hread := parse_eq_ok.mp h
  rw [hr] at hread
  obtain ⟨t, hwhole, ht, -, hcontent, hback⟩ := entries_junk hread
  have hpasses : ∀ u c v, j.content.toList = u ++ c :: v → u.getLast? = some '\n' →
      isEntryOpening c = false := by
    intro u c v hsplit hu
    exact junkSpan_passes (hcontent.symm.trans hsplit) (.inr hu)
  refine ⟨(Source.junk t).2, ?_, hback, ?_, hpasses, ?_⟩
  · rw [hcontent, junk_append]
    exact hwhole.startsLine ht
  · intro u v hsplit hu hv hhead
    obtain ⟨c, v, rfl⟩ := List.exists_cons_of_ne_nil hv
    exact fails_entry_of_head (hpasses u c v hsplit hu) (by simpa using hhead)
  · rcases junkSpan_opens false t with hend | hopens
    · exact .inl hend
    · refine (junkSpan_stops false t).imp_right fun hstops => ⟨?_, hopens⟩
      rw [hcontent, Source.junk]
      simpa using hstops

/-- Two lines are kept as junk behind the malformed one. The grammar reads no entry at the
first of them. -/
theorem Resource.parse_lenient_junk_indented :
    (∃ note, Resource.parse .lenient "a\n = b\n_c = d\ne = f\n" =
      .ok ⟨[.junk ⟨"a\n = b\n_c = d\n", [note]⟩, .message ⟨"e", some [.text "f"], [], none⟩]⟩) ∧
      entry.Fails " = b\n_c = d\ne = f\n".toList := by
  have hread : Resource.parse .lenient "a\n = b\n_c = d\ne = f\n" =
      .ok ⟨[.junk ⟨"a\n = b\n_c = d\n", [⟨"expected a message, term or comment", ⟨1, 2⟩⟩]⟩,
        .message ⟨"e", some [.text "f"], [], none⟩]⟩ := by
    cbv
  refine ⟨⟨_, hread⟩, ?_⟩
  obtain ⟨after, ⟨u, hu, -⟩, -, hlines, -⟩ :=
    @Resource.parse_lenient_junk _ _ [] _ _ hread rfl
  have hafter : after = "e = f\n".toList := by
    cases u with
    | nil => simpa [dropByteOrderMark] using hu.symm
    | cons c u =>
      -- The junk starts with the only `a` of the text.
      have hmem : 'a' ∈ "\n = b\n_c = d\ne = f\n".toList := by
        have htail : "\n = b\n_c = d\ne = f\n".toList = _ := (List.cons.inj hu).2
        rw [htail]
        simp
      simp at hmem
  have hfails := hlines ['a', '\n'] " = b\n_c = d\n".toList rfl rfl (by simp) (by simp)
  rwa [hafter] at hfails

/-- A message whose name starts with an underscore is kept as junk, although the grammar
reads it. -/
theorem Resource.parse_lenient_junk_underscore :
    (∃ note, Resource.parse .lenient "\x7d\n_a = b\n" =
      .ok ⟨[.junk ⟨"\x7d\n_a = b\n", [note]⟩]⟩) ∧
      entry "_a = b\n".toList = .done (.message ⟨"_a", some [.text "b"], [], none⟩) [] :=
  ⟨⟨_, by cbv⟩, by cbv⟩

end Phrasebook
