import Phrasebook.Proofs.Source.Segments

/-!
# The strict and the lenient reading

Both readings take the same entries off the front of a text until one of them fails. There
the strict reading ends with an error, and the lenient one keeps the reason and the place
of the failure as the annotation of its first junk. Nothing behind that junk matters for
the strict reading.
-/

namespace Phrasebook

theorem Resource.junk_cons {e : Entry} (h : ∀ j, e ≠ .junk j) (es : List Entry) :
    (Resource.mk (e :: es)).junk = (Resource.mk es).junk := by
  cases e with
  | junk j => exact absurd rfl (h j)
  | message m => rfl
  | term t => rfl
  | comment c => rfl

namespace Source

/-- What the strict reading answers where the lenient one answers with these entries. -/
inductive Verdict (es : List Entry) : Except ParseError (List Entry) → Prop
  | accepted : (Resource.mk es).junk = [] → Verdict es (.ok es)
  | refused {j : Junk} {note : Annotation} : (Resource.mk es).junk.head? = some j →
      j.annotations = [note] → Verdict es (.error (.malformed note.position note.message))

theorem Verdict.cons {e : Entry} {es : List Entry} {answer : Except ParseError (List Entry)}
    (he : ∀ j, e ≠ .junk j) (h : Verdict es answer) :
    Verdict (e :: es) (answer.map (e :: ·)) := by
  rcases h with hjunk | ⟨hjunk, hnote⟩
  · exact .accepted (by rw [Resource.junk_cons he, hjunk])
  · exact .refused (by rw [Resource.junk_cons he, hjunk]) hnote

/-- Both readings of what is left of a text, side by side. -/
theorem entries_verdict (source s : List Char) :
    ∃ es, entries .lenient source s = .ok es ∧ Verdict es (entries .strict source s) := by
  induction hn : s.length using Nat.strongRecOn generalizing s with
  | ind n ih =>
    subst hn
    by_cases hs : s = []
    · subst hs
      exact ⟨[], entries_nil _ _, by rw [entries_nil]; exact .accepted rfl⟩
    cases he : entry s with
    | done e rest =>
      -- The readings stay in step: both go on behind the same entry.
      have hlt : (skipBlankLines rest).length < s.length :=
        Nat.lt_of_le_of_lt (skipBlankLines_length rest) (readsLines_entry s e rest he).1
      obtain ⟨es, hes, hverdict⟩ := ih _ hlt (skipBlankLines rest) rfl
      refine ⟨e :: es, by rw [entries_of_done _ _ he, hes]; rfl, ?_⟩
      rw [entries_of_done _ _ he]
      exact hverdict.cons (entry_ne_junk he)
    | failed failure =>
      -- Only the lenient reading goes on, and its first junk is here.
      have hlt : (skipBlankLines (junk s).2).length < s.length :=
        Nat.lt_of_le_of_lt (skipBlankLines_length _) (junk_length hs)
      obtain ⟨es, hes, -⟩ := ih _ hlt (skipBlankLines (junk s).2) rfl
      refine ⟨_, by rw [entries_of_failed source hs he, hes]; rfl, ?_⟩
      rw [entries, dif_neg hs, he]
      exact .refused rfl rfl

end Source

open Source in
/-- Both readings of a text: without junk they are the same, and else the strict one is the
annotation of the first junk. -/
theorem Resource.parse_modes (text : String) :
    ∃ r, Resource.parse .lenient text = .ok r ∧
      ((r.junk = [] ∧ Resource.parse .strict text = .ok r) ∨
        ∃ j others note, r.junk = j :: others ∧ j.annotations = [note] ∧
          Resource.parse .strict text = .error (.malformed note.position note.message)) := by
  obtain ⟨es, hes, hverdict⟩ := entries_verdict (dropByteOrderMark text.toList)
    (skipBlankLines (dropByteOrderMark text.toList))
  refine ⟨⟨es⟩, parse_eq_ok.mpr hes, ?_⟩
  simp only [Resource.parse]
  generalize entries .strict _ _ = answer at *
  rcases hverdict with hjunk | ⟨hjunk, hnote⟩
  · exact .inl ⟨hjunk, rfl⟩
  · obtain ⟨others, hothers⟩ := List.head?_eq_some_iff.mp hjunk
    exact .inr ⟨_, others, _, hothers, hnote, rfl⟩

open Source in
/-- The strict reading accepts a text if and only if the lenient one finds no junk in it,
and then both give the same resource. Else its error is the annotation of the first junk. -/
theorem Resource.parse_strict_eq_lenient (text : String) :
    ∃ r, Resource.parse .lenient text = .ok r ∧
      (∀ r', Resource.parse .strict text = .ok r' ↔ r.junk = [] ∧ r' = r) ∧
      ∀ j, r.junk.head? = some j → ∃ note, j.annotations = [note] ∧
        Resource.parse .strict text = .error (.malformed note.position note.message) := by
  obtain ⟨es, hes, hverdict⟩ := entries_verdict (dropByteOrderMark text.toList)
    (skipBlankLines (dropByteOrderMark text.toList))
  refine ⟨⟨es⟩, parse_eq_ok.mpr hes, ?_⟩
  simp only [Resource.parse]
  generalize entries .strict _ _ = answer at *
  rcases hverdict with hjunk | ⟨hjunk, hnote⟩
  · refine ⟨fun r' => ?_, fun j hj => ?_⟩
    · simp [Except.map, hjunk, eq_comm]
    · simp [hjunk] at hj
  · refine ⟨fun r' => ?_, fun j hj => ?_⟩
    · suffices (Resource.mk es).junk ≠ [] by simp [Except.map, this]
      intro hnil
      simp [hnil] at hjunk
    · obtain rfl := Option.some.inj (hjunk.symm.trans hj)
      exact ⟨_, hnote, rfl⟩

end Phrasebook
