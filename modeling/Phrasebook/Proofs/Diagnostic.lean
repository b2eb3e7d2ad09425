import Mathlib
import Phrasebook.Diagnostic
import Phrasebook.Proofs.Position
import Phrasebook.Proofs.Source.Modes

/-!
# Where diagnostics point

Every entry that cannot be read gives one diagnostic, and its mark is where the reading of the
entry stopped. There is one exception: a byte order mark is not counted in the columns of the
first line, but it is there among the bytes. So a failure on that line is marked one character
too early.

## Main definitions

* `Source.Failing`: the failures of the entries of a text.
* `Diagnostic.Displaced`: a place with a byte order mark on the same line.
-/

namespace Phrasebook

/-- The failures that are reported: all of them, or the one that ends the reading. -/
def Mode.reported : Mode → List Source.Failure → List Source.Failure
  | .lenient, failures => failures
  | .strict, failures => failures.take 1

namespace Source

/-- What is left of a text is read entry by entry, with these failures. Behind an entry that
fails, the reading goes on where its junk ends. -/
inductive Failing : List Char → List Failure → Prop
  | ending : Failing [] []
  | read {s rest : List Char} {e : Entry} {failures : List Failure} : entry s = .done e rest →
      Failing (skipBlankLines rest) failures → Failing s failures
  | failed {s : List Char} {failure : Failure} {failures : List Failure} : s ≠ [] →
      entry s = .failed failure → Failing (skipBlankLines (junk s).2) failures →
      Failing s (failure :: failures)

/-- Junk that is left of a failure: it says where the entry failed, and why. -/
def Tells (source : List Char) (j : Junk) (failure : Failure) : Prop :=
  j.annotations = [ annotation source failure] ∧ failure.rest <:+ source

theorem skipBlankLines_suffix (s : List Char) : skipBlankLines s <:+ s :=
  (skipBlankLines_spec s).1.suffix

/-- Each failure leaves junk, in the same order. -/
theorem entries_failing {source s : List Char} (hs : s <:+ source) :
    ∃ es failures, entries .lenient source s = .ok es ∧ Failing s failures ∧
      List.Forall₂ (Tells source) (Resource.mk es).junk failures := by
  induction hn : s.length using Nat.strongRecOn generalizing s with
  | ind n ih =>
    subst hn
    by_cases hnil : s = []
    · subst hnil
      exact ⟨[], [], entries_nil _ _, .ending, .nil⟩
    cases he : entry s with
    | done e rest =>
      obtain ⟨hlt, hwhole⟩ := readsLines_entry s e rest he
      have hskip := skipBlankLines_suffix rest
      obtain ⟨es, failures, hes, hfailing, htells⟩ :=
        ih _ (Nat.lt_of_le_of_lt hskip.length_le hlt) ((hskip.trans hwhole.suffix).trans hs) rfl
      refine ⟨e :: es, failures, by rw [entries_of_done _ _ he, hes]; rfl, .read he hfailing, ?_⟩
      rwa [Resource.junk_cons (entry_ne_junk he)]
    | failed failure =>
      have hskip := skipBlankLines_suffix (junk s).2
      obtain ⟨es, failures, hes, hfailing, htells⟩ :=
        ih _ (Nat.lt_of_le_of_lt hskip.length_le (junk_length hnil))
          ((hskip.trans (wholeLines_junk s).suffix).trans hs) rfl
      have hrest : failure.rest <:+ source := (advances_entry.of_failed he).trans hs
      refine ⟨_, failure :: failures, by rw [entries_of_failed source hnil he, hes]; rfl,
        .failed hnil he hfailing, ?_⟩
      exact .cons ⟨rfl, hrest⟩ htells

end Source

namespace Diagnostic

open Source Position

/-- A diagnostic for a failure: its mark is at the bytes that the position of the failure in the
source leads to in the content. -/
def Marks (source content : List Char) (d : Diagnostic) (failure : Failure) : Prop :=
  d.offset = (ofRest source failure.rest).byteOffset content ∧ failure.rest <:+ source

theorem fromUTF8?_toUTF8 (text : String) : String.fromUTF8? text.toUTF8 = some text :=
  dif_pos text.isValidUTF8

theorem offset_ofJunk (content : List Char) (j : Junk) : (ofJunk content j).offset =
    (j.annotations.headD ⟨"malformed entry", .start⟩).position.byteOffset content :=
  rfl

theorem marks_ofJunk {source content : List Char} {j : Junk} {failure : Failure}
    (h : Tells source j failure) : Marks source content (ofJunk content j) failure := by
  refine ⟨?_, h.2⟩
  rw [offset_ofJunk, h.1]
  rfl

/-- One diagnostic for each failure that is reported. -/
theorem ofFile_failing (mode : Mode) (text : String) :
    let source := dropByteOrderMark text.toList
    ∃ failures, Failing (skipBlankLines source) failures ∧
      List.Forall₂ (Marks source text.toList) (ofFile mode text.toUTF8)
        (mode.reported failures) := by
  intro source
  obtain ⟨es, failures, hes, hfailing, htells⟩ :=
    entries_failing (skipBlankLines_suffix source)
  have hcontent : contentOf text.toUTF8 = text.toList := by
    rw [contentOf, fromUTF8?_toUTF8]
    rfl
  refine ⟨failures, hfailing, ?_⟩
  rw [ofFile, Resource.parseBytes, fromUTF8?_toUTF8, hcontent]
  cases mode with
  | lenient =>
    have hparse : Resource.parse .lenient text = .ok ⟨es⟩ := parse_eq_ok.mpr hes
    simp only [hparse, List.forall₂_map_left_iff]
    exact htells.imp fun _ _ => marks_ofJunk
  | strict =>
    -- The error is the annotation of the first junk, which is left of the first failure.
    obtain ⟨es', hes', hverdict⟩ := entries_verdict source (skipBlankLines source)
    obtain rfl : es = es' := Except.ok.inj (hes.symm.trans hes')
    simp only [Resource.parse]
    generalize entries .strict _ _ = answer at *
    rcases hverdict with hjunk | ⟨hjunk, hnote⟩
    · rw [hjunk] at htells
      cases htells
      change List.Forall₂ _ ((Resource.mk es).junk.map (ofJunk text.toList)) []
      rw [hjunk]
      exact .nil
    · obtain ⟨others, hothers⟩ := List.head?_eq_some_iff.mp hjunk
      rw [hothers] at htells
      cases htells with
      | cons hfirst _ =>
        obtain rfl := List.singleton_inj.mp (hnote.symm.trans hfirst.1)
        exact .cons ⟨rfl, hfirst.2⟩ .nil

/-! ## The place of a mark -/

/-- The text in front of a place, if it is a single line that starts with a byte order mark. -/
def Displaced (front : List Char) : Prop :=
  front.head? = some '\uFEFF' ∧ '\n' ∉ front

theorem dropByteOrderMark_cases (content : List Char) :
    content = '\uFEFF' :: dropByteOrderMark content ∨
      content.head? ≠ some '\uFEFF' ∧ dropByteOrderMark content = content := by
  unfold dropByteOrderMark
  split
  · exact .inl rfl
  · next hmark =>
    refine .inr ⟨?_, rfl⟩
    intro hhead
    obtain ⟨rest, hrest⟩ := List.head?_eq_some_iff.mp hhead
    exact hmark rest hrest

theorem byteSize_dropLast_lt {u : List Char} (h : u ≠ []) : byteSize u.dropLast < byteSize u := by
  have hsplit := byteSize_append u.dropLast [u.getLast h]
  rw [List.dropLast_concat_getLast] at hsplit
  have hlast : 0 < byteSize [u.getLast h] := Nat.add_pos_left (Char.utf8Size_pos _) _
  omega

theorem offset_of_marks {content : List Char} {d : Diagnostic} {failure : Failure}
    (h : Marks (dropByteOrderMark content) content d failure) :
    ∃ front, content = front ++ failure.rest ∧
      (¬ Displaced front → d.offset = byteSize front) ∧
      (Displaced front → d.offset = byteSize front.dropLast) := by
  obtain ⟨hoffset, u, hu⟩ := h
  rw [← hu, ofRest_append] at hoffset
  rcases dropByteOrderMark_cases content with hcontent | ⟨hhead, hcontent⟩
  · rw [← hu] at hcontent
    refine ⟨'\uFEFF' :: u, hcontent, fun hplaced => ?_, fun hdisplaced => ?_⟩
    · have hmem : '\n' ∈ u := by simpa [Displaced] using hplaced
      rw [hoffset, hcontent]
      exact byteOffset_cons_of_mem hmem (by decide) _
    · rw [hoffset, hcontent]
      exact byteOffset_cons_of_not_mem (fun hmem => hdisplaced.2 (.tail _ hmem)) _ _
  · rw [hcontent] at hu
    refine ⟨u, hu.symm, fun _ => ?_, fun hdisplaced => ?_⟩
    · rw [hoffset, ← hu]
      exact byteOffset_after u _
    · obtain ⟨v, rfl⟩ := List.head?_eq_some_iff.mp hdisplaced.1
      exact absurd (by rw [← hu]; rfl) hhead

/-- Every failure that is reported has its diagnostic. It is marked at the byte where the reading
of the entry stopped, if and only if there is no byte order mark on the same line; else the mark
is one character in front of that byte. -/
theorem ofFile_marks (mode : Mode) (text : String) :
    ∃ failures, Failing (skipBlankLines (dropByteOrderMark text.toList)) failures ∧
      List.Forall₂ (fun d failure => ∃ front, text.toList = front ++ failure.rest ∧
          (d.offset = (String.ofList front).utf8ByteSize ↔ ¬ Displaced front) ∧
          (Displaced front → d.offset = (String.ofList front.dropLast).utf8ByteSize))
        (ofFile mode text.toUTF8) (mode.reported failures) := by
  obtain ⟨failures, hfailing, hmarks⟩ := ofFile_failing mode text
  refine ⟨failures, hfailing, hmarks.imp fun d failure h => ?_⟩
  obtain ⟨front, hfront, hplaced, hdisplaced⟩ := offset_of_marks h
  simp only [← byteSize_eq_utf8ByteSize]
  refine ⟨front, hfront, ⟨fun hoffset hmark => ?_, hplaced⟩, hdisplaced⟩
  have hne : front ≠ [] := by
    rintro rfl
    simp [Displaced] at hmark
  have hlt := byteSize_dropLast_lt hne
  rw [← hdisplaced hmark, hoffset] at hlt
  exact Nat.lt_irrefl _ hlt

/-- A byte order mark of three bytes, and the failure behind two more characters. -/
theorem ofFile_marks_first_line :
    (ofFile .lenient "\uFEFFa b\n".toUTF8).map offset = [4] ∧
      (∃ failure, entry "a b\n".toList = .failed failure ∧ failure.rest = "b\n".toList) ∧
      "\uFEFFa b\n".toList = "\uFEFFa ".toList ++ "b\n".toList ∧
      "\uFEFFa ".utf8ByteSize = 5 := by
  refine ⟨by decide +kernel, ⟨_, by cbv, rfl⟩, by decide, by decide⟩

end Diagnostic

end Phrasebook
