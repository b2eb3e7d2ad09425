import Mathlib.Data.List.Basic
import Mathlib.Data.List.Induction
import Phrasebook.Bundle
import Phrasebook.Proofs.Keyed

/-!
# Merging resources into a bundle

Entries are added one after the other, so a resource may be added in pieces. What a bundle
holds in the end depends on the messages and the terms of the resource, each by themselves:
the last one with an id stays. The warnings go through the entries in their order. An entry
is a duplicate if its id is taken, by the bundle as it was or by an entry in front of it.

## Main definitions

* `Bundle.warningsFor`: what is to be said about an entry behind others.
* `Warning.isDuplicateMessage`: the warnings that count as a message that replaced another.
-/

namespace Phrasebook

namespace Resource

theorem messages_append (es es' : List Entry) :
    (mk (es ++ es')).messages = (mk es).messages ++ (mk es').messages :=
  List.filterMap_append

end Resource

def Warning.isDuplicateMessage : Warning → Bool
  | .duplicateMessage _ _ => true
  | _ => false

namespace Bundle

variable (b : Bundle)

/-! ## Adding entries -/

@[simp] theorem locale_addEntry (e : Entry) : (b.addEntry e).1.locale = b.locale := by
  cases e <;> rfl

@[simp] theorem locale_addEntries (es : List Entry) :
    (b.addEntries es).1.locale = b.locale := by
  induction es generalizing b with
  | nil => rfl
  | cons e es ih => exact (ih (b.addEntry e).1).trans (locale_addEntry b e)

@[simp] theorem locale_addResource (r : Resource) : (b.addResource r).1.locale = b.locale :=
  locale_addEntries b r.body

theorem addEntries_append (es es' : List Entry) :
    b.addEntries (es ++ es') =
      (((b.addEntries es).1.addEntries es').1,
        (b.addEntries es).2 ++ ((b.addEntries es).1.addEntries es').2) := by
  induction es generalizing b with
  | nil => rfl
  | cons e es ih => simp [addEntries, ih]

/-- One entry more, at the end. -/
theorem addEntries_concat (es : List Entry) (e : Entry) :
    b.addEntries (es ++ [e]) =
      (((b.addEntries es).1.addEntry e).1,
        (b.addEntries es).2 ++ ((b.addEntries es).1.addEntry e).2) := by
  simp [addEntries_append, addEntries]

/-! ## What a bundle holds -/

theorem messages_addEntries (es : List Entry) :
    (b.addEntries es).1.messages = Keyed.putAll (Resource.mk es).messages b.messages := by
  induction es generalizing b with
  | nil => rfl
  | cons e es ih =>
    refine (ih (b.addEntry e).1).trans ?_
    cases e <;> rfl

theorem terms_addEntries (es : List Entry) :
    (b.addEntries es).1.terms = Keyed.putAll (Resource.mk es).terms b.terms := by
  induction es generalizing b with
  | nil => rfl
  | cons e es ih =>
    refine (ih (b.addEntry e).1).trans ?_
    cases e <;> rfl

theorem message?_addEntries (es : List Entry) (id : String) :
    (b.addEntries es).1.message? id =
      ((Resource.mk es).messages.filter (·.id == id)).getLast?.or (b.message? id) := by
  rw [message?, messages_addEntries]
  exact Keyed.find?_putAll id _ _

theorem term?_addEntries (es : List Entry) (id : String) :
    (b.addEntries es).1.term? id =
      ((Resource.mk es).terms.filter (·.id == id)).getLast?.or (b.term? id) := by
  rw [term?, terms_addEntries]
  exact Keyed.find?_putAll id _ _

/-! ## Warnings -/

/-- What is to be said about an entry that stands behind others in its resource: that it is
malformed, or that its id is taken. -/
def warningsFor (earlier : List Entry) : Entry → List Warning
  | .message m =>
    if b.hasMessage m.id ∨ m.id ∈ (Resource.mk earlier).messages.map Message.id then
      [.duplicateMessage b.locale m.id]
    else []
  | .term t =>
    if (b.term? t.id).isSome ∨ t.id ∈ (Resource.mk earlier).terms.map Term.id then
      [.duplicateTerm b.locale t.id]
    else []
  | .junk j => [junkWarning b.locale j]
  | .comment _ => []

theorem hasMessage_addEntries (es : List Entry) (id : String) :
    (b.addEntries es).1.hasMessage id = true ↔
      b.hasMessage id = true ∨ id ∈ (Resource.mk es).messages.map Message.id := by
  rw [hasMessage, message?, messages_addEntries]
  exact Keyed.isSome_find?_putAll

theorem isSome_term?_addEntries (es : List Entry) (id : String) :
    ((b.addEntries es).1.term? id).isSome = true ↔
      (b.term? id).isSome = true ∨ id ∈ (Resource.mk es).terms.map Term.id := by
  rw [term?, terms_addEntries]
  exact Keyed.isSome_find?_putAll

/-- A step of loading says about an entry what there is to say about it. -/
theorem addEntry_warnings (es : List Entry) (e : Entry) :
    ((b.addEntries es).1.addEntry e).2 = b.warningsFor es e := by
  cases e with
  | message m => simp [addEntry, warningsFor, hasMessage_addEntries]
  | term t => simp [addEntry, warningsFor, isSome_term?_addEntries]
  | junk j => simp [addEntry, warningsFor]
  | comment c => rfl

theorem addEntries_warnings (es : List Entry) :
    (b.addEntries es).2 = es.zipIdx.flatMap fun (e, i) => b.warningsFor (es.take i) e := by
  induction es using List.reverseRecOn with
  | nil => rfl
  | append_singleton es e ih =>
    have hfront : ∀ x ∈ es.zipIdx, b.warningsFor ((es ++ [e]).take x.2) x.1 =
        b.warningsFor (es.take x.2) x.1 := by
      rintro ⟨x, i⟩ hx
      have hi := (List.mem_zipIdx hx).2.1
      rw [List.take_append_of_le_length (by omega)]
    rw [addEntries_concat, addEntry_warnings, ih, List.zipIdx_append, List.flatMap_append,
      List.flatMap_congr hfront]
    simp

/-! ## The number of messages -/

theorem size_addEntry (e : Entry) :
    (b.addEntry e).1.size + (b.addEntry e).2.countP Warning.isDuplicateMessage =
      b.size + (Resource.mk [e]).messages.length := by
  cases e with
  | message m =>
    have hlength := Keyed.length_put m b.messages
    have hhas : b.hasMessage m.id = (Keyed.find? (Keyed.key m) b.messages).isSome := rfl
    simp only [addEntry, addMessage, size, hhas, hlength]
    split <;> simp [Resource.messages, Warning.isDuplicateMessage]
  | term t =>
    simp only [addEntry, addTerm, size]
    split <;> simp [Resource.messages, Warning.isDuplicateMessage]
  | junk j =>
    obtain ⟨content, _ | ⟨note, notes⟩⟩ := j <;> rfl
  | comment c => rfl

/-- Each message is a new one or a duplicate. -/
theorem size_addEntries (es : List Entry) :
    (b.addEntries es).1.size + (b.addEntries es).2.countP Warning.isDuplicateMessage =
      b.size + (Resource.mk es).messages.length := by
  induction es using List.reverseRecOn with
  | nil => rfl
  | append_singleton es e ih =>
    have hstep := (b.addEntries es).1.size_addEntry e
    simp only [addEntries_concat, List.countP_append, Resource.messages_append,
      List.length_append]
    omega

end Bundle

end Phrasebook
