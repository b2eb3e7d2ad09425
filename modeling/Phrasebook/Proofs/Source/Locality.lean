import Phrasebook.Proofs.Source.Reading
import Phrasebook.Proofs.Source.Stability

/-!
# A placeable ends at its brace

Whether a text starts with a placeable, and with which one, is settled where its closing
brace is found: nothing behind the brace makes a difference. Inside the placeable the brace
is a guard for most productions, but a string literal may take it. So the condition is on
what a production leaves: as long as the brace is left, the production did not look behind
it.

## Main definitions

* `Ahead`: the closing brace, and a certain text behind it, are still to come.
* `Parser.Local`: as long as the brace is left, what follows makes no difference.
* `Parser.Firm`: nor does it make a difference to refusals in front of the brace.

## Main results

* `placeable_next`: a placeable is the same whatever follows it.
-/

namespace Phrasebook.Source

open Alphabet

/-- The closing brace with the given text behind it is still to come. -/
def Ahead (tail s : List Char) : Prop :=
  '}' :: tail <:+ s

theorem Ahead.of_suffix {tail r s : List Char} (h : Ahead tail r) (hr : r <:+ s) : Ahead tail s :=
  h.trans hr

theorem guards_ahead (tail : List Char) : Guards '}' (Ahead tail) where
  nil := by simp [Ahead]
  tail hc hs := (List.suffix_cons_iff.mp hs).resolve_left fun h => hc (List.cons.inj h).1.symm

theorem shelters_ahead (tail next : List Char) : Shelters next (Ahead tail) :=
  (guards_ahead tail).shelters (by decide) next

namespace Parser

variable {α β : Type} {p q : Parser α} {f : α → Parser β} {tail next : List Char}

/-- What is read in front of the brace is also read when `next` follows. -/
structure Local (tail next : List Char) (p : Parser α) : Prop where
  advances : p.Advances
  same : ∀ {s a r}, Ahead tail r → p s = .done a r → p (s ++ next) = .done a (r ++ next)

/-- What is read in front of the brace, or refused there, is so when `next` follows. -/
structure Firm (tail next : List Char) (p : Parser α) : Prop extends Local tail next p where
  refuses : ∀ {s}, Ahead tail s → p.Refuses s → p.Refuses (s ++ next)

/-! ## Combinators -/

theorem Firm.of_stable (hp : Stable next (Ahead tail) p (Ahead tail)) (h : p.Advances) :
    Firm tail next p where
  advances := h
  same hr hs := (hp.keeps _ _ _ (hr.of_suffix (h.of_done hs)) hs).1
  refuses := hp.refuses _

theorem Local.firm (hp : Local tail next p) (h : ∀ s, ¬ p.Refuses s) : Firm tail next p where
  toLocal := hp
  refuses _ hs := absurd hs (h _)

theorem Local.pure (a : α) : Local tail next (pure a) where
  advances := .pure a
  same _ h := by
    cases h
    rfl

theorem Local.bind (hp : Local tail next p) (hf : ∀ a, Local tail next (f a)) :
    Local tail next (p >>= f) where
  advances := hp.advances.bind fun a => (hf a).advances
  same {s b r} hr h := by
    obtain ⟨a, t, hs, ht⟩ := bind_eq_done.mp h
    rw [bind_of_done (hp.same (hr.of_suffix ((hf a).advances.of_done ht)) hs)]
    exact (hf a).same hr ht

/-- A part that does not take the brace leaves it for the part behind it. -/
theorem Firm.bind (hp : Stable next (Ahead tail) p (Ahead tail)) (h : p.Advances)
    (hf : ∀ a, Firm tail next (f a)) : Firm tail next (p >>= f) where
  toLocal := (Firm.of_stable hp h).toLocal.bind fun a => (hf a).toLocal
  refuses {s} hs hrefuses := by
    obtain hs' | ⟨a, r, hread, hr⟩ := refuses_bind_cases hrefuses
    · exact (hp.refuses s hs hs').bind
    · obtain ⟨hread, hahead⟩ := hp.keeps s a r hs hread
      exact refuses_bind_of_done hread ((hf a).refuses hahead hr)

/-- A sequence refuses only in its first part if the other parts do not refuse at all. -/
theorem Firm.bind_of_sure (hp : Firm tail next p) (hf : ∀ a, Local tail next (f a))
    (hsure : ∀ a s, ¬ (f a).Refuses s) : Firm tail next (p >>= f) where
  toLocal := hp.toLocal.bind hf
  refuses hs hrefuses := by
    obtain hs' | ⟨a, r, -, hr⟩ := refuses_bind_cases hrefuses
    · exact (hp.refuses hs hs').bind
    · exact absurd hr (hsure a r)

theorem not_refuses_pure {a : α} {s : List Char} : ¬ Refuses (pure a) s := by
  rintro ⟨e, h, -⟩
  cases h

theorem Firm.map (hp : Firm tail next p) (g : α → β) : Firm tail next (g <$> p) :=
  hp.bind_of_sure (fun _ => .pure _) fun _ _ => not_refuses_pure

theorem Local.or (hp : Firm tail next p) (hq : Local tail next q) :
    Local tail next (p.or q) where
  advances := hp.advances.or hq.advances
  same {s a r} hr h := by
    obtain h | ⟨e, h, he, hread⟩ := or_eq_done.mp h
    · exact or_of_done (hp.same hr h)
    · have hs : Ahead tail s := hr.of_suffix (hq.advances.of_done hread)
      rw [or_of_refuses (hp.refuses hs ⟨e, h, he⟩)]
      exact hq.same hr hread

theorem Firm.or (hp : Firm tail next p) (hq : Firm tail next q) : Firm tail next (p.or q) where
  toLocal := .or hp hq.toLocal
  refuses hs h := by
    obtain ⟨hp', hq'⟩ := refuses_or.mp h
    exact (hp.refuses hs hp').or (hq.refuses hs hq')

theorem Local.commit (hp : Local tail next p) : Firm tail next p.commit where
  advances := hp.advances.commit
  same hr h := commit_eq_done.mpr (hp.same hr (commit_eq_done.mp h))
  refuses _ h := absurd h not_refuses_commit

theorem Firm.context (hp : Firm tail next p) (c : Context) : Firm tail next (p.context c) where
  advances := hp.advances.context c
  same hr h := context_eq_done.mpr (hp.same hr (context_eq_done.mp h))
  refuses hs h := refuses_context.mpr (hp.refuses hs (refuses_context.mp h))

theorem Local.verify (hp : Local tail next p) (wanted : α → Bool) :
    Local tail next (p.verify wanted) where
  advances := hp.advances.verify wanted
  same hr h := by
    obtain ⟨h, ha⟩ := verify_eq_done.mp h
    exact verify_eq_done.mpr ⟨hp.same hr h, ha⟩

theorem Firm.many (hp : Firm tail next p) : Firm tail next p.many where
  advances := hp.advances.many
  refuses _ h := absurd h not_refuses_many
  same {s as r} hr h := by
    fun_induction Parser.many p s generalizing as with
    | case1 => cases h
    | case2 s e hf he =>
      cases h
      exact many_of_refuses (hp.refuses hr ⟨e, hf, by simpa using he⟩)
    | case3 s a r' hd hlt as' r'' hm ih =>
      cases h
      have hr' : Ahead tail r' := hr.of_suffix (hp.advances.many.of_done hm)
      exact many_of_done (hp.same hr' hd) (by simpa using hlt) (ih hm)
    | case4 => cases h
    | case5 s a r' hd hlt =>
      cases h
      -- A round that reads nothing leaves the whole text.
      obtain rfl : r' = r := (hp.advances.of_done hd).eq_of_length_le (by omega)
      rw [Parser.many, hp.same hr hd]
      simp

theorem Firm.many1 (hp : Firm tail next p) : Firm tail next p.many1 := by
  refine hp.bind_of_sure (fun _ => hp.many.toLocal.bind fun _ => .pure _) fun a s h => ?_
  obtain h | ⟨as, r, -, h⟩ := refuses_bind_cases h
  · exact not_refuses_many h
  · exact not_refuses_pure h

end Parser

open Phrasebook.Source.Parser

/-! ## Inline expressions -/

section Productions

variable {tail next : List Char}

theorem local_quoted : Local tail next quoted where
  advances := advances_quoted
  same {s cs r} hr h := by
    fun_induction quoted s generalizing cs with
    | case1 => cases h
    | case2 rest =>
      cases h
      exact quoted_close _
    | case3 => cases h
    | case4 rest d after hd _ _ ih =>
      obtain ⟨cs', hq, rfl⟩ := Outcome.map_eq_done.mp h
      have hescape : Firm tail next escape :=
        .of_stable ((guards_ahead tail).escape (.inr rfl)) advances_escape
      have hafter : Ahead tail after := hr.of_suffix (advances_quoted.of_done hq)
      rw [List.cons_append, quoted_escape (hescape.same hafter hd), ih hq, Outcome.map]
    | case5 => cases h
    | case6 c rest hquote hline hback ih =>
      obtain ⟨cs', hq, rfl⟩ := Outcome.map_eq_done.mp h
      rw [List.cons_append, quoted_cons hquote hline hback, ih hq, Outcome.map]

theorem firm_stringLiteral : Firm tail next stringLiteral :=
  .bind ((guards_ahead tail).char (by decide)) (advances_char _) fun _ =>
    (local_quoted.firm fun _ => not_refuses_quoted).map String.ofList

theorem firm_inline : Firm tail next inline := by
  have hguard := guards_ahead tail
  have hnumber : Firm tail next numberLiteral :=
    .of_stable (hguard.numberLiteral (.inr rfl)) advances_numberLiteral
  have hreference : Firm tail next reference :=
    .of_stable (hguard.reference (.inr rfl)) advances_reference
  have hargument : Firm tail next argumentName :=
    .of_stable (hguard.argumentName (.inr rfl)) advances_argumentName
  exact (firm_stringLiteral.map _).or <| (hnumber.map _).or <| (hreference.map _).or <|
    (Firm.bind (hguard.char (by decide)) (advances_char _) fun _ => hreference.map _).or <|
      hargument.map _

/-! ## Patterns and selections -/

variable {inner : Parser Expression} (hinner : Firm tail next inner)
include hinner

theorem firm_patternPart : Firm tail next (patternPart inner) := by
  have hguard := guards_ahead tail
  have hshelter := shelters_ahead tail next
  have hblock : Firm tail next blockText :=
    .of_stable (hshelter.blankBlock.bind fun _ => (hguard.takeWhile1 (by decide)).bind fun _ =>
      (hguard.satisfy (by decide)).bind fun _ => (hguard.takeWhile (by decide)).bind fun _ =>
        .pure _) advances_blockText
  have htext : Firm tail next inlineText :=
    .of_stable ((hguard.takeWhile1 (by decide)).bind fun _ => .pure _) advances_inlineText
  have hplaceable : Firm tail next (blockPlaceable inner) :=
    .bind hshelter.blankBlock advances_blankBlock fun _ =>
      .bind hshelter.takeWhile (advances_takeWhile _) fun _ =>
        hinner.bind_of_sure (fun _ => .pure _) fun _ _ => not_refuses_pure
  exact hblock.or <| hplaceable.or <|
    (hinner.bind_of_sure (fun _ => .pure _) fun _ _ => not_refuses_pure).or htext

theorem firm_patternOf : Firm tail next (patternOf inner) :=
  (firm_patternPart hinner).many1.bind_of_sure (fun _ => .pure _) fun _ _ => not_refuses_pure

omit hinner in
theorem stable_variantKey_ahead : Stable next (Ahead tail) variantKey (Ahead tail) := by
  have hguard := guards_ahead tail
  have hblank := (shelters_ahead tail next).blank
  have hkey : Stable next (Ahead tail)
      ((VariantKey.number <$> numberLiteral).or (VariantKey.name <$> identifier)) (Ahead tail) :=
    ((hguard.numberLiteral (.inr rfl)).map _).or ((hguard.identifier (.inr rfl)).map _)
  exact (hguard.char (by decide)).bind fun _ =>
    (hblank.bind fun _ => hkey.bind fun _ => hblank.bind fun _ =>
      (hguard.char (by decide)).bind fun _ => .pure _).keeps.commit.label _

theorem firm_variant : Firm tail next (variant inner) := by
  have hguard := guards_ahead tail
  have hshelter := shelters_ahead tail next
  have hspaces : Stable next (Ahead tail) spaces (Ahead tail) :=
    hshelter.takeWhile.bind fun _ => .pure _
  exact .bind hshelter.lineEnd advances_lineEnd fun _ =>
    .bind hshelter.blank advances_blank fun _ =>
      .bind ((hguard.char (by decide)).optional fun _ => id) (advances_char _).optional fun _ =>
        .bind stable_variantKey_ahead advances_variantKey fun _ =>
          .bind hspaces advances_spaces fun _ =>
            ((firm_patternOf hinner).commit.context _).bind_of_sure (fun _ => .pure _)
            fun _ _ => not_refuses_pure

/-- A selection behind its selector. -/
theorem firm_selection (selector : Inline) :
    Firm tail next (do
      blank
      literal ['-', '>']
      spaces
      let variants ← ((variant inner).many.verify oneDefault).commit
        |>.label "variant list" |>.expecting "exactly one default variant"
      lineEnd.commit.expecting "line break after the last variant"
      return Expression.select selector (variants.map (·.2)) (variants.findIdx (·.1))) := by
  have hguard := guards_ahead tail
  have hshelter := shelters_ahead tail next
  have hspaces : Stable next (Ahead tail) spaces (Ahead tail) :=
    hshelter.takeWhile.bind fun _ => .pure _
  have hend : Firm tail next (lineEnd.commit.expecting "line break after the last variant") :=
    (Firm.of_stable hshelter.lineEnd advances_lineEnd).commit.context _
  refine .bind hshelter.blank advances_blank fun _ =>
    .bind (hguard.literal (by decide)) (advances_literal _) fun _ =>
      .bind hspaces advances_spaces fun _ => ?_
  refine ((((firm_variant hinner).many.verify _).commit.context _).context _).bind_of_sure
    (fun _ => hend.toLocal.bind fun _ => .pure _) fun _ s h => ?_
  obtain h | ⟨_, _, -, h⟩ := refuses_bind_cases h
  · exact not_refuses_commit (refuses_expecting.mp h)
  · exact not_refuses_pure h

/-- An inline expression is the same when `next` follows; it is no selector there, because the
arrow would have to come from behind the brace. -/
theorem local_expression : Local tail next (expression inner) where
  advances := advances_expression hinner.advances
  same {s e r} hr h := by
    simp only [expression, or_eq_done] at h
    obtain h | ⟨e', hsel, hopen, h | ⟨e'', hin, hopen', h⟩⟩ := h
    · have hselection : Local tail next (selection inner) :=
        firm_inline.toLocal.bind fun i => (firm_selection hinner i).toLocal
      exact or_of_done (hselection.same hr h)
    · obtain ⟨i, hi, rfl⟩ := map_eq_done.mp h
      have hrefuses : (selection inner).Refuses (s ++ next) := by
        obtain ⟨e, hin, -⟩ | ⟨i', r', hi', harrow⟩ := refuses_bind_cases ⟨e', hsel, hopen⟩
        · rw [hi] at hin
          cases hin
        · rw [hi] at hi'
          cases hi'
          exact refuses_bind_of_done (firm_inline.same hr hi)
            ((firm_selection hinner i).refuses hr harrow)
      rw [expression, or_of_refuses hrefuses]
      exact or_of_done (map_of_done _ (firm_inline.same hr hi))
    · have hs : Ahead tail s := hr.of_suffix (hinner.advances.of_done h)
      have hrefuses : inline.Refuses (s ++ next) :=
        firm_inline.refuses hs (refuses_map.mp ⟨e'', hin, hopen'⟩)
      have hselection : (selection inner).Refuses (s ++ next) := hrefuses.bind
      rw [expression, or_of_refuses hselection, or_of_refuses (refuses_map.mpr hrefuses)]
      exact hinner.same hr h

end Productions

/-! ## Placeables -/

/-- Behind its brace a placeable fails for good. -/
theorem head_of_refuses_placeable {levels : Nat} {s : List Char}
    (h : (placeable levels).Refuses s) : s.head? ≠ some '{' := by
  cases levels with
  | zero =>
    obtain h | ⟨_, _, -, h⟩ := refuses_bind_cases h
    · exact refuses_char.mp h
    · exact absurd (refuses_context.mp (refuses_context.mp h)) not_refuses_commit
  | succ levels =>
    obtain h | ⟨_, _, -, h⟩ := refuses_bind_cases h
    · exact refuses_char.mp h
    · exact absurd (refuses_context.mp (refuses_context.mp h)) not_refuses_commit

theorem placeable_next {levels : Nat} {s r : List Char} {e : Expression}
    (h : placeable levels s = .done e r) (next : List Char) :
    placeable levels (s ++ next) = .done e (r ++ next) := by
  induction levels generalizing s r e with
  | zero =>
    obtain ⟨_, _, -, h⟩ := bind_eq_done.mp h
    cases h
  | succ levels ih =>
    -- The brace in front of `r` is ahead of everything inside.
    have hinner : Firm r next (placeable levels) := by
      refine ⟨⟨advances_placeable levels, fun _ h => ih h⟩, fun {s} hs hrefuses => ?_⟩
      refine refuses_placeable levels ?_
      have hne := (guards_ahead r).ne_nil hs
      have hhead := head_of_refuses_placeable hrefuses
      cases s with
      | nil => exact absurd rfl hne
      | cons c s => simpa using hhead
    have hblank {u : List Char} (hu : Ahead r u) := (shelters_ahead r next).skipBlank hu
    obtain ⟨_, t, hchar, hbody⟩ := bind_eq_done.mp h
    obtain rfl := char_eq_done.mp hchar
    simp only [expectingChar_eq_done, label_eq_done, commit_eq_done, bind_eq_done,
      char_eq_done] at hbody
    obtain ⟨_, t₁, ht₁, e', t₂, he, _, t₃, ht₃, _, t₄, hclose, hret⟩ := hbody
    cases ht₁
    cases ht₃
    cases hret
    have hahead : Ahead r t₂ := by
      rw [Ahead, ← hclose]
      exact skipBlank_suffix t₂
    have hread := (local_expression hinner).same hahead he
    have hstart : Ahead r t := (hahead.of_suffix
      ((advances_expression (advances_placeable levels)).of_done he)).of_suffix (skipBlank_suffix t)
    rw [List.cons_append, placeable, bind_of_done char_of_head]
    refine expectingChar_eq_done.mpr (label_eq_done.mpr (commit_eq_done.mpr ?_))
    have hfirst : blank (t ++ next) = .done () (skipBlank t ++ next) := by
      rw [blank, (hblank hstart).1]
    have hlast : blank (t₂ ++ next) = .done () ('}' :: (r ++ next)) := by
      rw [blank, (hblank hahead).1, hclose, List.cons_append]
    rw [bind_of_done hfirst, bind_of_done hread, bind_of_done hlast, bind_of_done char_of_head,
      pure_apply]

end Phrasebook.Source
