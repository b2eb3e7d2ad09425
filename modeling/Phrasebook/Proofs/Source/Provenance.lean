import Mathlib
import Phrasebook.Proofs.Keyed
import Phrasebook.Proofs.Rebuilding
import Phrasebook.Proofs.Resource.Occurrence
import Phrasebook.Proofs.Source.Segments

/-!
# Where patterns come from

Every pattern of a resource, at any depth, is the layout of a row that spells out a part of
the source. So what the layout leaves of a row can be told from the source: rebuilding any
pattern changes nothing, unless a line of the source ends with two carriage returns.

## Main definitions

* `Parser.Draws`: what a parser reads from the endings of one source.
* `Drawn`: a pattern that was read from some ending of a source.
* `Spells`: a row of pieces and a text that is the same but for the placeables.
-/

namespace Phrasebook

namespace Source

open Alphabet

namespace Parser

/-- From an ending of the source the parser reads values with the property `Q`, and it leaves
an ending again. -/
def Draws {α : Type} (source : List Char) (p : Parser α) (Q : α → Prop) : Prop :=
  ∀ s a r, s <:+ source → p s = .done a r → Q a ∧ r <:+ source

variable {α β : Type} {source : List Char} {p q : Parser α} {f : α → Parser β} {P Q : α → Prop}
  {R : β → Prop}

/-! ## Combinators -/

theorem Advances.draws (hp : p.Advances) : p.Draws source fun _ => True :=
  fun _ _ _ hs h => ⟨trivial, (hp.of_done h).trans hs⟩

theorem Draws.pure {a : α} (h : Q a) : Draws source (pure a) Q := by
  intro s b r hs hb
  cases hb
  exact ⟨h, hs⟩

theorem Draws.bind (hp : p.Draws source Q) (hf : ∀ a, Q a → (f a).Draws source R) :
    (p >>= f).Draws source R := by
  intro s b r hs h
  obtain ⟨a, r', ha, hb⟩ := bind_eq_done.mp h
  obtain ⟨hQ, hr'⟩ := hp s a r' hs ha
  exact hf a hQ r' b r hr' hb

/-- What is read and not used does not matter. -/
theorem Draws.after (hp : p.Advances) (hf : ∀ a, (f a).Draws source R) :
    (p >>= f).Draws source R :=
  hp.draws.bind fun a _ => hf a

theorem Draws.map (hp : p.Draws source Q) (g : α → β) (h : ∀ a, Q a → R (g a)) :
    (g <$> p).Draws source R :=
  hp.bind fun a ha => .pure (h a ha)

theorem Draws.or (hp : p.Draws source Q) (hq : q.Draws source Q) : (p.or q).Draws source Q := by
  intro s a r hs h
  rcases or_eq_done.mp h with h | ⟨-, -, -, h⟩
  · exact hp s a r hs h
  · exact hq s a r hs h

theorem Draws.optional (hp : p.Draws source Q) :
    p.optional.Draws source fun o => ∀ a ∈ o, Q a := by
  intro s o r hs h
  rcases optional_eq_done.mp h with ⟨a, rfl, hread⟩ | ⟨rfl, rfl, -⟩
  · obtain ⟨ha, hr⟩ := hp s a r hs hread
    exact ⟨by simpa using ha, hr⟩
  · exact ⟨by simp, hs⟩

theorem Draws.commit (hp : p.Draws source Q) : p.commit.Draws source Q :=
  fun s a r hs h => hp s a r hs (commit_eq_done.mp h)

theorem Draws.context (hp : p.Draws source Q) (c : Context) : (p.context c).Draws source Q :=
  fun s a r hs h => hp s a r hs (context_eq_done.mp h)

theorem Draws.label (hp : p.Draws source Q) (name : String) : (p.label name).Draws source Q :=
  hp.context _

theorem Draws.expecting (hp : p.Draws source Q) (text : String) :
    (p.expecting text).Draws source Q :=
  hp.context _

theorem Draws.verify (hp : p.Draws source Q) (wanted : α → Bool) :
    (p.verify wanted).Draws source Q :=
  fun s a r hs h => hp s a r hs (verify_eq_done.mp h).1

theorem Draws.many (hp : p.Draws source Q) : p.many.Draws source fun as => ∀ a ∈ as, Q a := by
  intro s as r hs h
  fun_induction Parser.many p s generalizing as with
  | case1 => cases h
  | case2 =>
    cases h
    exact ⟨by simp, hs⟩
  | case3 s a r' hd hlt as' r'' hm ih =>
    cases h
    obtain ⟨ha, hr'⟩ := hp s a r' hs hd
    obtain ⟨has, hr⟩ := ih as' hr' hm
    exact ⟨List.forall_mem_cons.mpr ⟨ha, has⟩, hr⟩
  | case4 => cases h
  | case5 =>
    cases h
    exact ⟨by simp, hs⟩

theorem Draws.many1 (hp : p.Draws source Q) : p.many1.Draws source fun as => ∀ a ∈ as, Q a :=
  hp.bind fun _ ha => hp.many.bind fun _ has => .pure (List.forall_mem_cons.mpr ⟨ha, has⟩)

end Parser

open Phrasebook.Source.Parser

/-! ## Patterns -/

/-- A pattern that was read from some ending of a source. -/
def Drawn (source : List Char) (q : Pattern) : Prop :=
  ∃ inner t r, Parser.Advances inner ∧ t <:+ source ∧ patternOf inner t = .done q r

section

variable {source : List Char} {inner : Parser Expression}

theorem draws_patternPart {E : Expression → Prop} (hinner : inner.Draws source E) :
    (patternPart inner).Draws source fun part => ∀ e, .placeable e ∈ part → E e := by
  have hblockText : blockText.Draws source fun part => ∀ e, .placeable e ∈ part → E e :=
    .after advances_blankBlock fun _ => .after (advances_takeWhile1 _) fun _ =>
      .after (advances_satisfy _) fun _ => .after (advances_takeWhile _) fun _ => .pure (by simp)
  have hblockPlaceable :
      (blockPlaceable inner).Draws source fun part => ∀ e, .placeable e ∈ part → E e :=
    .after advances_blankBlock fun _ => .after (advances_takeWhile _) fun _ =>
      hinner.bind fun e he => .pure (by simpa using he)
  have hinlinePlaceable :
      (inlinePlaceable inner).Draws source fun part => ∀ e, .placeable e ∈ part → E e :=
    hinner.bind fun e he => .pure (by simpa using he)
  have hinlineText : inlineText.Draws source fun part => ∀ e, .placeable e ∈ part → E e :=
    .after (advances_takeWhile1 _) fun _ => .pure (by simp)
  exact hblockText.or <| hblockPlaceable.or <| hinlinePlaceable.or hinlineText

variable (hadvances : inner.Advances)
  (hinner : inner.Draws source fun e => ∀ q ∈ e.patterns, Drawn source q)
include hadvances hinner

theorem draws_patternOf :
    (patternOf inner).Draws source fun p => ∀ q ∈ p.patterns, Drawn source q := by
  -- The layout keeps no placeable that was not read.
  have hplaceables : (patternOf inner).Draws source fun p =>
      ∀ e, .placeable e ∈ p → ∀ q ∈ e.patterns, Drawn source q := by
    refine (draws_patternPart hinner).many1.bind fun parts hparts => .pure fun e he => ?_
    obtain ⟨part, hpart, he⟩ := List.mem_flatten.mp (Pattern.placeable_mem_layout he)
    exact hparts part hpart e he
  intro s p r hs h
  obtain ⟨hinside, hr⟩ := hplaceables s p r hs h
  refine ⟨fun q hq => ?_, hr⟩
  rcases List.mem_cons.mp hq with rfl | hq
  · exact ⟨inner, s, r, hadvances, hs, h⟩
  · obtain ⟨e, he, hq⟩ := Pattern.mem_innerPatterns.mp hq
    exact hinside e he q hq

theorem draws_variant :
    (variant inner).Draws source fun v => ∀ q ∈ v.2.value.patterns, Drawn source q :=
  .after advances_lineEnd fun _ => .after advances_blank fun _ =>
    .after (advances_char _).optional fun _ => .after advances_variantKey fun _ =>
      .after advances_spaces fun _ =>
        ((draws_patternOf hadvances hinner).commit.label _).bind fun _ hvalue => .pure hvalue

theorem draws_selection :
    (selection inner).Draws source fun e => ∀ q ∈ e.patterns, Drawn source q := by
  refine .after advances_inline fun _ => .after advances_blank fun _ =>
    .after (advances_literal _) fun _ => .after advances_spaces fun _ =>
      (((((draws_variant hadvances hinner).many.verify _).commit).label _).expecting _).bind
        fun variants hvariants => .after (advances_lineEnd.commit.expecting _) fun _ => .pure ?_
  intro q hq
  rw [Expression.patterns] at hq
  obtain ⟨v, hv, hq⟩ := Pattern.mem_variantsPatterns.mp hq
  obtain ⟨w, hw, rfl⟩ := List.mem_map.mp hv
  exact hvariants w hw q hq

end

variable {source : List Char}

theorem draws_placeable (levels : Nat) :
    (placeable levels).Draws source fun e => ∀ q ∈ e.patterns, Drawn source q := by
  induction levels with
  | zero =>
    refine .after (advances_char _) fun _ s e r _ h => ?_
    simp [fail] at h
  | succ levels ih =>
    have hinline : (Expression.inline <$> inline).Draws source fun e =>
        ∀ q ∈ e.patterns, Drawn source q :=
      advances_inline.draws.map _ fun i _ q hq => by simp [Expression.patterns] at hq
    have hexpression := (draws_selection (advances_placeable levels) ih).or (hinline.or ih)
    exact .after (advances_char _) fun _ => ((Draws.after advances_blank fun _ =>
      hexpression.bind fun _ he => .after advances_blank fun _ =>
        .after (advances_char _) fun _ => .pure he).commit.label _).context _

theorem draws_pattern : pattern.Draws source fun p => ∀ q ∈ p.patterns, Drawn source q :=
  draws_patternOf (advances_placeable _) (draws_placeable _)

/-! ## Entries -/

theorem draws_attributeLine :
    attributeLine.Draws source fun a => ∀ q ∈ a.value.patterns, Drawn source q :=
  .after advances_lineEnd fun _ => .after advances_blank fun _ => .after (advances_char _) fun _ =>
    (Draws.after advances_identifier fun _ => .after advances_spaces fun _ =>
      .after (advances_char _) fun _ => .after advances_spaces fun _ =>
        draws_pattern.bind fun _ hvalue => .pure hvalue).commit.label _

/-- Merging repeated attributes brings in no patterns. -/
theorem drawn_merge {attributes : List Attribute}
    (h : ∀ a ∈ attributes, ∀ q ∈ a.value.patterns, Drawn source q) :
    ∀ a ∈ Attribute.merge attributes, ∀ q ∈ a.value.patterns, Drawn source q := by
  intro a ha
  rcases Keyed.mem_putAll ha with ha | ha
  · exact h a ha
  · cases ha

theorem draws_message :
    message.Draws source fun m => ∀ q ∈ (Entry.message m).patterns, Drawn source q := by
  refine .after advances_identifier fun _ => .after advances_spaces fun _ =>
    .after (advances_char _) fun _ => .after advances_spaces fun _ =>
      draws_pattern.optional.bind fun value hvalue => draws_attributeLine.many.bind
        fun attributes hattributes => ?_
  split
  · intro s m r _ h
    simp [fail] at h
  · refine .after advances_entryEnd fun _ => .pure fun q hq => ?_
    obtain ⟨p, hp, hinner⟩ := List.mem_flatMap.mp hq
    rcases List.mem_append.mp hp with hp | hp
    · exact hvalue p (by simpa [Message.make] using hp) q hinner
    · obtain ⟨a, ha, rfl⟩ := List.mem_map.mp hp
      exact drawn_merge hattributes a ha q hinner

theorem draws_term : term.Draws source fun t => ∀ q ∈ (Entry.term t).patterns, Drawn source q := by
  refine .after (advances_char _) fun _ => .after advances_identifier fun _ =>
    .after advances_spaces fun _ => .after (advances_char _) fun _ =>
      .after advances_spaces fun _ => ((draws_pattern.commit.label _).expecting _).bind
        fun value hvalue => draws_attributeLine.many.bind fun attributes hattributes =>
          .after advances_entryEnd fun _ => .pure fun q hq => ?_
  obtain ⟨p, hp, hinner⟩ := List.mem_flatMap.mp hq
  rcases List.mem_cons.mp hp with rfl | hp
  · exact hvalue q hinner
  · obtain ⟨a, ha, rfl⟩ := List.mem_map.mp hp
    exact drawn_merge hattributes a ha q hinner

theorem draws_comment (level : CommentLevel) :
    (Entry.comment <$> comment level).Draws source fun e => ∀ q ∈ e.patterns, Drawn source q :=
  (advances_comment level).draws.map _ fun c _ q hq => by simp [Entry.patterns] at hq

theorem draws_commented :
    Parser.Draws source commented fun e => ∀ q ∈ e.patterns, Drawn source q := by
  intro s e r hs h
  refine ⟨?_, (advances_commented.of_done h).trans hs⟩
  obtain ⟨c, rest, hc, hcases⟩ := commented_cases h
  have hrest : rest <:+ source := ((advances_comment .entry).of_done hc).trans hs
  rcases hcases with ⟨t, ht, rfl⟩ | ⟨m, -, hm, rfl⟩ | ⟨-, -, rfl, -⟩
  · exact (draws_term rest t r hrest ht).1
  · exact (draws_message rest m r hrest hm).1
  · simp [Entry.patterns]

theorem draws_entry : entry.Draws source fun e => ∀ q ∈ e.patterns, Drawn source q :=
  (draws_comment .resource).or <| (draws_comment .group).or <| draws_commented.or <|
    (draws_term.map Entry.term fun _ h => h).or <| draws_message.map Entry.message fun _ h => h

theorem entries_drawn {mode : Mode} {s : List Char} {body : List Entry} (hs : s <:+ source)
    (h : entries mode source s = .ok body) : ∀ e ∈ body, ∀ q ∈ e.patterns, Drawn source q := by
  fun_induction entries mode source s generalizing body with
  | case1 =>
    cases h
    simp
  | case2 s _ e rest he hlt ih =>
    obtain ⟨others, hothers, rfl⟩ := map_eq_ok.mp h
    obtain ⟨hdrawn, hrest⟩ := draws_entry s e rest hs he
    have hskip := (skipBlankLines_spec rest).1.suffix.trans hrest
    exact List.forall_mem_cons.mpr ⟨hdrawn, ih hskip hothers⟩
  | case3 s _ e rest he =>
    cases h
    simpa using (draws_entry s e rest hs he).1
  | case4 => cases h
  | case5 s _ failure he note hmode j =>
    rename_i ih
    rw [← hmode] at h
    obtain ⟨others, hothers, rfl⟩ := map_eq_ok.mp h
    have hjunk := (wholeLines_junk s).suffix.trans hs
    have hskip := (skipBlankLines_spec j.2).1.suffix.trans hjunk
    exact List.forall_mem_cons.mpr ⟨by simp [Entry.patterns], ih hskip hothers⟩

/-- All patterns of a resource, at every depth, were read from endings of its source. -/
theorem drawn_of_parse {mode : Mode} {text : String} {r : Resource}
    (h : Resource.parse mode text = .ok r) :
    ∀ q ∈ r.patterns, Drawn (dropByteOrderMark text.toList) q := by
  intro q hq
  obtain ⟨e, he, hq⟩ := List.mem_flatMap.mp hq
  exact entries_drawn (skipBlankLines_spec _).1.suffix (parse_eq_ok.mp h) e he q hq

/-! ## Spelling -/

/-- A row that spells out a text; a placeable stands for any part of it. -/
inductive Spells : List Piece → List Char → Prop
  | nil : Spells [] []
  | char {c : Char} {ps : List Piece} {s : List Char} : Spells ps s →
      Spells (.char c :: ps) (c :: s)
  | placeable {e : Expression} {ps : List Piece} {s : List Char} (part : List Char) :
      Spells ps s → Spells (.placeable e :: ps) (part ++ s)

namespace Spells

variable {ps qs : List Piece} {s t : List Char}

theorem append (h : Spells ps s) (g : Spells qs t) : Spells (ps ++ qs) (s ++ t) := by
  induction h with
  | nil => exact g
  | char _ ih => exact .char ih
  | placeable part _ ih =>
    rw [List.append_assoc]
    exact .placeable part ih

theorem chars (s : List Char) : Spells (s.map .char) s := by
  induction s with
  | nil => exact .nil
  | cons c s ih => exact .char ih

/-- Characters that are neighbours in the row are neighbours in the text. -/
theorem prefix_of_chars {cs : List Char} (h : Spells ps s) (hcs : cs.map .char <+: ps) :
    cs <+: s := by
  induction cs generalizing ps s with
  | nil => exact List.nil_prefix
  | cons c cs ih =>
    obtain ⟨rest, rfl⟩ := hcs
    -- The row starts with a character, so it is no placeable that spells it.
    cases h with
    | char h => exact List.cons_prefix_cons.mpr ⟨rfl, ih h ⟨rest, rfl⟩⟩

theorem infix_of_chars {cs : List Char} (h : Spells ps s) (hcs : cs.map .char <:+: ps) :
    cs <:+: s := by
  induction h with
  | nil => simpa using hcs
  | @char c ps s h ih =>
    rcases List.infix_cons_iff.mp hcs with hcs | hcs
    · exact (h.char.prefix_of_chars hcs).isInfix
    · exact (ih hcs).trans (List.suffix_cons c s).isInfix
  | @placeable e ps s part h ih =>
    rcases List.infix_cons_iff.mp hcs with hcs | hcs
    · exact ((h.placeable part).prefix_of_chars hcs).isInfix
    · exact (ih hcs).trans (List.suffix_append part s).isInfix

end Spells

theorem Spells.parts {part : Pattern} {parts : List Pattern} {u v : List Char}
    (hu : Spells part.pieces u) (hv : Spells (Pattern.pieces parts.flatten) v) :
    Spells (Pattern.pieces (part :: parts).flatten) (u ++ v) := by
  rw [List.flatten_cons, Pattern.pieces_append]
  exact hu.append hv

/-- A parser that reads parts of a pattern as they are spelled. -/
def SpellsOut (p : Parser Pattern) : Prop :=
  ∀ s part r, p s = .done part r → ∃ u, s = u ++ r ∧ Spells part.pieces u

theorem SpellsOut.or {p q : Parser Pattern} (hp : SpellsOut p) (hq : SpellsOut q) :
    SpellsOut (p.or q) := by
  intro s part r h
  rcases or_eq_done.mp h with h | ⟨-, -, -, h⟩
  · exact hp s part r h
  · exact hq s part r h

theorem SpellsOut.many {p : Parser Pattern} (hp : SpellsOut p) {s r : List Char}
    {parts : List Pattern} (h : p.many s = .done parts r) :
    ∃ u, s = u ++ r ∧ Spells (Pattern.pieces parts.flatten) u := by
  fun_induction Parser.many p s generalizing parts with
  | case1 => cases h
  | case2 =>
    cases h
    exact ⟨[], rfl, .nil⟩
  | case3 s part r' hd hlt parts' r'' hm ih =>
    cases h
    obtain ⟨u, rfl, hu⟩ := hp s part r' hd
    obtain ⟨v, rfl, hv⟩ := ih hm
    exact ⟨u ++ v, (List.append_assoc u v r).symm, hu.parts hv⟩
  | case4 => cases h
  | case5 =>
    cases h
    exact ⟨[], rfl, .nil⟩

theorem SpellsOut.many1 {p : Parser Pattern} (hp : SpellsOut p) {s r : List Char}
    {parts : List Pattern} (h : p.many1 s = .done parts r) :
    ∃ u, s = u ++ r ∧ Spells (Pattern.pieces parts.flatten) u := by
  obtain ⟨part, t, parts', hpart, hmany, rfl⟩ := many1_eq_done.mp h
  obtain ⟨u, rfl, hu⟩ := hp s part t hpart
  obtain ⟨v, rfl, hv⟩ := hp.many hmany
  exact ⟨u ++ v, (List.append_assoc u v r).symm, hu.parts hv⟩

theorem eq_append_of_blankBlock {s u r : List Char} (h : blankBlock s = .done u r) :
    s = u ++ r := by
  unfold blankBlock at h
  split at h
  · cases h
  · next heq =>
    cases h
    rw [← blankLines_append s, heq]

theorem eq_append_of_takeWhile1 {wanted : Char → Bool} {s u r : List Char}
    (h : takeWhile1 wanted s = .done u r) : s = u ++ r := by
  obtain ⟨rfl, rfl⟩ := takeWhile1_eq_done h
  exact (List.takeWhile_append_dropWhile ..).symm

theorem spellsOut_inlineText : SpellsOut inlineText := by
  intro s part r h
  obtain ⟨u, r', hu, hpart⟩ := bind_eq_done.mp h
  cases hpart
  refine ⟨u, eq_append_of_takeWhile1 hu, ?_⟩
  rw [Pattern.pieces_text]
  exact .chars u

theorem spellsOut_blockText : SpellsOut blockText := by
  intro s part r h
  obtain ⟨lines, t, hlines, h⟩ := bind_eq_done.mp h
  obtain ⟨indent, t', hindent, h⟩ := bind_eq_done.mp h
  obtain ⟨c, t'', hc, h⟩ := bind_eq_done.mp h
  cases h
  obtain rfl := eq_append_of_blankBlock hlines
  obtain rfl := eq_append_of_takeWhile1 hindent
  obtain ⟨rfl, -⟩ := satisfy_eq_done.mp hc
  refine ⟨lines ++ indent ++ c :: t''.takeWhile isText, by simp, ?_⟩
  rw [Pattern.pieces_text]
  exact .chars _

section

variable {inner : Parser Expression} (hinner : inner.Advances)
include hinner

theorem spellsOut_inlinePlaceable : SpellsOut (inlinePlaceable inner) := by
  intro s part r h
  obtain ⟨e, r', he, hpart⟩ := bind_eq_done.mp h
  cases hpart
  obtain ⟨u, rfl⟩ := hinner.of_done he
  exact ⟨u, rfl, by simpa [Pattern.pieces] using Spells.nil.placeable u⟩

theorem spellsOut_blockPlaceable : SpellsOut (blockPlaceable inner) := by
  intro s part r h
  obtain ⟨lines, t, hlines, h⟩ := bind_eq_done.mp h
  obtain ⟨indent, t', hindent, h⟩ := bind_eq_done.mp h
  obtain ⟨e, t'', he, h⟩ := bind_eq_done.mp h
  cases h
  cases hindent
  obtain rfl := eq_append_of_blankBlock hlines
  obtain ⟨u, hu⟩ := hinner.of_done he
  refine ⟨lines ++ t.takeWhile isBlank ++ u, ?_, ?_⟩
  · rw [List.append_assoc, hu, List.append_assoc, List.takeWhile_append_dropWhile]
  · rw [Pattern.pieces_text_cons, String.toList_ofList, Pattern.pieces_placeable_cons]
    exact (Spells.chars _).append (by simpa [Pattern.pieces] using Spells.nil.placeable u)

theorem spellsOut_patternPart : SpellsOut (patternPart inner) :=
  spellsOut_blockText.or <| (spellsOut_blockPlaceable hinner).or <|
    (spellsOut_inlinePlaceable hinner).or spellsOut_inlineText

end

/-! ## Rebuilding what was read -/

theorem Drawn.merged {source : List Char} {q : Pattern} (h : Drawn source q) : q.Merged := by
  obtain ⟨inner, t, r, -, -, hread⟩ := h
  obtain ⟨parts, r', -, hq⟩ := bind_eq_done.mp hread
  cases hq
  exact Pattern.merged_ofPieces _

/-- A pattern that was read has a carriage return in front of a line feed only where the source
has two. -/
theorem Drawn.two_returns {source : List Char} {q : Pattern} (h : Drawn source q)
    (hpair : [.char '\r', .char '\n'] <:+: q.pieces) : ['\r', '\r', '\n'] <:+: source := by
  obtain ⟨inner, t, r, hinner, ht, hread⟩ := h
  obtain ⟨parts, r', hparts, hq⟩ := bind_eq_done.mp hread
  cases hq
  rw [Pattern.layout, Pattern.pieces_ofPieces] at hpair
  -- The layout worked on a row that spells out the text from `t` to what was left of it.
  obtain ⟨u, rfl, hspells⟩ := (spellsOut_patternPart hinner).many1 hparts
  have hrow : ['\r', '\r', '\n'] <:+: u :=
    hspells.infix_of_chars (Pattern.pair_infix_layoutPieces hpair)
  exact hrow.trans ((List.prefix_append u r).isInfix.trans ht.isInfix)

theorem dropByteOrderMark_suffix (s : List Char) : dropByteOrderMark s <:+ s := by
  unfold dropByteOrderMark
  split
  · exact List.suffix_cons _ _
  · exact List.suffix_rfl

end Source

open Source

/-- Merging what was merged before changes nothing, unless two carriage returns stood in front
of a line feed. The same is true of every pattern that was read, since only such a line end in
the text leaves a pattern with one that merging would change. -/
theorem Pattern.merge_again (p : Pattern) (mode : Mode) (text : String) :
    (p.merge.merge = p.merge ↔ ¬ [.char '\r', .char '\r', .char '\n'] <:+: p.pieces) ∧
    ∀ r, Resource.parse mode text = .ok r → ∀ q ∈ r.patterns,
      (q.merge = q ↔ ¬ [.char '\r', .char '\n'] <:+: q.pieces) ∧
      (¬ ['\r', '\r', '\n'] <:+: text.toList → q.merge = q) := by
  refine ⟨merge_merge_eq_iff p, fun r hparse q hq => ?_⟩
  have hdrawn := drawn_of_parse hparse q hq
  have hmerge := merge_eq_self_iff hdrawn.merged
  refine ⟨hmerge, fun htext => hmerge.mpr fun hpair => htext ?_⟩
  exact (hdrawn.two_returns hpair).trans (dropByteOrderMark_suffix _).isInfix

/-- A selection over lines that all end with a carriage return and a line feed. -/
theorem Pattern.merge_again_lines : ∃ r,
    Resource.parse .strict "a = b\r\n  c\x7b $d ->\r\n *[e] f\r\n  g\r\n\x7d\r\n" = .ok r ∧
      [.text "f\ng"] ∈ r.patterns ∧ ∀ p ∈ r.patterns, p.merge = p := by
  have hread : Resource.parse .strict
      "a = b\r\n  c\x7b $d ->\r\n *[e] f\r\n  g\r\n\x7d\r\n" =
      .ok ⟨[.message ⟨"a", some [.text "b\nc",
        .placeable (.select (.argument "d") [⟨.name "e", [.text "f\ng"]⟩] 0)], [], none⟩]⟩ := by
    cbv
  refine ⟨_, hread, by simp [Resource.patterns, Entry.patterns, Pattern.patterns,
    innerPatterns, Expression.patterns, variantsPatterns], fun p hp => ?_⟩
  exact ((Pattern.merge_again p _ _).2 _ hread p hp).2 (by simp [List.infix_cons_iff])

/-- Of two carriage returns one is left, and the next merge takes it. -/
theorem Pattern.merge_again_two_returns :
    Pattern.merge (Pattern.merge [.text "\r\r\n"]) ≠ Pattern.merge [.text "\r\r\n"] ∧
    ∃ p, Resource.parse .strict "a = b\r\r\n  c\n" = .ok ⟨[.message ⟨"a", some p, [], none⟩]⟩ ∧
      p.merge ≠ p := by
  have hone : Pattern.merge [.text "\r\r\n"] = [.text "\r\n"] := by cbv
  have hnone : Pattern.merge [.text "\r\n"] = [.text "\n"] := by cbv
  have hread : Pattern.merge [.text "b\r\nc"] = [.text "b\nc"] := by cbv
  rw [hone, hnone]
  refine ⟨by simp, [.text "b\r\nc"], by cbv, ?_⟩
  rw [hread]
  simp

end Phrasebook
