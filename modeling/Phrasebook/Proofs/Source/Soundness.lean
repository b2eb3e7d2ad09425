import Mathlib
import Phrasebook.Proofs.Keyed
import Phrasebook.Proofs.Layout
import Phrasebook.Proofs.Source.Grammar
import Phrasebook.Source.Document

/-!
# Every resource that is read is well formed

Each production yields values with a property of their own, whatever text it reads them
from. The properties add up to the well-formedness of whole resources, in both modes.
-/

namespace Phrasebook

namespace Source

open Alphabet

/-- Everything that a parser reads has the property `Q`. -/
def Parser.Yields {α : Type} (p : Parser α) (Q : α → Prop) : Prop :=
  ∀ s a r, p s = .done a r → Q a

namespace Parser

variable {α β : Type} {p q : Parser α} {f : α → Parser β} {P Q : α → Prop} {R : β → Prop}

/-! ## Combinators -/

theorem Yields.any (p : Parser α) : p.Yields fun _ => True := fun _ _ _ _ => trivial

theorem Yields.mono (hp : p.Yields P) (h : ∀ a, P a → Q a) : p.Yields Q :=
  fun s a r hs => h a (hp s a r hs)

theorem Yields.pure {a : α} (h : Q a) : Yields (pure a) Q := by
  intro s b r hs
  cases hs
  exact h

theorem Yields.bind (hp : p.Yields Q) (hf : ∀ a, Q a → (f a).Yields R) : (p >>= f).Yields R := by
  intro s b r h
  obtain ⟨a, r', ha, hb⟩ := bind_eq_done.mp h
  exact hf a (hp s a r' ha) r' b r hb

/-- What is read and not used does not matter. -/
theorem Yields.after (hf : ∀ a, (f a).Yields R) : (p >>= f).Yields R :=
  (Yields.any p).bind fun a _ => hf a

theorem Yields.map (hp : p.Yields Q) (g : α → β) (h : ∀ a, Q a → R (g a)) :
    (g <$> p).Yields R := by
  intro s b r hs
  obtain ⟨a, ha, rfl⟩ := map_eq_done.mp hs
  exact h a (hp s a r ha)

theorem Yields.or (hp : p.Yields Q) (hq : q.Yields Q) : (p.or q).Yields Q := by
  intro s a r h
  obtain h | ⟨-, -, -, h⟩ := or_eq_done.mp h
  · exact hp s a r h
  · exact hq s a r h

theorem Yields.optional (hp : p.Yields Q) : p.optional.Yields fun o => ∀ a, o = some a → Q a := by
  rintro s o r h a rfl
  obtain ⟨a', ha, h⟩ | ⟨ha, -, -⟩ := optional_eq_done.mp h
  · cases ha
    exact hp s a r h
  · cases ha

theorem Yields.commit (hp : p.Yields Q) : p.commit.Yields Q :=
  fun s a r h => hp s a r (commit_eq_done.mp h)

theorem Yields.context (hp : p.Yields Q) (c : Context) : (p.context c).Yields Q :=
  fun s a r h => hp s a r (context_eq_done.mp h)

theorem Yields.label (hp : p.Yields Q) (name : String) : (p.label name).Yields Q :=
  hp.context _

theorem Yields.expecting (hp : p.Yields Q) (text : String) : (p.expecting text).Yields Q :=
  hp.context _

theorem Yields.verify (hp : p.Yields Q) (wanted : α → Bool) :
    (p.verify wanted).Yields fun a => Q a ∧ wanted a = true := by
  intro s a r h
  obtain ⟨h, ha⟩ := verify_eq_done.mp h
  exact ⟨hp s a r h, ha⟩

theorem Yields.many (hp : p.Yields Q) : p.many.Yields fun as => ∀ a ∈ as, Q a := by
  intro s as r h
  fun_induction Parser.many p s generalizing as with
  | case1 => cases h
  | case2 => cases h; simp
  | case3 s a r' hd hlt as' r'' hm ih =>
    cases h
    exact List.forall_mem_cons.mpr ⟨hp s a r' hd, ih as' hm⟩
  | case4 => cases h
  | case5 => cases h; simp

theorem Yields.many1 (hp : p.Yields Q) :
    p.many1.Yields fun as => as ≠ [] ∧ ∀ a ∈ as, Q a :=
  hp.bind fun a ha => hp.many.bind fun as has =>
    .pure ⟨by simp, List.forall_mem_cons.mpr ⟨ha, has⟩⟩

/-! ## Characters -/

theorem yields_satisfy (wanted : Char → Bool) :
    (satisfy wanted).Yields fun c => wanted c = true :=
  fun _ _ _ h => (satisfy_eq_done.mp h).2

theorem yields_takeWhile (wanted : Char → Bool) :
    (takeWhile wanted).Yields fun cs => ∀ c ∈ cs, wanted c = true := by
  intro s cs r h
  cases h
  exact List.all_eq_true.mp List.all_takeWhile

theorem yields_takeWhile1 (wanted : Char → Bool) :
    (takeWhile1 wanted).Yields fun cs => cs ≠ [] ∧ ∀ c ∈ cs, wanted c = true :=
  (yields_satisfy wanted).bind fun c hc => (yields_takeWhile wanted).bind fun cs hcs =>
    .pure ⟨by simp, List.forall_mem_cons.mpr ⟨hc, hcs⟩⟩

end Parser

open Phrasebook.Source.Parser

/-! ## Names and literals -/

theorem yields_identifier : identifier.Yields IsName :=
  (yields_satisfy isNameStart).bind fun c hc => (yields_takeWhile isNamePart).bind fun cs hcs =>
    .pure ⟨c, cs, by simp, hc, hcs⟩

theorem yields_numberLiteral : numberLiteral.Yields NumberLiteral.WellFormed := by
  refine .after fun minus => (yields_takeWhile1 isDigit).bind fun whole hwhole =>
    (Yields.optional (.after fun _ => yields_takeWhile1 isDigit)).bind fun fraction hfraction =>
      .pure ?_
  have hsign : (if minus.isSome then ['-'] else []) = [] ∨
      (if minus.isSome then ['-'] else []) = ['-'] := by
    cases minus <;> simp
  cases fraction with
  | none => exact ⟨_, whole, [], by simp, hsign, hwhole, .inl rfl⟩
  | some digits =>
    exact ⟨_, whole, '.' :: digits, by simp, hsign, hwhole, .inr ⟨digits, rfl, hfraction _ rfl⟩⟩

theorem yields_reference : reference.Yields Reference.WellFormed :=
  yields_identifier.bind fun _ hid =>
    (Yields.optional (.after fun _ => yields_identifier)).bind fun _ hattr => .pure ⟨hid, hattr⟩

theorem yields_argumentName : argumentName.Yields IsName :=
  .after fun _ => yields_identifier.commit.label _

theorem yields_inline : inline.Yields Inline.WellFormed :=
  ((Yields.any stringLiteral).map Inline.text fun _ _ => trivial).or <|
    (yields_numberLiteral.map Inline.number fun _ h => h).or <|
      (yields_reference.map Inline.message fun _ h => h).or <|
        (Yields.after fun _ => yields_reference.map Inline.term fun _ h => h).or <|
          yields_argumentName.map Inline.argument fun _ h => h

theorem yields_variantKey : variantKey.Yields VariantKey.WellFormed := by
  have hkey : ((VariantKey.number <$> numberLiteral).or
      (VariantKey.name <$> identifier)).Yields VariantKey.WellFormed :=
    (yields_numberLiteral.map VariantKey.number fun _ h => h).or
      (yields_identifier.map VariantKey.name fun _ h => h)
  exact .after fun _ => (Yields.after fun _ => hkey.bind fun _ hkey =>
    .after fun _ => .after fun _ => .pure hkey).commit.label _

/-! ## Patterns -/

/-- The parts that a pattern is put together from: texts without braces and expressions
with the property `E`. -/
def Loose (E : Expression → Prop) (p : Pattern) : Prop :=
  (∀ t, .text t ∈ p → ∀ c ∈ t.toList, c ≠ '{' ∧ c ≠ '}') ∧ ∀ e, .placeable e ∈ p → E e

theorem loose_text {E : Expression → Prop} {cs : List Char}
    (h : ∀ c ∈ cs, c ≠ '{' ∧ c ≠ '}') : Loose E [.text (String.ofList cs)] := by
  simpa [Loose] using h

theorem Loose.append {E : Expression → Prop} {p q : Pattern} (hp : Loose E p) (hq : Loose E q) :
    Loose E (p ++ q) := by
  simp only [Loose, List.mem_append]
  exact ⟨fun t ht => ht.elim (hp.1 t) (hq.1 t), fun e he => he.elim (hp.2 e) (hq.2 e)⟩

theorem loose_flatten {E : Expression → Prop} {parts : List Pattern}
    (h : ∀ p ∈ parts, Loose E p) : Loose E parts.flatten := by
  simp only [Loose, List.mem_flatten]
  exact ⟨fun t ⟨p, hp, ht⟩ => (h p hp).1 t ht, fun e ⟨p, hp, he⟩ => (h p hp).2 e he⟩

theorem loose_placeable {E : Expression → Prop} {e : Expression} (h : E e) :
    Loose E [.placeable e] := by
  simpa [Loose] using h

theorem Blank.ne_brace {s : List Char} (h : Blank s) : ∀ c ∈ s, c ≠ '{' ∧ c ≠ '}' := by
  induction h with
  | nil => simp
  | space _ ih => simpa using ih
  | lineFeed _ ih => simpa using ih
  | carriageReturn _ ih => simpa using ih

theorem yields_blankBlock : Parser.Yields blankBlock Blank := by
  intro s text r h
  unfold blankBlock at h
  have hblank := blank_blankLines s
  split at h
  · cases h
  · next heq =>
    cases h
    rwa [heq] at hblank

theorem ne_brace_of_isText {c : Char} (h : isText c = true) : c ≠ '{' ∧ c ≠ '}' := by
  simp [isText] at h
  exact ⟨h.1.1, h.1.2⟩

theorem ne_brace_of_isBlank {cs : List Char} (h : ∀ c ∈ cs, isBlank c = true) :
    ∀ c ∈ cs, c ≠ '{' ∧ c ≠ '}' :=
  (blank_of_all h).ne_brace

section Nested

variable {inner : Parser Expression} {E : Expression → Prop}

theorem yields_inlineText : inlineText.Yields (Loose E) :=
  (yields_takeWhile1 isText).bind fun _ h =>
    .pure (loose_text fun c hc => ne_brace_of_isText (h.2 c hc))

theorem yields_blockText : blockText.Yields (Loose E) := by
  refine yields_blankBlock.bind fun lines hlines =>
    (yields_takeWhile1 isBlank).bind fun indent hindent =>
      (yields_satisfy isLineOpening).bind fun c hc => (yields_takeWhile isText).bind fun cs hcs =>
        .pure (loose_text fun d hd => ?_)
  have hc : isText c = true := by
    simp [isLineOpening] at hc
    exact hc.1.1.1
  simp only [List.mem_append, List.mem_cons] at hd
  obtain (hd | hd) | rfl | hd := hd
  · exact hlines.ne_brace d hd
  · exact ne_brace_of_isBlank hindent.2 d hd
  · exact ne_brace_of_isText hc
  · exact ne_brace_of_isText (hcs d hd)

variable (hinner : inner.Yields E)
include hinner

theorem yields_blockPlaceable : (blockPlaceable inner).Yields (Loose E) := by
  refine yields_blankBlock.bind fun lines hlines => (yields_takeWhile isBlank).bind
    fun indent hindent => hinner.bind fun e he => .pure ?_
  have htext : ∀ c ∈ lines ++ indent, c ≠ '{' ∧ c ≠ '}' := fun c hc =>
    (List.mem_append.mp hc).elim (hlines.ne_brace c) (ne_brace_of_isBlank hindent c)
  exact (loose_text htext).append (loose_placeable he)

theorem yields_patternPart : (patternPart inner).Yields (Loose E) :=
  yields_blockText.or <| (yields_blockPlaceable hinner).or <|
    (hinner.bind fun _ he => .pure (loose_placeable he)).or yields_inlineText

theorem yields_patternOf :
    (patternOf inner).Yields fun p => p.Tidy ∧ ∀ e, .placeable e ∈ p → E e := by
  refine (yields_patternPart hinner).many1.bind fun parts hparts => .pure ?_
  have hloose := loose_flatten hparts.2
  exact ⟨Pattern.tidy_layout hloose.1, fun e he => hloose.2 e (Pattern.placeable_mem_layout he)⟩

theorem yields_variant :
    (variant inner).Yields fun v => v.2.key.WellFormed ∧ v.2.value.Tidy ∧
      ∀ e, .placeable e ∈ v.2.value → E e :=
  .after fun _ => .after fun _ => .after fun _ => yields_variantKey.bind fun _ hkey =>
    .after fun _ => ((yields_patternOf hinner).commit.label _).bind fun _ hvalue =>
      .pure ⟨hkey, hvalue⟩

end Nested

/-! ## Placeables -/

/-- A well-formed expression in placeables that are nested at most `n` deep. -/
def Fits (n : Nat) (e : Expression) : Prop :=
  e.Valid Pattern.Tidy ∧ e.depth 1 ≤ n

theorem yields_selection {inner : Parser Expression} {n : Nat} (hinner : inner.Yields (Fits n)) :
    (selection inner).Yields (Fits (n + 1)) := by
  refine yields_inline.bind fun selector hselector => .after fun _ => .after fun _ =>
    .after fun _ => ((((yields_variant hinner).many.verify oneDefault).commit.label _).expecting
      _).bind fun variants hvariants => .after fun _ => .pure ?_
  obtain ⟨hall, hdefault⟩ := hvariants
  have hindex : variants.findIdx (·.1) < (variants.map (·.2)).length := by
    rw [List.length_map, List.findIdx_lt_length]
    have : 0 < variants.countP (·.1) := by
      rw [oneDefault, beq_iff_eq] at hdefault
      omega
    simpa [List.countP_pos_iff] using this
  have hmem : ∀ v ∈ variants.map (·.2), v.key.WellFormed ∧ v.value.Tidy ∧
      ∀ e, .placeable e ∈ v.value → Fits n e := by
    intro v hv
    obtain ⟨w, hw, rfl⟩ := List.mem_map.mp hv
    exact hall w hw
  refine ⟨.select hselector hindex (fun v hv => ⟨(hmem v hv).1, (hmem v hv).2.1⟩)
    fun v hv e he => ((hmem v hv).2.2 e he).1, ?_⟩
  rw [Expression.depth, Nat.add_le_add_iff_right, variantsDepth_le_iff]
  exact fun v hv => elementsDepth_le_iff.mpr fun e he => ((hmem v hv).2.2 e he).2

theorem yields_placeable (levels : Nat) : (placeable levels).Yields (Fits levels) := by
  induction levels with
  | zero =>
    refine .after fun _ s e r h => ?_
    simp [fail] at h
  | succ levels ih =>
    have hinline : (Expression.inline <$> inline).Yields (Fits (levels + 1)) :=
      yields_inline.map _ fun _ h => ⟨.inline h, by simp [Expression.depth]⟩
    have hexpression : (expression (placeable levels)).Yields (Fits (levels + 1)) :=
      (yields_selection ih).or <| hinline.or <|
        ih.mono fun _ h => ⟨h.1, Nat.le_succ_of_le h.2⟩
    exact .after fun _ => ((Yields.after fun _ => hexpression.bind fun _ he =>
      .after fun _ => .after fun _ => .pure he).commit.label _).context _

/-! ## Entries -/

/-- A pattern as it was read: tidy at every depth, in placeables that are not nested too
deep. -/
def Kept (p : Pattern) : Prop :=
  p.Valid Pattern.Tidy ∧ p.placeableDepth ≤ maxNesting

def OneLine (line : String) : Prop :=
  '\n' ∉ line.toList

theorem yields_pattern : pattern.Yields Kept :=
  (yields_patternOf (yields_placeable maxNesting)).mono fun _ h =>
    ⟨⟨h.1, fun e he => (h.2 e he).1⟩, elementsDepth_le_iff.mpr fun e he => (h.2 e he).2⟩

theorem yields_attributeLine : attributeLine.Yields fun a => IsName a.id ∧ Kept a.value :=
  .after fun _ => .after fun _ => .after fun _ =>
    (yields_identifier.bind fun _ hid => .after fun _ => .after fun _ => .after fun _ =>
      yields_pattern.bind fun _ hvalue => .pure ⟨hid, hvalue⟩).commit.label _

/-- Merging repeated attributes leaves one of them for each id. -/
theorem attributesValid_merge {attributes : List Attribute}
    (h : ∀ a ∈ attributes, IsName a.id ∧ Kept a.value) :
    AttributesValid Kept (Attribute.merge attributes) := by
  have hmem : ∀ a ∈ Attribute.merge attributes, a ∈ attributes := fun a ha =>
    (Keyed.mem_putAll ha).resolve_right (List.not_mem_nil)
  exact ⟨fun a ha => (h a (hmem a ha)).1, fun a ha => (h a (hmem a ha)).2,
    Keyed.nodup_keys_putAll List.nodup_nil⟩

theorem attachedValid_none {L : String → Prop} : AttachedValid L none := by
  rintro c ⟨⟩

theorem yields_message : message.Yields (Message.Valid Kept OneLine) := by
  refine yields_identifier.bind fun id hid => .after fun _ => .after fun _ => .after fun _ =>
    yields_pattern.optional.bind fun value hvalue => yields_attributeLine.many.bind
      fun attributes hattributes => ?_
  split
  · intro s m r h
    simp [fail] at h
  · next hcontent =>
    refine .after fun _ => .pure ⟨hid, ?_, hvalue, attributesValid_merge hattributes,
      attachedValid_none⟩
    simp only [Message.make, Attribute.merge, ne_eq, Keyed.putAll_eq_nil, and_true]
    cases value <;> simp_all

theorem yields_term : term.Yields (Term.Valid Kept OneLine) :=
  .after fun _ => yields_identifier.bind fun _ hid => .after fun _ => .after fun _ =>
    .after fun _ => ((yields_pattern.commit.label _).expecting _).bind fun _ hvalue =>
      yields_attributeLine.many.bind fun _ hattributes => .after fun _ =>
        .pure ⟨hid, hvalue, attributesValid_merge hattributes, attachedValid_none⟩

theorem yields_commentLine (level : CommentLevel) : (commentLine level).Yields OneLine := by
  refine .after fun _ => (Yields.optional (.after fun _ => yields_takeWhile _)).bind
    fun content hcontent => .after fun _ => .pure ?_
  have hkept : ∀ c ∈ dropCarriageReturn (content.getD []), c ∈ content.getD [] := by
    intro c hc
    unfold dropCarriageReturn at hc
    split at hc
    · exact List.dropLast_subset _ hc
    · exact hc
  rw [OneLine, String.toList_ofList]
  intro hline
  cases content with
  | none => simpa using hkept _ hline
  | some cs => simpa using hcontent cs rfl _ (hkept _ hline)

theorem yields_comment (level : CommentLevel) :
    (comment level).Yields fun c => c.level = level ∧ c.Valid OneLine :=
  (yields_commentLine level).many1.bind fun _ h => .pure ⟨rfl, h.1, h.2⟩

theorem yields_commented : Parser.Yields commented (Entry.Valid Kept OneLine) := by
  intro s e r h
  obtain ⟨c, rest, hc, hcases⟩ := commented_cases h
  have hcomment := yields_comment .entry s c rest hc
  have hattached : AttachedValid OneLine (some c) := by
    rintro _ ⟨⟩
    exact hcomment
  obtain ⟨t, ht, rfl⟩ | ⟨m, -, hm, rfl⟩ | ⟨-, -, rfl, -⟩ := hcases
  · have ht := yields_term rest t r ht
    exact ⟨ht.name, ht.value, ht.attributes, hattached⟩
  · have hm := yields_message rest m r hm
    exact ⟨hm.name, hm.content, hm.value, hm.attributes, hattached⟩
  · exact hcomment.2

theorem yields_entry : entry.Yields (Entry.Valid Kept OneLine) :=
  ((yields_comment .resource).map Entry.comment fun _ h => h.2).or <|
    ((yields_comment .group).map Entry.comment fun _ h => h.2).or <|
      yields_commented.or <| (yields_term.map Entry.term fun _ h => h).or <|
        yields_message.map Entry.message fun _ h => h

/-! ## Resources -/

theorem entries_valid {mode : Mode} {source s : List Char} {body : List Entry}
    (h : entries mode source s = .ok body) : ∀ e ∈ body, e.Valid Kept OneLine := by
  fun_induction entries mode source s generalizing body with
  | case1 => cases h; simp
  | case2 s hs e rest he hlt ih =>
    obtain ⟨others, hothers, rfl⟩ := map_eq_ok.mp h
    exact List.forall_mem_cons.mpr ⟨yields_entry s e rest he, ih hothers⟩
  | case3 s hs e rest he =>
    cases h
    simpa using yields_entry s e rest he
  | case4 => cases h
  | case5 s hs failure he note hmode j =>
    rename_i ih
    rw [← hmode] at h
    obtain ⟨others, hothers, rfl⟩ := map_eq_ok.mp h
    exact List.forall_mem_cons.mpr ⟨trivial, ih hothers⟩

end Source

open Source

/-- Whatever is read is well formed, in both modes. -/
theorem Resource.parse_wellFormed {mode : Mode} {text : String} {r : Resource}
    (h : Resource.parse mode text = .ok r) : r.WellFormed :=
  fun e he => (entries_valid (parse_eq_ok.mp h) e he).mono fun p hp =>
    ⟨hp.1, Nat.le_trans p.selectDepth_le_placeableDepth hp.2⟩

/-- A malformed entry, and a message whose value has to be laid out. -/
theorem Resource.parse_wellFormed_recovered : ∃ r,
    Resource.parse .lenient
        "-> c\n# d\ne =\n  f\n    \x7b -1.5 ->\n *[o] v\n\x7d\n .b = y\n .b = z\n" = .ok r ∧
      r.body.length = 2 ∧ r.WellFormed := by
  have hread : Resource.parse .lenient
      "-> c\n# d\ne =\n  f\n    \x7b -1.5 ->\n *[o] v\n\x7d\n .b = y\n .b = z\n" =
      .ok ⟨[.junk ⟨"-> c\n", [⟨"expected a message, term or comment", ⟨1, 1⟩⟩]⟩,
        .message ⟨"e", some [.text "f\n  ",
          .placeable (.select (.number ⟨"-1.5"⟩) [⟨.name "o", [.text "v"]⟩] 0)],
          [⟨"b", [.text "z"]⟩], some ⟨.entry, ["d"]⟩⟩]⟩ := by
    cbv
  exact ⟨_, hread, rfl, Resource.parse_wellFormed hread⟩

end Phrasebook
