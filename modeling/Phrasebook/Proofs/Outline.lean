import Mathlib
import Phrasebook.Outline
import Phrasebook.Proofs.Source.Soundness

/-!
# Outlines determine what was read

The outline of a resource shows everything but the notes on its malformed entries. It has no
index for the default variant, only a mark on one of the variants, and it shows the lines of a
comment as one text. So two resources with the same outline are the same only because the
default of every selection is one of its variants, and because a comment has lines and none of
them holds a line feed, as is true of all resources that were read.

## Main definitions

* `Resource.unannotated`: a resource without the notes on its malformed entries.
-/

namespace Phrasebook

/-- Forget why an entry is malformed. -/
def Entry.unannotated : Entry → Entry
  | .junk j => .junk { j with annotations := [] }
  | e => e

def Resource.unannotated (r : Resource) : Resource :=
  ⟨r.body.map Entry.unannotated⟩

/-! ## Records, lists and parts that may be missing -/

theorem Tree.record_cons_inj {name : String} {a b : Tree} {as bs : List (String × Tree)} :
    Tree.record ((name, a) :: as) = .record ((name, b) :: bs) ↔
      a = b ∧ Tree.record as = .record bs := by
  simp

theorem Tree.eq_of_ofOption {α : Type} {f : α → Tree} {x y : Option α}
    (hnull : ∀ a, f a ≠ .null) (hf : ∀ a, x = some a → ∀ b, y = some b → f a = f b → a = b)
    (h : Tree.ofOption f x = Tree.ofOption f y) : x = y := by
  cases x with
  | none =>
    cases y with
    | none => rfl
    | some b => exact absurd h.symm (hnull b)
  | some a =>
    cases y with
    | none => exact absurd h (hnull a)
    | some b => rw [hf a rfl b rfl h]

/-- Lists whose members look alike are alike in what the looks of a member tell. -/
theorem map_eq_of_outlines {α β : Type} {f : α → Tree} {g : α → β} {xs ys : List α}
    (hf : ∀ x ∈ xs, ∀ y ∈ ys, f x = f y → g x = g y) (h : xs.map f = ys.map f) :
    xs.map g = ys.map g := by
  induction xs generalizing ys with
  | nil =>
    rw [List.map_nil, eq_comm, List.map_eq_nil_iff] at h
    rw [h]
  | cons x xs ih =>
    cases ys with
    | nil => cases h
    | cons y ys =>
      obtain ⟨hhead, htail⟩ := List.cons.inj h
      have htail := ih (fun x hx y hy => hf x (.tail _ hx) y (.tail _ hy)) htail
      rw [List.map_cons, List.map_cons, hf x (.head _) y (.head _) hhead, htail]

/-! ## Inline expressions -/

@[simp] theorem outlineName_inj {a b : String} : outlineName a = outlineName b ↔ a = b := by
  simp [outlineName]

theorem NumberLiteral.outline_inj {a b : NumberLiteral} : a.outline = b.outline ↔ a = b := by
  cases a
  cases b
  simp [NumberLiteral.outline]

theorem VariantKey.eq_of_outline : ∀ {a b : VariantKey}, a.outline = b.outline → a = b
  | .name _, .name _, h => by rw [outlineName_inj.mp h]
  | .number _, .number _, h => by rw [NumberLiteral.outline_inj.mp h]
  | .name _, .number _, h | .number _, .name _, h => by
    simp [VariantKey.outline, outlineName, NumberLiteral.outline] at h

theorem Reference.eq_of_outline {r s : Reference}
    (hattr : Tree.ofOption outlineName r.attr = Tree.ofOption outlineName s.attr)
    (hid : outlineName r.id = outlineName s.id) : r = s := by
  have hattr : r.attr = s.attr :=
    Tree.eq_of_ofOption (by simp [outlineName]) (fun _ _ _ _ => outlineName_inj.mp) hattr
  have hid : r.id = s.id := outlineName_inj.mp hid
  cases r
  cases s
  rw [Reference.mk.injEq]
  exact ⟨hid, hattr⟩

theorem Inline.eq_of_outline {i j : Inline} (h : i.outline = j.outline) : i = j := by
  cases i with
  | text value =>
    cases j with
    | text value' => simpa [Inline.outline] using h
    | _ => simp [Inline.outline, NumberLiteral.outline] at h
  | number literal =>
    cases j with
    | number literal' => rw [NumberLiteral.outline_inj.mp h]
    | _ => simp [Inline.outline, NumberLiteral.outline] at h
  | argument name =>
    cases j with
    | argument name' => simpa [Inline.outline] using h
    | _ => simp [Inline.outline, NumberLiteral.outline] at h
  | message r =>
    cases j with
    | message r' =>
      simp only [Inline.outline, Tree.record_cons_inj] at h
      obtain ⟨hattr, hid, -⟩ := h
      rw [Reference.eq_of_outline hattr hid]
    | _ => simp [Inline.outline, NumberLiteral.outline] at h
  | term r =>
    cases j with
    | term r' =>
      simp only [Inline.outline, Tree.record_cons_inj] at h
      obtain ⟨-, hattr, hid, -⟩ := h
      rw [Reference.eq_of_outline hattr hid]
    | _ => simp [Inline.outline, NumberLiteral.outline] at h

theorem Expression.inline_outline_ne_select {i selector : Inline}
    {variants : List (Variant Pattern)} {default : Nat} :
    (Expression.inline i).outline ≠ (Expression.select selector variants default).outline := by
  cases i <;> simp [Expression.outline, Inline.outline, NumberLiteral.outline]

/-! ## Selections and patterns -/

/-- Variants that look alike from the same index on have the mark at the same places. -/
theorem default_iff_of_outlineVariants {default default' index : Nat}
    {variants variants' : List (Variant Pattern)}
    (h : outlineVariants default index variants = outlineVariants default' index variants') :
    ∀ k < variants.length, index + k = default ↔ index + k = default' := by
  induction variants generalizing index variants' with
  | nil => simp
  | cons v variants ih =>
    cases variants' with
    | nil => cases h
    | cons v' variants' =>
      rw [outlineVariants, outlineVariants] at h
      obtain ⟨hfirst, hrest⟩ := List.cons.inj h
      intro k hk
      cases k with
      | zero => simpa using (Tree.record_cons_inj.mp hfirst).1
      | succ k =>
        have hmark := ih hrest k (by simpa using hk)
        rwa [Nat.add_right_comm] at hmark

section

variable {P : Pattern → Prop}

mutual

theorem Expression.eq_of_outline : ∀ e e' : Expression, e.Valid P → e'.Valid P →
    e.outline = e'.outline → e = e'
  | .inline _, .inline _, _, _, h => by rw [Inline.eq_of_outline h]
  | .inline _, .select .., _, _, h => absurd h Expression.inline_outline_ne_select
  | .select .., .inline _, _, _, h => absurd h.symm Expression.inline_outline_ne_select
  | .select selector variants default, .select selector' variants' default',
      .select _ hdefault _ hvalid, .select _ _ _ hvalid', h => by
    simp only [Expression.outline, Tree.record_cons_inj, Tree.list.injEq] at h
    obtain ⟨hselector, -, hvariants, -⟩ := h
    -- The default is one of the variants, so its mark is there.
    have hmark := default_iff_of_outlineVariants hvariants default hdefault
    obtain rfl : default = default' := by simpa using hmark
    rw [Inline.eq_of_outline hselector,
      eq_of_outlineVariants default 0 variants variants' hvalid hvalid' hvariants]
termination_by structural e => e

theorem eq_of_outlineVariants (default : Nat) :
    ∀ (index : Nat) (variants variants' : List (Variant Pattern)),
      (∀ v ∈ variants, ∀ e, .placeable e ∈ v.value → e.Valid P) →
      (∀ v ∈ variants', ∀ e, .placeable e ∈ v.value → e.Valid P) →
      outlineVariants default index variants = outlineVariants default index variants' →
        variants = variants'
  | _, [], [], _, _, _ => rfl
  | _, [], _ :: _, _, _, h | _, _ :: _, [], _, _, h => by simp [outlineVariants] at h
  | index, ⟨key, value⟩ :: variants, ⟨key', value'⟩ :: variants', hvalid, hvalid', h => by
    rw [outlineVariants, outlineVariants] at h
    obtain ⟨hfirst, hrest⟩ := List.cons.inj h
    simp only [outlinePattern, Tree.record_cons_inj, Tree.list.injEq] at hfirst
    obtain ⟨-, hkey, -, ⟨hvalue, -⟩, -⟩ := hfirst
    obtain ⟨hv, hvs⟩ := List.forall_mem_cons.mp hvalid
    obtain ⟨hv', hvs'⟩ := List.forall_mem_cons.mp hvalid'
    rw [VariantKey.eq_of_outline hkey, eq_of_outlineElements value value' hv hv' hvalue,
      eq_of_outlineVariants default (index + 1) variants variants' hvs hvs' hrest]
termination_by structural _ variants => variants

theorem eq_of_outlineElements : ∀ p p' : List (Element Expression),
    (∀ e, .placeable e ∈ p → e.Valid P) → (∀ e, .placeable e ∈ p' → e.Valid P) →
      outlineElements p = outlineElements p' → p = p'
  | [], [], _, _, _ => rfl
  | .text t :: p, .text t' :: p', hp, hp', h => by
    simp only [outlineElements, List.cons.injEq, Tree.record_cons_inj, Tree.text.injEq] at h
    obtain ⟨⟨-, ht, -⟩, hrest⟩ := h
    rw [ht, eq_of_outlineElements p p' (fun e he => hp e (.tail _ he))
      (fun e he => hp' e (.tail _ he)) hrest]
  | .placeable e :: p, .placeable e' :: p', hp, hp', h => by
    simp only [outlineElements, List.cons.injEq, Tree.record_cons_inj] at h
    obtain ⟨⟨he, -⟩, hrest⟩ := h
    rw [Expression.eq_of_outline e e' (hp e (.head _)) (hp' e' (.head _)) he,
      eq_of_outlineElements p p' (fun e he => hp e (.tail _ he))
        (fun e he => hp' e (.tail _ he)) hrest]
  | [], .text _ :: _, _, _, h | [], .placeable _ :: _, _, _, h | .text _ :: _, [], _, _, h
  | .placeable _ :: _, [], _, _, h | .text _ :: _, .placeable _ :: _, _, _, h
  | .placeable _ :: _, .text _ :: _, _, _, h => by
    simp [outlineElements] at h
termination_by structural p => p

end

theorem Pattern.eq_of_outline {p p' : Pattern} (hp : p.Valid P) (hp' : p'.Valid P)
    (h : p.outline = p'.outline) : p = p' := by
  simp only [Pattern.outline, outlinePattern, Tree.record_cons_inj, Tree.list.injEq] at h
  exact eq_of_outlineElements p p' hp.2 hp'.2 h.1

end

/-! ## Entries -/

open Source

/-- The lines of a comment can be read off its content. -/
theorem Comment.Valid.splitOn_content {c : Comment} (h : c.Valid OneLine) :
    c.content.toList.splitOn '\n' = c.lines.map String.toList := by
  rw [Comment.content, String.toList_intercalate]
  apply List.splitOn_intercalate
  · exact List.forall_mem_map.mpr h.lines
  · simpa using h.ne_nil

theorem Comment.eq_of_outline {c c' : Comment} (hc : c.Valid OneLine) (hc' : c'.Valid OneLine)
    (h : c.outline = c'.outline) : c = c' := by
  simp only [Comment.outline, Tree.record_cons_inj, Tree.text.injEq] at h
  obtain ⟨hcontent, htype, -⟩ := h
  have hlines : c.lines.map String.toList = c'.lines.map String.toList := by
    rw [← hc.splitOn_content, hcontent, hc'.splitOn_content]
  have hlevel : c.level = c'.level := by
    cases hl : c.level <;> cases hl' : c'.level <;> simp_all
  cases c
  cases c'
  rw [Comment.mk.injEq]
  exact ⟨hlevel, List.map_injective_iff.mpr (fun _ _ => String.toList_inj.mp) hlines⟩

theorem Comment.eq_of_attached {c c' : Option Comment} (hc : AttachedValid OneLine c)
    (hc' : AttachedValid OneLine c')
    (h : Tree.ofOption Comment.outline c = Tree.ofOption Comment.outline c') : c = c' := by
  refine Tree.eq_of_ofOption (by simp [Comment.outline]) (fun d hd d' hd' => ?_) h
  exact Comment.eq_of_outline (hc d hd).2 (hc' d' hd').2

theorem Attribute.eq_of_outline {a a' : Attribute} (ha : Kept a.value) (ha' : Kept a'.value)
    (h : a.outline = a'.outline) : a = a' := by
  simp only [Attribute.outline, Tree.record_cons_inj, outlineName_inj] at h
  obtain ⟨hid, -, hvalue, -⟩ := h
  cases a
  cases a'
  rw [Attribute.mk.injEq]
  exact ⟨hid, Pattern.eq_of_outline ha.1 ha'.1 hvalue⟩

theorem Attribute.eq_of_outlines {as as' : List Attribute} (has : AttributesValid Kept as)
    (has' : AttributesValid Kept as') (h : as.map Attribute.outline = as'.map Attribute.outline) :
    as = as' := by
  have hmap : as.map (fun a => a) = as'.map (fun a => a) :=
    map_eq_of_outlines (fun a ha a' ha' =>
      Attribute.eq_of_outline (has.value a ha) (has'.value a' ha')) h
  simpa using hmap

theorem Message.eq_of_outline {m m' : Message} (hm : m.Valid Kept OneLine)
    (hm' : m'.Valid Kept OneLine) (h : m.outline = m'.outline) : m = m' := by
  simp only [Message.outline, Tree.record_cons_inj, Tree.list.injEq, outlineName_inj] at h
  obtain ⟨hattributes, hcomment, hid, -, hvalue, -⟩ := h
  have hvalue : m.value = m'.value := by
    refine Tree.eq_of_ofOption (by simp [Pattern.outline, outlinePattern]) ?_ hvalue
    exact fun p hp p' hp' => Pattern.eq_of_outline (hm.value p hp).1 (hm'.value p' hp').1
  have hattributes := Attribute.eq_of_outlines hm.attributes hm'.attributes hattributes
  have hcomment := Comment.eq_of_attached hm.comment hm'.comment hcomment
  cases m
  cases m'
  rw [Message.mk.injEq]
  exact ⟨hid, hvalue, hattributes, hcomment⟩

theorem Term.eq_of_outline {t t' : Term} (ht : t.Valid Kept OneLine) (ht' : t'.Valid Kept OneLine)
    (h : t.outline = t'.outline) : t = t' := by
  simp only [Term.outline, Tree.record_cons_inj, Tree.list.injEq, outlineName_inj] at h
  obtain ⟨hattributes, hcomment, hid, -, hvalue, -⟩ := h
  have hvalue := Pattern.eq_of_outline ht.value.1 ht'.value.1 hvalue
  have hattributes := Attribute.eq_of_outlines ht.attributes ht'.attributes hattributes
  have hcomment := Comment.eq_of_attached ht.comment ht'.comment hcomment
  cases t
  cases t'
  rw [Term.mk.injEq]
  exact ⟨hid, hvalue, hattributes, hcomment⟩

theorem Entry.unannotated_eq_of_outline {e e' : Entry} (he : e.Valid Kept OneLine)
    (he' : e'.Valid Kept OneLine) (h : e.outline = e'.outline) :
    e.unannotated = e'.unannotated := by
  cases e with
  | message m =>
    cases e' with
    | message m' => rw [Message.eq_of_outline he he' h]
    | _ => simp [Entry.outline, Message.outline, Term.outline, Comment.outline, Junk.outline] at h
  | term t =>
    cases e' with
    | term t' => rw [Term.eq_of_outline he he' h]
    | _ => simp [Entry.outline, Message.outline, Term.outline, Comment.outline, Junk.outline] at h
  | comment c =>
    cases e' with
    | comment c' => rw [Comment.eq_of_outline he he' h]
    | _ => simp [Entry.outline, Message.outline, Term.outline, Comment.outline, Junk.outline] at h
  | junk j =>
    cases e' with
    | junk j' => simpa [Entry.outline, Junk.outline, Entry.unannotated] using h
    | _ => simp [Entry.outline, Message.outline, Term.outline, Comment.outline, Junk.outline] at h

theorem Entry.outline_unannotated (e : Entry) : e.unannotated.outline = e.outline := by
  cases e <;> rfl

/-! ## Resources -/

theorem Resource.outline_unannotated (r : Resource) : r.unannotated.outline = r.outline := by
  simp [Resource.unannotated, Resource.outline, Entry.outline_unannotated]

/-- Two resources that were read, in whatever mode, have the same outline if and only if they are
the same up to the notes on their malformed entries. -/
theorem Resource.outline_eq_iff_of_parse {mode mode' : Mode} {text text' : String}
    {r r' : Resource} (hr : Resource.parse mode text = .ok r)
    (hr' : Resource.parse mode' text' = .ok r') :
    r.outline = r'.outline ↔ r.unannotated = r'.unannotated := by
  have hvalid := entries_valid (parse_eq_ok.mp hr)
  have hvalid' := entries_valid (parse_eq_ok.mp hr')
  constructor
  · intro h
    simp only [Resource.outline, Tree.record_cons_inj, Tree.list.injEq] at h
    rw [Resource.unannotated, Resource.unannotated, Resource.mk.injEq]
    refine map_eq_of_outlines (fun e he e' he' => ?_) h.1
    exact Entry.unannotated_eq_of_outline (hvalid e he) (hvalid' e' he')
  · intro h
    rw [← r.outline_unannotated, h, r'.outline_unannotated]

/-- A malformed entry that was read on different lines, and a message with a selection. -/
theorem Resource.outline_eq_iff_of_parse_moved : ∃ r r',
    Resource.parse .lenient "-> c\n# d\n# e\nf = \x7b $n ->\n [0] g\n *[o] h\n\x7d\n" = .ok r ∧
    Resource.parse .lenient "\n-> c\n# d\n# e\nf = \x7b $n ->\n [0] g\n *[o] h\n\x7d\n" =
      .ok r' ∧
    r.junk ≠ r'.junk ∧ r.outline = r'.outline ∧ r.unannotated = r'.unannotated := by
  let message : Entry := .message ⟨"f", some [.placeable (.select (.argument "n")
    [⟨.number ⟨"0"⟩, [.text "g"]⟩, ⟨.name "o", [.text "h"]⟩] 1)], [], some ⟨.entry, ["d", "e"]⟩⟩
  let junk (line : Nat) : Entry :=
    .junk ⟨"-> c\n", [⟨"expected a message, term or comment", ⟨line, 1⟩⟩]⟩
  have hr : Resource.parse .lenient
      "-> c\n# d\n# e\nf = \x7b $n ->\n [0] g\n *[o] h\n\x7d\n" = .ok ⟨[junk 1, message]⟩ := by
    cbv
  have hr' : Resource.parse .lenient
      "\n-> c\n# d\n# e\nf = \x7b $n ->\n [0] g\n *[o] h\n\x7d\n" = .ok ⟨[junk 2, message]⟩ := by
    cbv
  have houtline : (⟨[junk 1, message]⟩ : Resource).outline = Resource.outline ⟨[junk 2, message]⟩ :=
    rfl
  exact ⟨_, _, hr, hr', by simp [Resource.junk, junk, message], houtline,
    (Resource.outline_eq_iff_of_parse hr hr').mp houtline⟩

end Phrasebook
