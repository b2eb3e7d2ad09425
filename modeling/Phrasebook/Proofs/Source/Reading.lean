import Phrasebook.Proofs.Layout
import Phrasebook.Proofs.Source.Spelling

/-!
# Reading what was written

Each production gives back what its writer wrote, and leaves the text behind it alone. A
name or a number ends where the next character cannot belong to it; a pattern ends at a
line break that no continuation line follows.
-/

namespace Phrasebook.Source

open Alphabet Phrasebook.Source.Parser

/-! ## Runs of characters -/

/-- No run of wanted characters goes on into the text. -/
def Stops (wanted : Char → Bool) (s : List Char) : Prop :=
  ∀ c, s.head? = some c → wanted c = false

theorem stops_cons {wanted : Char → Bool} {c : Char} {s : List Char} (h : wanted c = false) :
    Stops wanted (c :: s) := by
  rintro _ ⟨⟩
  exact h

theorem dropWhile_append {wanted : Char → Bool} {cs rest : List Char}
    (hcs : ∀ c ∈ cs, wanted c = true) (hrest : Stops wanted rest) :
    (cs ++ rest).dropWhile wanted = rest := by
  rw [List.dropWhile_append_of_pos hcs]
  cases rest with
  | nil => rfl
  | cons c s => simp [hrest c rfl]

theorem takeWhile_append {wanted : Char → Bool} {cs rest : List Char}
    (hcs : ∀ c ∈ cs, wanted c = true) (hrest : Stops wanted rest) :
    takeWhile wanted (cs ++ rest) = .done cs rest := by
  have hnil : rest.takeWhile wanted = [] := by
    cases rest with
    | nil => rfl
    | cons c s => simp [hrest c rfl]
  rw [takeWhile, dropWhile_append hcs hrest, List.takeWhile_append_of_pos hcs, hnil,
    List.append_nil]

theorem takeWhile1_append {wanted : Char → Bool} {cs rest : List Char} (hne : cs ≠ [])
    (hcs : ∀ c ∈ cs, wanted c = true) (hrest : Stops wanted rest) :
    takeWhile1 wanted (cs ++ rest) = .done cs rest := by
  cases cs with
  | nil => exact absurd rfl hne
  | cons c cs =>
    obtain ⟨hc, hcs⟩ := List.forall_mem_cons.mp hcs
    have hfirst : satisfy wanted (c :: (cs ++ rest)) = .done c (cs ++ rest) :=
      satisfy_eq_done.mpr ⟨rfl, hc⟩
    rw [takeWhile1, List.cons_append, bind_of_done hfirst,
      bind_of_done (takeWhile_append hcs hrest)]
    rfl

theorem spaces_of_head {s : List Char} (h : s.head? ≠ some ' ') : spaces s = .done () s := by
  change Outcome.done () (s.dropWhile isBlank) = .done () s
  cases s with
  | nil => rfl
  | cons c cs =>
    have hc : c ≠ ' ' := by simpa using h
    simp [isBlank, hc]

/-- One space and then something else. -/
theorem spaces_cons {s : List Char} (h : s.head? ≠ some ' ') : spaces (' ' :: s) = .done () s :=
  spaces_of_head h

theorem lineEnd_lineFeed (s : List Char) : lineEnd ('\n' :: s) = .done () s := rfl

/-- A text that starts with neither a blank nor a line break. -/
def Solid (s : List Char) : Prop :=
  ∀ c, s.head? = some c → c ≠ ' ' ∧ c ≠ '\n' ∧ c ≠ '\r'

theorem solid_cons {c : Char} {s : List Char} (h : c ≠ ' ' ∧ c ≠ '\n' ∧ c ≠ '\r') :
    Solid (c :: s) := by
  rintro _ ⟨⟩
  exact h

theorem Solid.blank {s : List Char} (h : Solid s) : Source.blank s = .done () s := by
  cases s with
  | nil => rfl
  | cons c cs =>
    obtain ⟨hs, hf, hr⟩ := h c rfl
    rw [Source.blank, skipBlank_cons_of_ne hs hf hr]

theorem Solid.blank_append {b s : List Char} (h : Solid s) (hb : Blank b) :
    Source.blank (b ++ s) = .done () s := by
  rw [Source.blank, hb.skipBlank_append]
  exact h.blank

theorem Solid.blank_space {s : List Char} (h : Solid s) : Source.blank (' ' :: s) = .done () s := by
  rw [Source.blank, skipBlank]
  exact h.blank

theorem Solid.blank_lineFeed {s : List Char} (h : Solid s) :
    Source.blank ('\n' :: s) = .done () s := by
  rw [Source.blank, skipBlank]
  exact h.blank

theorem Solid.lineEnd? {s : List Char} (h : Solid s) : Source.lineEnd? s = none := by
  cases s with
  | nil => rfl
  | cons c cs => exact lineEnd?_cons_of_ne (h c rfl).2.1 (h c rfl).2.2

/-- Blanks in front of something on the same line are no blank line. -/
theorem blankLines_of_solid {s : List Char} (h : Solid (s.dropWhile isBlank)) :
    blankLines s = ([], s) :=
  blankLines_of_none h.lineEnd?

/-! ## Names and numbers -/

/-- A text that neither goes on a name or a number nor adds a part behind a dot. -/
def Apart (s : List Char) : Prop :=
  ∀ c, s.head? = some c → isNamePart c = false ∧ c ≠ '.'

theorem apart_cons {c : Char} {s : List Char} (hc : isNamePart c = false) (hdot : c ≠ '.') :
    Apart (c :: s) := by
  rintro _ ⟨⟩
  exact ⟨hc, hdot⟩

/-- A blank keeps names and numbers apart from what follows. -/
theorem Blank.apart {b s : List Char} (hb : Blank b) (hs : Apart s) : Apart (b ++ s) := by
  cases hb with
  | nil => exact hs
  | space | lineFeed | carriageReturn => exact apart_cons (by decide) (by decide)

theorem isDigit_of_not_isNamePart {c : Char} (h : isNamePart c = false) : isDigit c = false := by
  simp only [isNamePart, Bool.or_eq_false_iff] at h
  exact h.1.1.2

theorem Apart.name {s : List Char} (h : Apart s) : Stops isNamePart s :=
  fun c hc => (h c hc).1

theorem Apart.digit {s : List Char} (h : Apart s) : Stops isDigit s :=
  fun c hc => isDigit_of_not_isNamePart (h c hc).1

theorem Apart.head_ne_dot {s : List Char} (h : Apart s) : s.head? ≠ some '.' :=
  fun hc => (h _ hc).2 rfl

theorem identifier_append {name : String} {rest : List Char} (hname : IsName name)
    (hrest : Stops isNamePart rest) : identifier (name.toList ++ rest) = .done name rest := by
  obtain ⟨c, cs, htext, hc, hcs⟩ := hname
  have hfirst : satisfy isNameStart (c :: (cs ++ rest)) = .done c (cs ++ rest) :=
    satisfy_eq_done.mpr ⟨rfl, hc⟩
  rw [htext, identifier, List.cons_append, bind_of_done hfirst,
    bind_of_done (takeWhile_append hcs hrest), pure_apply, ← htext, String.ofList_toList]

theorem refuses_numberLiteral {s : List Char} (hminus : s.head? ≠ some '-')
    (hdigit : Stops isDigit s) : numberLiteral.Refuses s :=
  refuses_bind_of_done (optional_of_refuses (refuses_char.mpr hminus))
    (refuses_takeWhile1.mpr hdigit).bind

theorem refuses_numberLiteral_minus {s : List Char} (hdigit : Stops isDigit s) :
    numberLiteral.Refuses ('-' :: s) :=
  refuses_bind_of_done (optional_of_done char_of_head) (refuses_takeWhile1.mpr hdigit).bind

theorem numberLiteral_append {n : NumberLiteral} {rest : List Char} (hn : n.WellFormed)
    (hdigit : Stops isDigit rest) (hdot : rest.head? ≠ some '.') :
    numberLiteral (n.raw.toList ++ rest) = .done n rest := by
  obtain ⟨sign, whole, fraction, htext, hsign, ⟨hne, hwhole⟩, hfraction⟩ := hn
  have hraw : n = ⟨String.ofList (sign ++ whole ++ fraction)⟩ := by
    rw [List.append_assoc, ← htext, String.ofList_toList]
  have hminus : ∃ minus, (char '-').optional (sign ++ (whole ++ (fraction ++ rest))) =
      .done minus (whole ++ (fraction ++ rest)) ∧
        (if minus.isSome then ['-'] else []) = sign := by
    obtain rfl | rfl := hsign
    · refine ⟨none, optional_of_refuses (refuses_char.mpr ?_), rfl⟩
      cases whole with
      | nil => exact absurd rfl hne
      | cons d ds =>
        have hd : d ≠ '-' := by
          rintro rfl
          exact absurd (hwhole '-' (.head _)) (by decide)
        simpa using hd
    · exact ⟨some (), optional_of_done char_of_head, rfl⟩
  obtain ⟨minus, hminus, hsign⟩ := hminus
  rw [htext, numberLiteral, List.append_assoc, List.append_assoc, bind_of_done hminus]
  obtain rfl | ⟨digits, rfl, hne', hdigits⟩ := hfraction
  · rw [bind_of_done (takeWhile1_append hne hwhole (by simpa using hdigit)),
      List.nil_append,
      bind_of_done (optional_of_refuses (refuses_char.mpr hdot).bind),
      pure_apply, hsign, ← hraw]
  · have hpoint : (do char '.'; takeWhile1 isDigit : Parser (List Char))
        ('.' :: (digits ++ rest)) = .done digits rest :=
      (bind_of_done char_of_head).trans (takeWhile1_append hne' hdigits hdigit)
    rw [List.cons_append, bind_of_done (takeWhile1_append hne hwhole (stops_cons (by decide))),
      bind_of_done (optional_of_done hpoint), pure_apply, hsign, ← hraw]

theorem reference_append {r : Reference} {rest : List Char} (hr : r.WellFormed)
    (hrest : Apart rest) : reference (r.toText.toList ++ rest) = .done r rest := by
  obtain ⟨id, attr⟩ := r
  obtain ⟨hid, hattr⟩ := hr
  cases attr with
  | none =>
    simp only [Reference.toText]
    rw [reference, bind_of_done (identifier_append hid hrest.name),
      bind_of_done (optional_of_refuses (refuses_char.mpr hrest.head_ne_dot).bind)]
    rfl
  | some name =>
    have hname : (do char '.'; identifier : Parser String) ('.' :: (name.toList ++ rest)) =
        .done name rest :=
      (bind_of_done char_of_head).trans (identifier_append (hattr name rfl) hrest.name)
    have htext : (Reference.toText ⟨id, some name⟩).toList ++ rest =
        id.toList ++ '.' :: (name.toList ++ rest) := by
      simp [Reference.toText]
    rw [htext, reference, bind_of_done (identifier_append hid (stops_cons (by decide))),
      bind_of_done (optional_of_done hname)]
    rfl

/-! ## Inline expressions -/

theorem head_of_isName {name : String} (h : IsName name) (rest : List Char) :
    ∃ c s, name.toList ++ rest = c :: s ∧ isNameStart c = true := by
  obtain ⟨c, cs, htext, hc, -⟩ := h
  exact ⟨c, cs ++ rest, by rw [htext, List.cons_append], hc⟩

/-- A character that opens a name is no other mark. -/
theorem ne_of_isNameStart {c d : Char} (hc : isNameStart c = true) (hd : isNameStart d = false) :
    c ≠ d := by
  rintro rfl
  simp [hc] at hd

theorem isDigit_of_isNameStart {c : Char} (h : isNameStart c = true) : isDigit c = false := by
  simp [isNameStart, isLetter, isDigit, Char.le_def, UInt32.le_iff_toNat_le] at *
  obtain h | rfl := h
  · omega
  · decide

theorem refuses_stringLiteral {s : List Char} (h : s.head? ≠ some '"') :
    stringLiteral.Refuses s :=
  (refuses_char.mpr h).bind

theorem refuses_numberLiteral_of_name {name : String} (h : IsName name) (rest : List Char) :
    numberLiteral.Refuses (name.toList ++ rest) := by
  obtain ⟨c, s, heq, hc⟩ := head_of_isName h rest
  rw [heq]
  exact refuses_numberLiteral (by simpa using ne_of_isNameStart hc (by decide))
    (stops_cons (isDigit_of_isNameStart hc))

theorem head_of_numberLiteral {n : NumberLiteral} (h : n.WellFormed) (rest : List Char) :
    ∃ c s, n.raw.toList ++ rest = c :: s ∧ (c = '-' ∨ isDigit c = true) := by
  obtain ⟨sign, whole, fraction, htext, rfl | rfl, ⟨hne, hwhole⟩, -⟩ := h
  · cases whole with
    | nil => exact absurd rfl hne
    | cons d ds => exact ⟨d, _, by rw [htext]; rfl, .inr (hwhole d (.head _))⟩
  · exact ⟨'-', _, by rw [htext]; rfl, .inl rfl⟩

/-- A reference starts with the name that it refers to. -/
theorem toText_append (r : Reference) (rest : List Char) :
    ∃ rest', r.toText.toList ++ rest = r.id.toList ++ rest' := by
  obtain ⟨id, attr⟩ := r
  cases attr with
  | none => exact ⟨rest, rfl⟩
  | some name => exact ⟨'.' :: (name.toList ++ rest), by simp [Reference.toText]⟩

/-- A text that an inline expression does not go on into. Anything may stand behind a
closing quote. -/
def Detached : Inline → List Char → Prop
  | .text _, _ => True
  | .number _, s => Stops isDigit s ∧ s.head? ≠ some '.'
  | _, s => Apart s

theorem Apart.detached {s : List Char} (h : Apart s) (e : Inline) : Detached e s := by
  cases e with
  | text => trivial
  | number => exact ⟨h.digit, h.head_ne_dot⟩
  | message | term | argument => exact h

theorem inline_of_spelling {e : Inline} {s rest : List Char} (h : InlineSpelling e s)
    (hrest : Detached e rest) : inline (s ++ rest) = .done e rest := by
  cases e with
  | text value => exact or_of_done (map_of_done _ (stringLiteral_of_spelling h rest))
  | number literal =>
    obtain ⟨he, rfl⟩ := h
    have hstring : stringLiteral.Refuses (literal.raw.toList ++ rest) := by
      obtain ⟨c, s, heq, hc⟩ := head_of_numberLiteral he rest
      refine refuses_stringLiteral ?_
      rw [heq]
      rintro ⟨⟩
      exact absurd hc (by decide)
    rw [inline, writeInline, or_of_refuses (refuses_map.mpr hstring)]
    exact or_of_done (map_of_done _ (numberLiteral_append he hrest.1 hrest.2))
  | message r =>
    obtain ⟨he, rfl⟩ := h
    obtain ⟨rest', htext⟩ := toText_append r rest
    have hstring : stringLiteral.Refuses (r.id.toList ++ rest') := by
      obtain ⟨c, s, heq, hc⟩ := head_of_isName he.1 rest'
      rw [heq]
      exact refuses_stringLiteral (by simpa using ne_of_isNameStart hc (by decide))
    have hnumber := refuses_numberLiteral_of_name he.1 rest'
    rw [← htext] at hstring hnumber
    rw [inline, writeInline, or_of_refuses (refuses_map.mpr hstring),
      or_of_refuses (refuses_map.mpr hnumber)]
    exact or_of_done (map_of_done _ (reference_append he hrest))
  | term r =>
    obtain ⟨he, rfl⟩ := h
    have htext : writeInline (.term r) ++ rest = '-' :: (r.toText.toList ++ rest) := by
      simp [writeInline, Reference.toTermText]
    have hnumber : numberLiteral.Refuses ('-' :: (r.toText.toList ++ rest)) := by
      obtain ⟨rest', htext⟩ := toText_append r rest
      obtain ⟨c, s, heq, hc⟩ := head_of_isName he.1 rest'
      rw [htext, heq]
      exact refuses_numberLiteral_minus (stops_cons (isDigit_of_isNameStart hc))
    have hmessage : reference.Refuses ('-' :: (r.toText.toList ++ rest)) :=
      (refuses_identifier.mpr (stops_cons (by decide))).bind
    rw [htext, inline, or_of_refuses (refuses_map.mpr (refuses_stringLiteral (by simp))),
      or_of_refuses (refuses_map.mpr hnumber), or_of_refuses (refuses_map.mpr hmessage)]
    exact or_of_done ((bind_of_done char_of_head).trans (map_of_done _ (reference_append he hrest)))
  | argument name =>
    obtain ⟨he, rfl⟩ := h
    have hnumber : numberLiteral.Refuses ('$' :: (name.toList ++ rest)) :=
      refuses_numberLiteral (by simp) (stops_cons (by decide))
    have hmessage : reference.Refuses ('$' :: (name.toList ++ rest)) :=
      (refuses_identifier.mpr (stops_cons (by decide))).bind
    have hname : argumentName ('$' :: (name.toList ++ rest)) = .done name rest :=
      (bind_of_done char_of_head).trans
        (label_eq_done.mpr (commit_eq_done.mpr (identifier_append he (Apart.name hrest))))
    rw [inline, writeInline, List.cons_append,
      or_of_refuses (refuses_map.mpr (refuses_stringLiteral (by simp))),
      or_of_refuses (refuses_map.mpr hnumber), or_of_refuses (refuses_map.mpr hmessage),
      or_of_refuses (refuses_char.mpr (by simp)).bind]
    exact map_of_done _ hname

theorem solid_of_isNameStart {c : Char} {s : List Char} (h : isNameStart c = true) :
    Solid (c :: s) :=
  solid_cons ⟨ne_of_isNameStart h (by decide), ne_of_isNameStart h (by decide),
    ne_of_isNameStart h (by decide)⟩

theorem solid_of_isName {name : String} (h : IsName name) (rest : List Char) :
    Solid (name.toList ++ rest) := by
  obtain ⟨c, s, heq, hc⟩ := head_of_isName h rest
  rw [heq]
  exact solid_of_isNameStart hc

theorem solid_of_numberLiteral {n : NumberLiteral} (h : n.WellFormed) (rest : List Char) :
    Solid (n.raw.toList ++ rest) := by
  obtain ⟨c, s, heq, hc⟩ := head_of_numberLiteral h rest
  rw [heq]
  refine solid_cons ⟨?_, ?_, ?_⟩ <;>
  · rintro rfl
    exact absurd hc (by decide)

theorem solid_of_inline {e : Inline} (he : e.WellFormed) (rest : List Char) :
    Solid (writeInline e ++ rest) := by
  cases e with
  | text value => exact solid_cons (by decide)
  | number literal => exact solid_of_numberLiteral he rest
  | message r =>
    obtain ⟨rest', htext⟩ := toText_append r rest
    rw [writeInline, htext]
    exact solid_of_isName he.1 rest'
  | term r =>
    simp only [writeInline, Reference.toTermText, String.toList_append]
    exact solid_cons (by decide)
  | argument name => exact solid_cons (by decide)

theorem solid_of_spelling {e : Inline} {s : List Char} (h : InlineSpelling e s)
    (rest : List Char) : Solid (s ++ rest) := by
  cases e with
  | text value =>
    obtain ⟨pieces, -, rfl⟩ := h
    exact solid_cons (by decide)
  | number | message | term | argument =>
    obtain ⟨he, rfl⟩ := h
    exact solid_of_inline he rest

theorem variantKey_of_spelling {key : VariantKey} {s : List Char} (h : KeySpelling key s)
    (rest : List Char) : variantKey (s ++ rest) = .done key rest := by
  obtain ⟨hkey, b, b', hb, hb', rfl⟩ := h
  have hend : Solid (']' :: rest) := solid_cons (by decide)
  have hapart : Apart (b' ++ ']' :: rest) := hb'.apart (apart_cons (by decide) (by decide))
  have htext : '[' :: (b ++ (keyText key ++ (b' ++ [']']))) ++ rest =
      '[' :: (b ++ (keyText key ++ (b' ++ ']' :: rest))) := by simp
  obtain ⟨hsolid, hread⟩ : Solid (keyText key ++ (b' ++ ']' :: rest)) ∧
      ((VariantKey.number <$> numberLiteral).or (VariantKey.name <$> identifier))
        (keyText key ++ (b' ++ ']' :: rest)) = .done key (b' ++ ']' :: rest) := by
    cases key with
    | name value =>
      refine ⟨solid_of_isName hkey _, ?_⟩
      rw [keyText, or_of_refuses (refuses_map.mpr (refuses_numberLiteral_of_name hkey _))]
      exact map_of_done _ (identifier_append hkey hapart.name)
    | number literal =>
      refine ⟨solid_of_numberLiteral hkey _, ?_⟩
      exact or_of_done (map_of_done _ (numberLiteral_append hkey hapart.digit hapart.head_ne_dot))
  rw [htext, variantKey, bind_of_done char_of_head]
  refine label_eq_done.mpr (commit_eq_done.mpr ?_)
  rw [bind_of_done (hsolid.blank_append hb), bind_of_done hread,
    bind_of_done (hend.blank_append hb'), bind_of_done char_of_head, pure_apply]

/-! ## Patterns -/

/-- Line breaks with neither a continuation line nor a placeable behind them. -/
def Closing (s : List Char) : Prop :=
  ∃ feeds indent tail, s = feeds ++ (indent ++ tail) ∧ feeds ≠ [] ∧ (∀ c ∈ feeds, c = '\n') ∧
    (∀ c ∈ indent, isBlank c = true) ∧ Solid tail ∧ tail.head? ≠ some '{' ∧
    (indent = [] ∨ Stops isLineOpening tail)

theorem blankLines_feeds {feeds s : List Char} (hfeeds : ∀ c ∈ feeds, c = '\n')
    (hs : Solid (s.dropWhile isBlank)) : blankLines (feeds ++ s) = (feeds, s) := by
  induction feeds with
  | nil => exact blankLines_of_solid hs
  | cons c feeds ih =>
    obtain ⟨rfl, hothers⟩ := List.forall_mem_cons.mp hfeeds
    rw [List.cons_append, blankLines_lineFeed, ih hothers]

/-- Without a line break in front, a pattern goes on in the same line. -/
theorem patternPart_of_lineEnd? {inner : Parser Expression} {s : List Char}
    (h : lineEnd? (s.dropWhile isBlank) = none) :
    patternPart inner s = ((inlinePlaceable inner).or inlineText) s := by
  have htext : blockText.Refuses s := (refuses_blankBlock h).bind
  have hplaceable : (blockPlaceable inner).Refuses s := (refuses_blankBlock h).bind
  rw [patternPart, or_of_refuses htext, or_of_refuses hplaceable]

theorem patternPart_of_solid {inner : Parser Expression} {s : List Char}
    (h : Solid (s.dropWhile isBlank)) :
    patternPart inner s = ((inlinePlaceable inner).or inlineText) s :=
  patternPart_of_lineEnd? h.lineEnd?

theorem refuses_blockText {s : List Char} (h : Stops isLineOpening (skipBlank s)) :
    blockText.Refuses s := by
  obtain hnone | ⟨lines, rest, hdone, hrest⟩ := blankBlock_cases s
  · exact (refuses_blankBlock hnone).bind
  · refine refuses_bind_of_done hdone ?_
    obtain hindent | hindent := takeWhile1_cases isBlank rest
    · exact hindent.bind
    · exact refuses_bind_of_done hindent (refuses_satisfy.mpr (hrest ▸ h)).bind

theorem Closing.head {s : List Char} (h : Closing s) : ∃ s', s = '\n' :: s' := by
  obtain ⟨feeds, indent, tail, rfl, hne, hfeeds, -⟩ := h
  cases feeds with
  | nil => exact absurd rfl hne
  | cons c feeds => exact ⟨_, by rw [hfeeds c (.head _)]; rfl⟩

theorem closing_of_line {c : Char} {s : List Char} (h : c ≠ ' ' ∧ c ≠ '\n' ∧ c ≠ '\r')
    (hplace : c ≠ '{') : Closing ('\n' :: c :: s) :=
  ⟨['\n'], [], c :: s, rfl, by simp, by simp, by simp, solid_cons h, by simpa using hplace,
    .inl rfl⟩

/-- What may be left of a plain pattern when its first elements were read. -/
structure Remainder (p : Pattern) : Prop extends p.Merged where
  chars : ∀ t, .text t ∈ p → ∀ c ∈ t.toList, c ≠ '{' ∧ c ≠ '}' ∧ c ≠ '\n' ∧ c ≠ '\r'
  finish : ∀ t, p.getLast? = some (.text t) → t.toList.getLast? ≠ some ' '

theorem Remainder.of_plain {p : Pattern} (h : p.Plain) : Remainder p :=
  ⟨h.toMerged, h.chars, h.finish⟩

theorem Remainder.tail {x : Element Expression} {p : Pattern} (h : Remainder (x :: p)) :
    Remainder p := by
  refine ⟨?_, fun t ht => h.chars t (.tail _ ht), fun t ht => h.finish t ?_⟩
  · cases x with
    | text t => exact (Pattern.merged_text_cons.mp h.toMerged).2.2
    | placeable e => exact Pattern.merged_placeable_cons.mp h.toMerged
  · simp [List.getLast?_cons, ht]

/-- Behind a text of a pattern there is a placeable or the end of the pattern. -/
theorem Remainder.after_text {t : String} {p : Pattern} (h : Remainder (.text t :: p)) :
    p = [] ∨ ∃ e p', p = .placeable e :: p' := by
  obtain ⟨-, hhead, -⟩ := Pattern.merged_text_cons.mp h.toMerged
  cases p with
  | nil => exact .inl rfl
  | cons x p =>
    cases x with
    | text s => exact absurd rfl (hhead s)
    | placeable e => exact .inr ⟨e, p, rfl⟩

/-- A text is not taken for a line break, whatever blanks it starts with. -/
theorem Remainder.solid {t : String} {p : Pattern} (h : Remainder (.text t :: p))
    (rest : List Char) :
    Solid ((t.toList ++ (writeElements p ++ rest)).dropWhile isBlank) := by
  rw [List.dropWhile_append]
  cases hdrop : t.toList.dropWhile isBlank with
  | cons c cs =>
    have hmem : c ∈ t.toList := (List.dropWhile_suffix isBlank).subset (hdrop ▸ .head _)
    obtain ⟨-, -, hf, hr⟩ := h.chars t (.head _) c hmem
    have hs : c ≠ ' ' := by
      have := List.head?_dropWhile_not isBlank t.toList
      simpa [hdrop, isBlank] using this
    exact solid_cons ⟨hs, hf, hr⟩
  | nil =>
    -- Only blanks: then the pattern does not end here.
    obtain rfl | ⟨e, p', rfl⟩ := h.after_text
    · have hne := h.toMerged.text_ne_nil
      have hall : t.toList.takeWhile isBlank = t.toList := by
        simpa [hdrop] using List.takeWhile_append_dropWhile (p := isBlank) (l := t.toList)
      have hblank : ∀ c ∈ t.toList, isBlank c = true := by
        rw [← hall]
        exact List.all_eq_true.mp List.all_takeWhile
      have hlast : t.toList.getLast hne = ' ' := by
        simpa [isBlank] using hblank _ (List.getLast_mem hne)
      exact absurd (hlast ▸ List.getLast?_eq_some_getLast hne) (h.finish t rfl)
    · simp only [List.isEmpty_nil, ↓reduceIte, writeElements]
      exact solid_cons (by decide)

theorem head_writeElements {p : Pattern} (h : p.Plain) (rest : List Char) :
    (writeElements p ++ rest).head? ≠ some ' ' := by
  cases p with
  | nil => exact absurd rfl h.ne_nil
  | cons x p =>
    cases x with
    | placeable e => simp [writeElements]
    | text t =>
      have hne := h.toMerged.text_ne_nil
      have hstart := h.start t rfl
      cases htext : t.toList with
      | nil => exact absurd htext hne
      | cons c cs => simpa [writeElements, htext] using hstart

theorem patternPart_placeable {inner : Parser Expression} {e : Expression} {s rest : List Char}
    (h : inner ('{' :: s) = .done e rest) :
    patternPart inner ('{' :: s) = .done [.placeable e] rest := by
  have hsolid : Solid (('{' :: s).dropWhile isBlank) := solid_cons (by decide)
  rw [patternPart_of_solid hsolid]
  exact or_of_done ((bind_of_done h).trans (pure_apply _ _))

/-- The placeables of a pattern can be read. -/
def ReadsPlaceables (inner : Parser Expression) (p : Pattern) : Prop :=
  ∀ e, .placeable e ∈ p → ∀ rest,
    inner ('{' :: ' ' :: (writeExpression e ++ '}' :: rest)) = .done e rest

section Nested

variable {inner : Parser Expression} (hbrace : ∀ s, s.head? ≠ some '{' → inner.Refuses s)
include hbrace

theorem refuses_blockPlaceable {s : List Char} (h : (skipBlank s).head? ≠ some '{') :
    (blockPlaceable inner).Refuses s := by
  obtain hnone | ⟨lines, rest, hdone, hrest⟩ := blankBlock_cases s
  · exact (refuses_blankBlock hnone).bind
  · exact refuses_bind_of_done hdone <|
      refuses_bind_of_done takeWhile_apply (hbrace _ (hrest ▸ h)).bind

theorem refuses_patternPart_of_closing {s : List Char} (h : Closing s) :
    (patternPart inner).Refuses s := by
  obtain ⟨s', hhead⟩ := h.head
  obtain ⟨feeds, indent, tail, rfl, hne, hfeeds, hindent, htail, hplace, hline⟩ := h
  have hstop : Stops isBlank tail := fun c hc => by simpa [isBlank] using (htail c hc).1
  have hblock : blankBlock (feeds ++ (indent ++ tail)) = .done feeds (indent ++ tail) := by
    have hdrop : Solid ((indent ++ tail).dropWhile isBlank) := by
      rwa [dropWhile_append hindent hstop]
    rw [blankBlock, blankLines_feeds hfeeds hdrop]
    cases feeds with
    | nil => exact absurd rfl hne
    | cons c feeds => rfl
  have htext : blockText.Refuses (feeds ++ (indent ++ tail)) := by
    refine refuses_bind_of_done hblock ?_
    by_cases hnil : indent = []
    · subst hnil
      exact (refuses_takeWhile1.mpr hstop).bind
    · exact refuses_bind_of_done (takeWhile1_append hnil hindent hstop)
        (refuses_satisfy.mpr (hline.resolve_left hnil)).bind
  have hplaceable : (blockPlaceable inner).Refuses (feeds ++ (indent ++ tail)) :=
    refuses_bind_of_done hblock <|
      refuses_bind_of_done (takeWhile_append hindent hstop) (hbrace tail hplace).bind
  rw [hhead] at htext hplaceable ⊢
  exact htext.or <| hplaceable.or <| (hbrace _ (by simp)).bind.or <|
    (refuses_takeWhile1.mpr (stops_cons (by decide))).bind

theorem patternPart_text {t : String} {p : Pattern} {rest : List Char}
    (h : Remainder (.text t :: p)) (hrest : Closing rest) :
    patternPart inner (t.toList ++ (writeElements p ++ rest)) =
      .done [.text t] (writeElements p ++ rest) := by
  have hne := h.toMerged.text_ne_nil
  have hhead : (t.toList ++ (writeElements p ++ rest)).head? ≠ some '{' := by
    cases htext : t.toList with
    | nil => exact absurd htext hne
    | cons c cs => simpa using (h.chars t (.head _) c (htext ▸ .head _)).1
  have htext : ∀ c ∈ t.toList, isText c = true := by
    intro c hc
    obtain ⟨hl, hr, hf, -⟩ := h.chars t (.head _) c hc
    simp [isText, hl, hr, hf]
  have hstop : Stops isText (writeElements p ++ rest) := by
    obtain rfl | ⟨e, p', rfl⟩ := h.after_text
    · obtain ⟨s', rfl⟩ := hrest.head
      exact stops_cons (by decide)
    · exact stops_cons (by decide)
  have hplaceable : (inlinePlaceable inner).Refuses (t.toList ++ (writeElements p ++ rest)) :=
    (hbrace _ hhead).bind
  rw [patternPart_of_solid (h.solid rest), or_of_refuses hplaceable, inlineText,
    bind_of_done (takeWhile1_append hne htext hstop), pure_apply, String.ofList_toList]

theorem patternPart_element {x : Element Expression} {p : Pattern} {rest : List Char}
    (h : Remainder (x :: p)) (hinner : ReadsPlaceables inner (x :: p)) (hrest : Closing rest) :
    patternPart inner (writeElements (x :: p) ++ rest) = .done [x] (writeElements p ++ rest) := by
  cases x with
  | text t =>
    rw [writeElements, List.append_assoc]
    exact patternPart_text hbrace h hrest
  | placeable e =>
    simp only [writeElements, List.cons_append, List.append_assoc]
    exact patternPart_placeable (hinner e (.head _) _)

theorem many_patternPart {p : Pattern} {rest : List Char} (h : Remainder p)
    (hinner : ReadsPlaceables inner p) (hrest : Closing rest) :
    (patternPart inner).many (writeElements p ++ rest) = .done (p.map ([·])) rest := by
  induction p with
  | nil => exact many_of_refuses (refuses_patternPart_of_closing hbrace hrest)
  | cons x p ih =>
    refine many_of_done (patternPart_element hbrace h hinner hrest) ?_
      (ih h.tail fun e he => hinner e (.tail _ he))
    cases x with
    | text t =>
      have hne := h.toMerged.text_ne_nil
      have := List.length_pos_iff.mpr hne
      simp only [writeElements, List.length_append]
      omega
    | placeable e =>
      simp only [writeElements, List.length_append, List.length_cons]
      omega

theorem patternOf_append {p : Pattern} {rest : List Char} (h : p.Plain)
    (hinner : ReadsPlaceables inner p) (hrest : Closing rest) :
    patternOf inner (writeElements p ++ rest) = .done p rest := by
  have hremainder := Remainder.of_plain h
  cases p with
  | nil => exact absurd rfl h.ne_nil
  | cons x q =>
    have hmany := many_patternPart hbrace hremainder.tail (fun e he => hinner e (.tail _ he)) hrest
    have hparts : (([x] : Pattern) :: q.map ([·])).flatten = x :: q := by
      simp [← List.flatMap_def]
    rw [patternOf, bind_of_done (many1_of_done (patternPart_element hbrace hremainder hinner hrest)
      hmany), pure_apply, hparts, Pattern.layout_of_plain h]

end Nested

/-! ## Selections -/

/-- A variant on a line of its own, with a star if it is the default. -/
def writeStarred (v : Bool × Variant Pattern) : List Char :=
  '\n' :: ((if v.1 then ['*'] else []) ++ (writeKey v.2.key ++ ' ' :: writeElements v.2.value))

/-- The variants of a selection, each with the mark of the default. -/
def starred : List (Variant Pattern) → Nat → List (Bool × Variant Pattern)
  | [], _ => []
  | v :: variants, 0 => (true, v) :: variants.map (false, ·)
  | v :: variants, default + 1 => (false, v) :: starred variants default

theorem writeOthers_eq (variants : List (Variant Pattern)) :
    writeOthers variants = (variants.map (false, ·)).flatMap writeStarred := by
  induction variants with
  | nil => rfl
  | cons v variants ih => simp [writeOthers, writeStarred, ih]

theorem writeVariants_eq (variants : List (Variant Pattern)) (default : Nat) :
    writeVariants variants default = (starred variants default).flatMap writeStarred := by
  fun_induction starred variants default with
  | case1 => rfl
  | case2 v variants => simp [writeVariants, writeStarred, writeOthers_eq]
  | case3 v variants default ih => simp [writeVariants, writeStarred, ih]

theorem starred_spec {variants : List (Variant Pattern)} {default : Nat}
    (h : default < variants.length) :
    (starred variants default).map (·.2) = variants ∧
      (starred variants default).findIdx (·.1) = default ∧
      oneDefault (starred variants default) = true := by
  fun_induction starred variants default with
  | case1 => simp at h
  | case2 v variants =>
    simp [oneDefault, List.findIdx_cons, Function.comp_def]
  | case3 v variants default ih =>
    obtain ⟨hvariants, hindex, hone⟩ := ih (by simpa using h)
    simp only [oneDefault] at *
    simp [hvariants, hindex, hone, List.findIdx_cons]

theorem starred_snd_mem {variants : List (Variant Pattern)} {default : Nat}
    {v : Bool × Variant Pattern} (h : v ∈ starred variants default) : v.2 ∈ variants := by
  fun_induction starred variants default with
  | case1 => simp at h
  | case2 w variants => grind
  | case3 w variants default ih => grind

/-- A variant closes the pattern in front of it, and so does the end of its selection. -/
theorem closing_of_variants (variants : List (Bool × Variant Pattern)) (rest : List Char) :
    Closing (variants.flatMap writeStarred ++ '\n' :: '}' :: rest) := by
  cases variants with
  | nil => exact closing_of_line (by decide) (by decide)
  | cons v variants =>
    obtain ⟨star, key, value⟩ := v
    cases star <;> cases key <;> exact closing_of_line (by decide) (by decide)

section Variant

variable {inner : Parser Expression} {key : VariantKey} {star : Bool} {u b k s : List Char}
  (hline : lineEnd u = .done () (b ++ ((if star then ['*'] else []) ++ (k ++ s))))
  (hb : Blank b) (hk : KeySpelling key k)
include hline hb hk

/-- The mark and the key of a variant, and the blanks around them. -/
theorem variant_of_key :
    variant inner u = (do
      let value ← (patternOf inner).commit.label "variant value"
      return (star, ⟨key, value⟩) : Parser (Bool × Variant Pattern)) (s.dropWhile isBlank) := by
  obtain ⟨t, hbracket⟩ : ∃ t, k ++ s = '[' :: t := by
    obtain ⟨-, c, c', -, -, rfl⟩ := hk
    exact ⟨_, rfl⟩
  have hkey := variantKey_of_spelling hk s
  rw [hbracket] at hline hkey
  have hsolid : Solid ((if star then ['*'] else []) ++ '[' :: t) := by
    cases star <;> exact solid_cons (by decide)
  obtain ⟨o, hoption, ho⟩ : ∃ o, (char '*').optional ((if star then ['*'] else []) ++ '[' :: t) =
      .done o ('[' :: t) ∧ o.isSome = star := by
    cases star with
    | true => exact ⟨some (), optional_of_done char_of_head, rfl⟩
    | false => exact ⟨none, optional_of_refuses (refuses_char.mpr (by simp)), rfl⟩
  have hspaces : spaces s = .done () (s.dropWhile isBlank) := rfl
  rw [variant, bind_of_done hline, bind_of_done (hsolid.blank_append hb), bind_of_done hoption,
    bind_of_done hkey, bind_of_done hspaces, ho]

theorem variant_of_pattern {value : Pattern} {rest : List Char}
    (h : patternOf inner (s.dropWhile isBlank) = .done value rest) :
    variant inner u = .done (star, ⟨key, value⟩) rest := by
  rw [variant_of_key hline hb hk, bind_of_done (label_eq_done.mpr (commit_eq_done.mpr h)),
    pure_apply]

theorem aborts_variant_of_pattern (h : (patternOf inner).Fails (s.dropWhile isBlank)) :
    (variant inner).Aborts u := by
  rw [Aborts, variant_of_key hline hb hk]
  exact h.commit.context.bind

end Variant

/-- The brace behind the last variant is no other variant. -/
theorem refuses_variant_of_brace {inner : Parser Expression} {b rest : List Char} (hb : Blank b) :
    (variant inner).Refuses ('\n' :: (b ++ '}' :: rest)) := by
  have hsolid : Solid ('}' :: rest) := solid_cons (by decide)
  exact refuses_bind_of_done (lineEnd_lineFeed _) <|
    refuses_bind_of_done (hsolid.blank_append hb) <|
      refuses_bind_of_done (optional_of_refuses (refuses_char.mpr (by simp))) <|
        (refuses_char.mpr (by simp)).bind.bind

section Selection

variable {inner : Parser Expression} {selector : Inline} {t b u : List Char}
  (ht : InlineSpelling selector t) (hb : Blank b)
  (hdetached : Detached selector (b ++ '-' :: '>' :: u))
include ht hb hdetached

theorem selection_of_variants {variants : List (Bool × Variant Pattern)} {rest : List Char}
    (hmany : (variant inner).many (u.dropWhile isBlank) = .done variants ('\n' :: rest))
    (hone : oneDefault variants = true) :
    selection inner (t ++ (b ++ '-' :: '>' :: u)) =
      .done (.select selector (variants.map (·.2)) (variants.findIdx (·.1))) rest := by
  have harrow : Solid ('-' :: '>' :: u) := solid_cons (by decide)
  have hliteral : literal ['-', '>'] ('-' :: '>' :: u) = .done () u := literal_eq_done.mpr rfl
  have hspaces : spaces u = .done () (u.dropWhile isBlank) := rfl
  rw [selection, bind_of_done (inline_of_spelling ht hdetached),
    bind_of_done (harrow.blank_append hb), bind_of_done hliteral, bind_of_done hspaces,
    bind_of_done (expecting_eq_done.mpr (label_eq_done.mpr (commit_eq_done.mpr
      (verify_eq_done.mpr ⟨hmany, hone⟩)))),
    bind_of_done (expecting_eq_done.mpr (commit_eq_done.mpr (lineEnd_lineFeed _))), pure_apply]

theorem aborts_selection_of_variants (h : (variant inner).many.Aborts (u.dropWhile isBlank)) :
    (selection inner).Aborts (t ++ (b ++ '-' :: '>' :: u)) := by
  have harrow : Solid ('-' :: '>' :: u) := solid_cons (by decide)
  have hliteral : literal ['-', '>'] ('-' :: '>' :: u) = .done () u := literal_eq_done.mpr rfl
  have hspaces : spaces u = .done () (u.dropWhile isBlank) := rfl
  exact aborts_bind_of_done (inline_of_spelling ht hdetached) <|
    aborts_bind_of_done (harrow.blank_append hb) <| aborts_bind_of_done hliteral <|
    aborts_bind_of_done hspaces h.verify.fails.commit.context.context.bind

end Selection

section Nested

variable {inner : Parser Expression} (hbrace : ∀ s, s.head? ≠ some '{' → inner.Refuses s)
include hbrace

theorem variant_append {v : Bool × Variant Pattern} {rest : List Char}
    (hkey : v.2.key.WellFormed) (hvalue : v.2.value.Plain)
    (hinner : ReadsPlaceables inner v.2.value) (hrest : Closing rest) :
    variant inner (writeStarred v ++ rest) = .done v rest := by
  obtain ⟨star, key, value⟩ := v
  have hline : lineEnd (writeStarred (star, ⟨key, value⟩) ++ rest) = .done ()
      ([] ++ ((if star then ['*'] else []) ++
        (writeKey key ++ ' ' :: (writeElements value ++ rest)))) := by
    simp [writeStarred, lineEnd_lineFeed]
  have hspace : (' ' :: (writeElements value ++ rest)).dropWhile isBlank =
      writeElements value ++ rest :=
    (Outcome.done.inj (spaces_cons (head_writeElements hvalue rest))).2
  refine variant_of_pattern hline .nil (keySpelling_writeKey hkey) ?_
  rw [hspace]
  exact patternOf_append hbrace hvalue hinner hrest

theorem many_variant {variants : List (Bool × Variant Pattern)} {rest : List Char}
    (hall : ∀ v ∈ variants, v.2.key.WellFormed ∧ v.2.value.Plain ∧
      ReadsPlaceables inner v.2.value) :
    (variant inner).many (variants.flatMap writeStarred ++ '\n' :: '}' :: rest) =
      .done variants ('\n' :: '}' :: rest) := by
  refine many_flatMap (by simp [writeStarred]) (fun v hv others => ?_) ?_
  · obtain ⟨hkey, hvalue, hinner⟩ := hall v hv
    exact variant_append hbrace hkey hvalue hinner (closing_of_variants others rest)
  · exact refuses_variant_of_brace .nil

theorem selection_append {selector : Inline} {variants : List (Variant Pattern)} {default : Nat}
    {rest : List Char} (hselector : selector.WellFormed) (hdefault : default < variants.length)
    (hall : ∀ v ∈ variants, v.key.WellFormed ∧ v.value.Plain ∧ ReadsPlaceables inner v.value) :
    selection inner (writeExpression (.select selector variants default) ++ '}' :: rest) =
      .done (.select selector variants default) ('}' :: rest) := by
  obtain ⟨hvariants, hindex, hone⟩ := starred_spec hdefault
  have hmany : (variant inner).many
      ((starred variants default).flatMap writeStarred ++ '\n' :: '}' :: rest) =
        .done (starred variants default) ('\n' :: '}' :: rest) :=
    many_variant hbrace fun v hv => hall v.2 (starred_snd_mem hv)
  have hspaces : ((starred variants default).flatMap writeStarred ++
      '\n' :: '}' :: rest).dropWhile isBlank =
        (starred variants default).flatMap writeStarred ++ '\n' :: '}' :: rest := by
    cases starred variants default <;> simp [writeStarred, isBlank]
  have htext : writeExpression (.select selector variants default) ++ '}' :: rest =
      writeInline selector ++ ([' '] ++ '-' :: '>' ::
        ((starred variants default).flatMap writeStarred ++ '\n' :: '}' :: rest)) := by
    simp [writeExpression, writeVariants_eq]
  have hdetached := Apart.detached (s := [' '] ++ '-' :: '>' ::
    ((starred variants default).flatMap writeStarred ++ '\n' :: '}' :: rest))
    (apart_cons (by decide) (by decide)) selector
  rw [htext, selection_of_variants (inlineSpelling_writeInline hselector) Blank.nil.space hdetached
    (hspaces ▸ hmany) hone, hvariants, hindex]

end Nested

/-! ## Placeables -/

/-- A plain expression in placeables that are nested at most `n` deep. -/
def Fitting (n : Nat) (e : Expression) : Prop :=
  e.Valid Pattern.Plain ∧ e.depth 1 ≤ n

theorem refuses_placeable {s : List Char} (levels : Nat) (h : s.head? ≠ some '{') :
    (placeable levels).Refuses s := by
  cases levels <;> exact (refuses_char.mpr h).bind

/-- An inline expression is not taken for the selector of a selection. -/
theorem refuses_selection {inner : Parser Expression} {e : Inline} {s b rest : List Char}
    (h : InlineSpelling e s) (hb : Blank b) :
    (selection inner).Refuses (s ++ (b ++ '}' :: rest)) := by
  have hbrace : Solid ('}' :: rest) := solid_cons (by decide)
  have hapart : Apart (b ++ '}' :: rest) := hb.apart (apart_cons (by decide) (by decide))
  refine refuses_bind_of_done (inline_of_spelling h (hapart.detached e)) <|
    refuses_bind_of_done (hbrace.blank_append hb) (Refuses.bind (refuses_literal.mpr ?_))
  simp [List.cons_prefix_cons]

theorem expression_of_spelling {inner : Parser Expression} {e : Inline} {s b : List Char}
    (h : InlineSpelling e s) (hb : Blank b) (rest : List Char) :
    expression inner (s ++ (b ++ '}' :: rest)) = .done (.inline e) (b ++ '}' :: rest) := by
  have hapart : Apart (b ++ '}' :: rest) := hb.apart (apart_cons (by decide) (by decide))
  rw [expression, or_of_refuses (refuses_selection h hb)]
  exact or_of_done (map_of_done _ (inline_of_spelling h (hapart.detached e)))

theorem placeable_of_expression {levels : Nat} {e : Expression} {b s after rest : List Char}
    (hb : Blank b) (hs : Solid s) (h : expression (placeable levels) s = .done e after)
    (hafter : blank after = .done () ('}' :: rest)) :
    placeable (levels + 1) ('{' :: (b ++ s)) = .done e rest := by
  rw [placeable, bind_of_done char_of_head]
  refine expectingChar_eq_done.mpr (label_eq_done.mpr (commit_eq_done.mpr ?_))
  rw [bind_of_done (hs.blank_append hb), bind_of_done h, bind_of_done hafter,
    bind_of_done char_of_head, pure_apply]

theorem aborts_placeable_of_expression {levels : Nat} {b s : List Char} (hb : Blank b)
    (hs : Solid s) (h : (expression (placeable levels)).Aborts s) :
    (placeable (levels + 1)).Aborts ('{' :: (b ++ s)) := by
  refine aborts_bind_of_done char_of_head (Fails.commit ?_).context.context
  exact (aborts_bind_of_done (hs.blank_append hb) h.bind).fails

theorem solid_of_expression {e : Expression} (he : e.Valid Pattern.Plain) (rest : List Char) :
    Solid (writeExpression e ++ rest) := by
  cases he with
  | inline he =>
    rw [writeExpression, List.append_assoc]
    exact solid_of_inline he _
  | select hselector =>
    simp only [writeExpression, List.append_assoc]
    exact solid_of_inline hselector _

/-- The content of a placeable is read up to its brace, or to the blank in front of that. -/
theorem expression_append {inner : Parser Expression} {levels : Nat}
    (hbrace : ∀ s, s.head? ≠ some '{' → inner.Refuses s)
    (hinner : ∀ e, Fitting levels e → ∀ rest,
      inner ('{' :: ' ' :: (writeExpression e ++ '}' :: rest)) = .done e rest)
    {e : Expression} (he : Fitting (levels + 1) e) (rest : List Char) :
    ∃ after, expression inner (writeExpression e ++ '}' :: rest) = .done e after ∧
      blank after = .done () ('}' :: rest) := by
  have hend : Solid ('}' :: rest) := solid_cons (by decide)
  obtain ⟨hvalid, hdepth⟩ := he
  cases hvalid with
  | @inline e he =>
    refine ⟨[' '] ++ '}' :: rest, ?_, hend.blank_space⟩
    rw [writeExpression, List.append_assoc]
    exact expression_of_spelling (inlineSpelling_writeInline he) Blank.nil.space rest
  | @select selector variants default hselector hdefault hvariants hnested =>
    rw [Expression.depth, Nat.add_le_add_iff_right, variantsDepth_le_iff] at hdepth
    refine ⟨'}' :: rest, or_of_done (selection_append hbrace hselector hdefault ?_), hend.blank⟩
    intro v hv
    refine ⟨(hvariants v hv).1, (hvariants v hv).2, fun e he => hinner e ⟨hnested v hv e he, ?_⟩⟩
    exact elementsDepth_le_iff.mp (hdepth v hv) e he

theorem placeable_append (levels : Nat) {e : Expression} (he : Fitting levels e)
    (rest : List Char) :
    placeable levels ('{' :: ' ' :: (writeExpression e ++ '}' :: rest)) = .done e rest := by
  induction levels generalizing e rest with
  | zero =>
    obtain ⟨-, hdepth⟩ := he
    cases e <;> simp [Expression.depth] at hdepth
  | succ levels ih =>
    obtain ⟨after, hexpression, hblank⟩ := expression_append
      (fun _ => refuses_placeable levels) (fun _ he => ih he) he rest
    exact placeable_of_expression (b := [' ']) Blank.nil.space (solid_of_expression he.1 _)
      hexpression hblank

theorem pattern_append {p : Pattern} {rest : List Char} (h : p.Valid Pattern.Plain)
    (hdepth : p.placeableDepth ≤ maxNesting) (hrest : Closing rest) :
    pattern (writeElements p ++ rest) = .done p rest :=
  patternOf_append (fun _ => refuses_placeable maxNesting) h.1
    (fun e he => placeable_append maxNesting ⟨h.2 e he, elementsDepth_le_iff.mp hdepth e he⟩) hrest

end Phrasebook.Source
