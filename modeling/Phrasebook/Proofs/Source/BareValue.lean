import Phrasebook.Proofs.Source.Locality
import Phrasebook.Proofs.Source.RoundTrip
import Phrasebook.Proofs.Source.Segments

/-!
# Bare patterns and values of messages

A pattern that stands by itself ends with the text; the value of a message ends with a line
break, behind which the reading looks for continuation lines and attributes. Both readings
find the same pattern. The line break makes a difference in one case only: when the last
line of the pattern is some spaces and a carriage return, the line break completes the
carriage return to a line end and leaves a blank line.

## Main definitions

* `BlankReturn`: a text whose last line is spaces and a carriage return.
-/

namespace Phrasebook.Source

open Alphabet Phrasebook.Source.Parser

/-- The last line of the text, behind another one, is some spaces and a carriage return. -/
def BlankReturn (s : List Char) : Prop :=
  ∃ u n, s = u ++ '\n' :: (List.replicate (n + 1) ' ' ++ ['\r'])

theorem BlankReturn.of_suffix {r s : List Char} (h : BlankReturn r) (hr : r <:+ s) :
    BlankReturn s := by
  obtain ⟨u, n, rfl⟩ := h
  obtain ⟨v, rfl⟩ := hr
  exact ⟨v ++ u, n, by simp⟩

/-! ## Blanks in front of a line feed -/

theorem exists_blank (s : List Char) : ∃ b, Blank b ∧ s = b ++ skipBlank s := by
  fun_induction skipBlank s with
  | case1 s ih =>
    obtain ⟨b, hb, hs⟩ := ih
    exact ⟨' ' :: b, hb.space, by rw [List.cons_append, ← hs]⟩
  | case2 s ih =>
    obtain ⟨b, hb, hs⟩ := ih
    exact ⟨'\n' :: b, hb.lineFeed, by rw [List.cons_append, ← hs]⟩
  | case3 s ih =>
    obtain ⟨b, hb, hs⟩ := ih
    exact ⟨'\r' :: '\n' :: b, hb.carriageReturn, by rw [List.cons_append, List.cons_append, ← hs]⟩
  | case4 s => exact ⟨[], .nil, rfl⟩

/-- Nothing but blanks, once a line feed follows. -/
def Hollow (s : List Char) : Prop :=
  skipBlank s = [] ∨ skipBlank s = ['\r']

theorem Blank.hollow_append {b : List Char} (hb : Blank b) (s : List Char) :
    Hollow (b ++ s) ↔ Hollow s := by
  rw [Hollow, hb.skipBlank_append, Hollow]

section LineFeed

variable {b : List Char} (hb : Blank b)

/-- A run of characters ends where a line feed follows. -/
theorem span_lineFeed {wanted : Char → Bool} (hw : wanted '\n' = false) (s b : List Char) :
    (s ++ '\n' :: b).takeWhile wanted = s.takeWhile wanted ∧
      (s ++ '\n' :: b).dropWhile wanted = s.dropWhile wanted ++ '\n' :: b := by
  induction s with
  | nil => simp [hw]
  | cons c s ih => grind [List.takeWhile_cons, List.dropWhile_cons]

/-- Blanks end before the text does if the text is not hollow. -/
theorem shelters_filled (b : List Char) : Shelters ('\n' :: b) (¬ Hollow ·) where
  blanks {s} hs := by
    have hblank : Blank (s.takeWhile isBlank) :=
      blank_of_all (List.all_eq_true.mp List.all_takeWhile)
    obtain ⟨htake, hdrop⟩ := span_lineFeed (by decide : isBlank '\n' = false) s b
    refine ⟨htake, hdrop, ?_⟩
    rwa [← hblank.hollow_append, List.takeWhile_append_dropWhile]
  line {s} hs := by
    refine lineEnd?_append ?_ ?_ _ <;> rintro rfl
    · exact hs (.inl rfl)
    · exact hs (.inr rfl)
  rest hs h := by
    obtain ⟨rfl, rfl | rfl⟩ := lineEnd?_eq_some h <;> exact hs

include hb in
theorem Hollow.skipBlank_lineFeed {s : List Char} (h : Hollow s) :
    skipBlank (s ++ '\n' :: b) = [] := by
  obtain ⟨b', hb', hs⟩ := exists_blank s
  rw [hs, List.append_assoc, hb'.skipBlank_append]
  obtain h | h := h <;> rw [h] <;> exact hb.skipBlank

/-! ## Parts of a pattern in front of a line feed -/

/-- The condition that every text has. -/
def Any (_ : List Char) : Prop :=
  True

section Characters

variable {wanted : Char → Bool} (hw : wanted '\n' = false)
include hw

theorem satisfy_lineFeed : Stable ('\n' :: b) Any (satisfy wanted) Any := by
  refine ⟨fun s c r _ h => ?_, fun s _ h => ?_⟩
  · obtain ⟨rfl, hc⟩ := satisfy_eq_done.mp h
    exact ⟨satisfy_eq_done.mpr ⟨rfl, hc⟩, trivial⟩
  · rw [refuses_satisfy] at h ⊢
    cases s with
    | nil => simpa using hw
    | cons c s => simpa using h

theorem takeWhile_lineFeed : Stable ('\n' :: b) Any (takeWhile wanted) Any := by
  refine ⟨fun s cs r _ h => ?_, fun s _ h => ?_⟩
  · cases h
    obtain ⟨htake, hdrop⟩ := span_lineFeed hw s b
    exact ⟨by rw [takeWhile_apply, htake, hdrop], trivial⟩
  · obtain ⟨e, h, -⟩ := h
    cases h

theorem takeWhile1_lineFeed : Stable ('\n' :: b) Any (takeWhile1 wanted) Any :=
  (satisfy_lineFeed hw).bind fun _ => (takeWhile_lineFeed hw).bind fun _ => .pure _

end Characters

theorem placeable_lineFeed (levels : Nat) : Stable ('\n' :: b) Any (placeable levels) Any := by
  refine ⟨fun s e r _ h => ⟨placeable_next h _, trivial⟩, fun s _ h => refuses_placeable levels ?_⟩
  have hhead := head_of_refuses_placeable h
  cases s with
  | nil => simp
  | cons c s => simpa using hhead

/-- A continuation line that is hollow is some spaces and a carriage return. -/
theorem Hollow.blankReturn {s r : List Char} {p : Pattern} (hs : Hollow s)
    (h : blockText s = .done p r) : BlankReturn s := by
  simp only [blockText, bind_eq_done, satisfy_eq_done] at h
  obtain ⟨lines, t, hblock, indent, t', hindent, c, t'', ⟨rfl, -⟩, -⟩ := h
  obtain ⟨hne, hlines⟩ := blankBlock_eq_done.mp hblock
  have hwhole := wholeLines_blankLines s
  have hskip := dropWhile_blankLines s
  obtain ⟨rfl, hdrop⟩ := takeWhile1_eq_done hindent
  rw [hlines] at hwhole hskip
  have hreturn : t.dropWhile isBlank = ['\r'] := hskip.trans (hs.resolve_left (by grind))
  have hfront : t.takeWhile isBlank ≠ [] := by
    intro hnil
    simp [hnil, takeWhile1, bind_eq_done] at hindent
  have hspaces : t.takeWhile isBlank = List.replicate (t.takeWhile isBlank).length ' ' :=
    List.eq_replicate_iff.mpr ⟨rfl, fun d hd => by simpa [isBlank] using List.mem_takeWhile_imp hd⟩
  obtain ⟨n, hn⟩ := Nat.exists_eq_add_one.mpr (List.length_pos_iff.mpr hfront)
  -- The blank lines end with a line feed, and the last line goes on behind it.
  obtain ⟨u, rfl, hu⟩ := hwhole
  obtain rfl : u = lines := by
    have happend := blankLines_append (u ++ t)
    rw [hlines] at happend
    exact (List.append_cancel_right happend).symm
  have hlast : u.getLast? = some '\n' := by
    refine (hu.resolve_left hne).resolve_left ?_
    rintro rfl
    exact hfront rfl
  obtain ⟨v, rfl⟩ := List.getLast?_eq_some_iff.mp hlast
  refine ⟨v, n, ?_⟩
  rw [← hn, ← hspaces, ← hreturn, List.takeWhile_append_dropWhile, List.append_assoc,
    List.singleton_append]

include hb

theorem blockText_lineFeed : Stable ('\n' :: b) (¬ BlankReturn ·) blockText Any := by
  have hfilled : Stable ('\n' :: b) (¬ Hollow ·) blockText Any :=
    ((shelters_filled b).blankBlock.mono (fun _ => id) fun _ _ => trivial).bind fun _ =>
      (takeWhile1_lineFeed (by decide)).bind fun _ => (satisfy_lineFeed (by decide)).bind
        fun _ => (takeWhile_lineFeed (by decide)).bind fun _ => .pure _
  refine ⟨fun s p r hs h => hfilled.keeps s p r (fun hh => hs (hh.blankReturn h)) h,
    fun s _ h => ?_⟩
  by_cases hh : Hollow s
  · refine refuses_blockText ?_
    rw [hh.skipBlank_lineFeed hb]
    simp [Stops]
  · exact hfilled.refuses s hh h

theorem blockPlaceable_lineFeed (levels : Nat) :
    Stable ('\n' :: b) Any (blockPlaceable (placeable levels)) Any := by
  have hfilled : Stable ('\n' :: b) (¬ Hollow ·) (blockPlaceable (placeable levels)) Any :=
    ((shelters_filled b).blankBlock.mono (fun _ => id) fun _ _ => trivial).bind fun _ =>
      (takeWhile_lineFeed (by decide)).bind fun _ => (placeable_lineFeed levels).bind
        fun _ => .pure _
  have hrefuses {s : List Char} (h : (skipBlank s).head? ≠ some '{') :
      (blockPlaceable (placeable levels)).Refuses s :=
    refuses_blockPlaceable (fun _ => refuses_placeable levels) h
  refine ⟨fun s p r _ h => hfilled.keeps s p r (fun hh => ?_) h, fun s _ h => ?_⟩
  · obtain ⟨e, he, -⟩ : (blockPlaceable (placeable levels)).Refuses s :=
      hrefuses (by obtain hh | hh := hh <;> simp [hh])
    rw [h] at he
    cases he
  · by_cases hh : Hollow s
    · exact hrefuses (by simp [hh.skipBlank_lineFeed hb])
    · exact hfilled.refuses s hh h

theorem patternPart_lineFeed (levels : Nat) :
    Stable ('\n' :: b) (¬ BlankReturn ·) (patternPart (placeable levels)) (¬ BlankReturn ·) := by
  have hplaceable : Stable ('\n' :: b) Any (inlinePlaceable (placeable levels)) Any :=
    (placeable_lineFeed levels).bind fun _ => .pure _
  have htext : Stable ('\n' :: b) Any inlineText Any :=
    (takeWhile1_lineFeed (by decide)).bind fun _ => .pure _
  have hany : Stable ('\n' :: b) (¬ BlankReturn ·) (patternPart (placeable levels)) Any :=
    (blockText_lineFeed hb).or <| ((blockPlaceable_lineFeed hb levels).or <|
      hplaceable.or htext).mono (fun _ _ => trivial) fun _ => id
  refine ⟨fun s p r hs h => ⟨(hany.keeps s p r hs h).1, fun hr => hs (hr.of_suffix ?_)⟩,
    hany.refuses⟩
  exact (advances_patternPart (advances_placeable levels)).of_done h

/-- A pattern is the same with a line feed and blank lines behind it. -/
theorem pattern_lineFeed : Stable ('\n' :: b) (¬ BlankReturn ·) pattern (¬ BlankReturn ·) :=
  (patternPart_lineFeed hb maxNesting).many1.bind fun _ => .pure _

/-! ## Messages -/

/-- A value in front of the last line feed of a text is all there is of its message. -/
theorem message_of_pattern {m : String} {s : List Char} {p : Pattern} (hm : IsName m)
    (hs : s ≠ []) (hhead : s.head? ≠ some ' ')
    (h : pattern (s ++ '\n' :: b) = .done p ('\n' :: b)) :
    message (m.toList ++ ' ' :: '=' :: ' ' :: (s ++ '\n' :: b)) =
      .done ⟨m, some p, [], none⟩ b := by
  have hspace : (s ++ '\n' :: b).head? ≠ some ' ' := by
    cases s with
    | nil => exact absurd rfl hs
    | cons c s => simpa using hhead
  have hattribute : attributeLine.Refuses ('\n' :: b) :=
    refuses_bind_of_done (lineEnd_lineFeed b) <|
      refuses_bind_of_done rfl (refuses_char.mpr (by simp [hb.skipBlank])).bind
  rw [message, bind_of_done (identifier_append hm (stops_cons (by decide))),
    bind_of_done (spaces_cons (by simp)), bind_of_done char_of_head,
    bind_of_done (spaces_cons hspace), bind_of_done (optional_of_done h),
    bind_of_done (many_of_refuses hattribute), if_neg (by simp),
    bind_of_done (entryEnd_lineFeed b), pure_apply]
  rfl

/-- A message in front of blanks is the only entry of its text. -/
theorem parse_of_message {mode : Mode} {text : String} {m : Message} {c : Char} {s : List Char}
    (htext : text.toList = c :: s) (hc : isNameStart c = true) (h : message (c :: s) = .done m b) :
    Resource.parse mode text = .ok ⟨[.message m]⟩ := by
  have hhead {d : Char} (hd : isNameStart d = false) : (c :: s).head? ≠ some d := by
    simpa using ne_of_isNameStart hc hd
  have hentry : entry (c :: s) = .done (.message m) b := by
    rw [entry_of_head (hhead (by decide)),
      or_of_refuses (refuses_map.mpr (refuses_term_of_head (hhead (by decide))))]
    exact map_of_done _ h
  rw [parse_eq_ok, htext, dropByteOrderMark_of_head (hhead (by decide)),
    (solid_of_isNameStart hc).skipBlankLines, entries_of_done mode _ hentry, hb.skipBlankLines,
    entries]
  rfl

end LineFeed

end Phrasebook.Source

namespace Phrasebook

open Source

/-- A pattern that can be read by itself is the value of the message in which it is written,
unless its last line is some spaces and a carriage return. Behind the value of a message such
a line is blank. -/
theorem Resource.parse_bare_value {m s : String} {p : Pattern} (hm : IsName m)
    (hhead : s.toList.head? ≠ some ' ') (hreturn : ¬ BlankReturn s.toList)
    (h : Pattern.parse s = .ok p) :
    Resource.parse .strict (m ++ " = " ++ s ++ "\n") =
        .ok ⟨[.message ⟨m, some p, [], none⟩]⟩ ∧
      ∀ n, Resource.parse .strict (m ++ " = " ++
          (s ++ "\n" ++ String.ofList (List.replicate (n + 1) ' ') ++ "\r") ++ "\n") =
        .ok ⟨[.message ⟨m, some p, [], none⟩]⟩ := by
  obtain ⟨hne, hpattern⟩ := complete_eq_ok.mp h
  have hread {text : String} {b : List Char} (hb : Blank b)
      (htext : text.toList = m.toList ++ ' ' :: '=' :: ' ' :: (s.toList ++ '\n' :: b)) :
      Resource.parse .strict text = .ok ⟨[.message ⟨m, some p, [], none⟩]⟩ := by
    have hvalue := ((pattern_lineFeed hb).keeps _ _ _ hreturn hpattern).1
    have hmessage := message_of_pattern hb hm (by simpa using hne) hhead hvalue
    obtain ⟨c, cs, hname, hc⟩ := head_of_isName hm (' ' :: '=' :: ' ' :: (s.toList ++ '\n' :: b))
    rw [hname] at hmessage htext
    exact parse_of_message hb htext hc hmessage
  refine ⟨hread .nil (by simp), fun n => ?_⟩
  have hspaces : Blank (List.replicate (n + 1) ' ') :=
    blank_of_all fun c hc => by simp [(List.mem_replicate.mp hc).2, Alphabet.isBlank]
  exact hread (hspaces.append Blank.nil.carriageReturn) (by simp)

/-- A pattern whose last line is a placeable, with a line break inside it. -/
theorem Resource.parse_bare_value_placeable :
    Pattern.parse "one\n  \x7b\n$x \x7d" =
      .ok [.text "one\n", .placeable (.inline (.argument "x"))] ∧
    Resource.parse .strict ("m" ++ " = " ++ "one\n  \x7b\n$x \x7d" ++ "\n") =
      .ok ⟨[.message ⟨"m", some [.text "one\n", .placeable (.inline (.argument "x"))], [],
        none⟩]⟩ := by
  have hread : Pattern.parse "one\n  \x7b\n$x \x7d" =
      .ok [.text "one\n", .placeable (.inline (.argument "x"))] := by cbv
  have hname : IsName "m" := ⟨'m', [], rfl, rfl, by simp⟩
  have hlast : ¬ BlankReturn "one\n  \x7b\n$x \x7d".toList := by
    rintro ⟨u, n, h⟩
    have hchar := congrArg List.getLast? h
    simp [List.getLast?_append, List.getLast?_cons] at hchar
  exact ⟨hread, (Resource.parse_bare_value hname (by simp) hlast hread).1⟩

/-- The exception: the line of spaces and a carriage return counts for the margin of the bare
pattern, but is a blank line of the message. -/
theorem Resource.parse_bare_value_return :
    ¬ ∀ (m s : String) (p : Pattern), IsName m → s ≠ "" → s.toList.head? ≠ some ' ' →
      Pattern.parse s = .ok p →
        Resource.parse .strict (m ++ " = " ++ s ++ "\n") =
          .ok ⟨[.message ⟨m, some p, [], none⟩]⟩ := by
  intro h
  have hpattern : Pattern.parse "foo\n  bar\n \r" = .ok [.text "foo\n bar"] := by cbv
  have hmessage : Resource.parse .strict ("m" ++ " = " ++ "foo\n  bar\n \r" ++ "\n") =
      .ok ⟨[.message ⟨"m", some [.text "foo\nbar"], [], none⟩]⟩ := by cbv
  have hname : IsName "m" := ⟨'m', [], rfl, rfl, by simp⟩
  rw [h "m" _ _ hname (by simp) (by simp) hpattern] at hmessage
  simp at hmessage

end Phrasebook
