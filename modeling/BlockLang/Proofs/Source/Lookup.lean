import BlockLang.Proofs.Source.Bytes
import BlockLang.Proofs.Source.Line

/-!
# The line of every byte

Where a line starts and stops can be said of the bytes of a text alone (`Around`), and so can what
a line has to say of a byte (`Locates`). Looking up an offset finds a line in every text but
the empty one, and finds a line exactly if it locates the byte of the offset, or the last byte
where the offset is past the end (`at?_iff_locates`).
-/

namespace BlockLang.Line

open String (utf8EncodeChar)

-- ---------------------------------------------------------------------------
-- Stretches between breaks
-- ---------------------------------------------------------------------------

/-- Byte `o` is in the stretch from just after the line break before it, or the start of the text,
through the next line break, or the end of the text. -/
structure Around (bytes : List UInt8) (o start stop : Nat) : Prop where
  start_le : start ≤ o
  lt_stop : o < stop
  after_break : start = 0 ∨ bytes[start - 1]? = some lineBreak
  through_break : stop = bytes.length ∨ bytes[stop - 1]? = some lineBreak
  unbroken : ∀ i, start ≤ i → i + 1 < stop → bytes[i]? ≠ some lineBreak

namespace Around

variable {bytes : List UInt8} {o start stop start' stop' : Nat}

theorem stop_le (h : Around bytes o start stop) : stop ≤ bytes.length := by
  obtain hend | hbreak := h.through_break
  · exact Nat.le_of_eq hend
  · obtain ⟨hlt, -⟩ := List.getElem?_eq_some_iff.mp hbreak
    omega

/-- A stretch that starts later has a break just before it, which the other would hold. -/
theorem start_le_start (h : Around bytes o start stop) (h' : Around bytes o start' stop') :
    start ≤ start' := by
  have hle := h.start_le
  have hlt := h'.lt_stop
  obtain hzero | hbreak := h.after_break
  · omega
  · refine Nat.le_of_not_lt fun hnot => ?_
    exact h'.unbroken (start - 1) (by omega) (by omega) hbreak

theorem stop_le_stop (h : Around bytes o start stop) (h' : Around bytes o start' stop') :
    stop ≤ stop' := by
  have hlt := h'.lt_stop
  have hle := h.start_le
  obtain hend | hbreak := h'.through_break
  · exact hend ▸ h.stop_le
  · refine Nat.le_of_not_lt fun hnot => ?_
    exact h.unbroken (stop' - 1) (by omega) (by omega) hbreak

theorem unique (h : Around bytes o start stop) (h' : Around bytes o start' stop') :
    start = start' ∧ stop = stop' :=
  ⟨Nat.le_antisymm (h.start_le_start h') (h'.start_le_start h),
    Nat.le_antisymm (h.stop_le_stop h') (h'.stop_le_stop h)⟩

end Around

/-- The line counts the breaks before byte `o`, and has the text of the stretch around the byte
and the distance of the byte from its start. -/
structure Locates (line : Line) (bytes : List UInt8) (o : Nat) : Prop where
  number_eq : line.number = (bytes.take o).count lineBreak + 1
  stretch : ∃ start stop, Around bytes o start stop ∧
    (String.ofList line.text).toUTF8.toList = bytes.extract start stop ∧
    line.column = o - start

theorem Locates.unique {line line' : Line} {bytes : List UInt8} {o : Nat}
    (h : line.Locates bytes o) (h' : line'.Locates bytes o) : line = line' := by
  obtain ⟨hnumber, start, stop, haround, htext, hcolumn⟩ := h
  obtain ⟨hnumber', start', stop', haround', htext', hcolumn'⟩ := h'
  obtain ⟨rfl, rfl⟩ := haround.unique haround'
  have htexts : line.text = line'.text :=
    String.ofList_injective (toList_toUTF8_injective (htext.trans htext'.symm))
  cases line
  cases line'
  rw [Line.mk.injEq]
  exact ⟨hnumber.trans hnumber'.symm, htexts, hcolumn.trans hcolumn'.symm⟩

-- ---------------------------------------------------------------------------
-- The bytes of a text taken apart
-- ---------------------------------------------------------------------------

theorem ended_nil : Ended [] := by simp [Ended]

theorem Ended.below {before : List Char} (h : Ended before) (body : List Char) :
    Ended (body ++ '\n' :: before) := by
  intro c hc
  rw [List.getLast?_append, List.getLast?_cons, Option.some_or, Option.mem_some_iff] at hc
  cases hlast : before.getLast? with
  | none => rw [← hc, hlast, Option.getD_none]
  | some d =>
    rw [hlast, Option.getD_some] at hc
    exact hc ▸ h d hlast

namespace Cut

/-- Byte `o` of the text is one of the bytes of the line. -/
def Covers (cut : Cut) (o : Nat) : Prop :=
  byteLength cut.before ≤ o ∧ o < byteLength cut.before + byteLength cut.line

variable {cut : Cut} {o : Nat}

theorem byteLength_line : byteLength cut.line = byteLength cut.body + byteLength cut.ending :=
  byteLength_append _ _

theorem byteLength_ending_le : byteLength cut.ending ≤ 1 := by
  obtain hending | ⟨hending, -⟩ := cut.ended <;> rw [hending] <;> decide

theorem bytes_text : cut.text.flatMap utf8EncodeChar = cut.before.flatMap utf8EncodeChar ++
    (cut.body.flatMap utf8EncodeChar ++ (cut.ending ++ cut.after).flatMap utf8EncodeChar) := by
  simp only [text, line, List.flatMap_append, List.append_assoc]

/-- Before the end of its line a byte is one of the bytes of the body. -/
theorem getElem?_body {i : Nat} (hstart : byteLength cut.before ≤ i)
    (hstop : i < byteLength cut.before + byteLength cut.body) :
    (cut.text.flatMap utf8EncodeChar)[i]? =
      (cut.body.flatMap utf8EncodeChar)[i - byteLength cut.before]? := by
  have hbefore := length_flatMap_utf8EncodeChar cut.before
  have hbody := length_flatMap_utf8EncodeChar cut.body
  rw [bytes_text, List.getElem?_append_right (by omega), List.getElem?_append_left (by omega),
    hbefore]

theorem around (h : cut.Covers o) : Around (cut.text.flatMap utf8EncodeChar) o
    (byteLength cut.before) (byteLength cut.before + byteLength cut.line) where
  start_le := h.1
  lt_stop := h.2
  after_break := by
    obtain hnil | ⟨front, c, hbefore⟩ := List.eq_nil_or_concat cut.before
    · exact .inl (by rw [hnil, byteLength_nil])
    · rw [List.concat_eq_append] at hbefore
      have hc : c = '\n' := cut.above c (by simp [hbefore])
      subst hc
      refine .inr ?_
      rw [text, hbefore, List.append_assoc, byteLength_append]
      exact getElem?_lineBreak front _
  through_break := by
    obtain hending | ⟨hending, hafter⟩ := cut.ended
    · refine .inr ?_
      have htext : cut.text = (cut.before ++ cut.body) ++ '\n' :: cut.after := by
        simp [text, line, hending]
      rw [htext, byteLength_line, hending, ← Nat.add_assoc, ← byteLength_append]
      exact getElem?_lineBreak (cut.before ++ cut.body) cut.after
    · refine .inl ?_
      rw [length_flatMap_utf8EncodeChar, text, hafter, List.append_nil, byteLength_append]
  unbroken i hstart hstop hbreak := by
    have hending := cut.byteLength_ending_le
    rw [byteLength_line] at hstop
    rw [getElem?_body hstart (by omega)] at hbreak
    exact cut.one_line (lineBreak_mem_flatMap.mp (List.mem_of_getElem? hbreak))

/-- The body of a line adds no breaks to those before it. -/
theorem count_take (h : cut.Covers o) :
    ((cut.text.flatMap utf8EncodeChar).take o).count lineBreak = cut.before.count '\n' := by
  obtain ⟨hstart, hstop⟩ := h
  have hending := cut.byteLength_ending_le
  have hbefore := length_flatMap_utf8EncodeChar cut.before
  have hbody := length_flatMap_utf8EncodeChar cut.body
  rw [byteLength_line] at hstop
  rw [bytes_text, List.take_append, List.take_of_length_le (by omega),
    List.take_append_of_le_length (by omega), List.count_append, count_lineBreak]
  have hnone : lineBreak ∉ (cut.body.flatMap utf8EncodeChar).take
      (o - (cut.before.flatMap utf8EncodeChar).length) := fun hmem =>
    cut.one_line (lineBreak_mem_flatMap.mp (List.mem_of_mem_take hmem))
  rw [List.count_eq_zero.mpr hnone, Nat.add_zero]

theorem extract_line : (cut.text.flatMap utf8EncodeChar).extract (byteLength cut.before)
    (byteLength cut.before + byteLength cut.line) = cut.line.flatMap utf8EncodeChar := by
  rw [text, List.flatMap_append, List.flatMap_append, List.extract_eq_take_drop,
    ← length_flatMap_utf8EncodeChar, List.drop_left, Nat.add_sub_cancel_left,
    ← length_flatMap_utf8EncodeChar, List.take_left]

theorem locates (h : cut.Covers o) :
    (⟨cut.number, cut.line, o - byteLength cut.before⟩ : Line).Locates
      (cut.text.flatMap utf8EncodeChar) o where
  number_eq := by rw [count_take h, number]
  stretch := ⟨_, _, around h, by rw [toList_toUTF8, extract_line], rfl⟩

/-- The same line, with one more line put above the text. -/
def below (cut : Cut) (body : List Char) : Cut where
  before := body ++ '\n' :: cut.before
  body := cut.body
  ending := cut.ending
  after := cut.after
  above := cut.above.below body
  one_line := cut.one_line
  ended := cut.ended

theorem text_below (body : List Char) : (cut.below body).text = body ++ '\n' :: cut.text := by
  simp [text, line, below]

theorem Covers.below {body : List Char} (h : cut.Covers (o - byteLength (body ++ ['\n'])))
    (ho : byteLength (body ++ ['\n']) ≤ o) : (cut.below body).Covers o := by
  obtain ⟨hstart, hstop⟩ := h
  have hbefore : byteLength (cut.below body).before =
      byteLength (body ++ ['\n']) + byteLength cut.before := by
    rw [← byteLength_append, Cut.below, List.append_assoc]
    rfl
  have hline : (cut.below body).line = cut.line := rfl
  constructor <;> rw [hbefore]
  · omega
  · rw [hline]
    omega

/-- The first line of a text. -/
def first (body ending after : List Char) (hbody : '\n' ∉ body)
    (hended : ending = ['\n'] ∨ ending = [] ∧ after = []) : Cut where
  before := []
  body := body
  ending := ending
  after := after
  above := ended_nil
  one_line := hbody
  ended := hended

section

variable {body ending after : List Char} {hbody : '\n' ∉ body}
  {hended : ending = ['\n'] ∨ ending = [] ∧ after = []}

theorem text_first : (first body ending after hbody hended).text = body ++ (ending ++ after) := by
  simp [text, line, first]

theorem covers_first : (first body ending after hbody hended).Covers o ↔
    o < byteLength body + byteLength ending := by
  simp [Covers, first, line, byteLength_append]

end

/-- Each byte is in the first line or in one below it. -/
theorem exists_covers {cs : List Char} {o : Nat} (h : o < byteLength cs) :
    ∃ cut : Cut, cut.text = cs ∧ cut.Covers o := by
  by_cases hmem : '\n' ∈ cs
  · obtain ⟨body, after, rfl, hbody⟩ := List.eq_append_cons_of_mem hmem
    by_cases hfirst : o < byteLength body + byteLength ['\n']
    · exact ⟨first body ['\n'] after hbody (.inl rfl), text_first, covers_first.mpr hfirst⟩
    · rw [← byteLength_append] at hfirst
      have hrest : o - byteLength (body ++ ['\n']) < byteLength after := by
        rw [List.append_cons, byteLength_append] at h
        omega
      obtain ⟨cut, rfl, hcovers⟩ := exists_covers hrest
      exact ⟨cut.below body, text_below body, hcovers.below (Nat.le_of_not_lt hfirst)⟩
  · exact ⟨first cs [] [] hmem (.inr ⟨rfl, rfl⟩), by simp [text_first], covers_first.mpr h⟩
termination_by cs.length

end Cut

-- ---------------------------------------------------------------------------
-- Looking up an offset
-- ---------------------------------------------------------------------------

theorem at?_eq_at?_min (content : String) (offset : Nat) :
    at? content offset = at? content (min offset (content.utf8ByteSize - 1)) := by
  rw [at?, at?, utf8ByteSize_eq, Nat.min_assoc, Nat.min_self]

theorem exists_at?_locates {content : String} (h : content ≠ "") (offset : Nat) :
    ∃ line, at? content offset = some line ∧
      line.Locates content.toUTF8.toList (min offset (content.utf8ByteSize - 1)) := by
  rw [at?_eq_at?_min]
  generalize ho : min offset (content.utf8ByteSize - 1) = o
  have hlt : o < byteLength content.toList := by
    rw [← utf8ByteSize_eq]
    have hsize : content.utf8ByteSize ≠ 0 := mt String.utf8ByteSize_eq_zero_iff.mp h
    omega
  obtain ⟨cut, htext, hcovers⟩ := Cut.exists_covers hlt
  refine ⟨_, Cut.at?_eq htext.symm hcovers.1 hcovers.2, ?_⟩
  have hbytes : content.toUTF8.toList = cut.text.flatMap utf8EncodeChar := by
    rw [htext, ← toList_toUTF8, String.ofList_toList]
  rw [hbytes]
  exact Cut.locates hcovers

theorem not_locates_nil {line : Line} {o : Nat} : ¬line.Locates [] o := by
  rintro ⟨-, start, stop, haround, -⟩
  exact Nat.not_lt_zero o (Nat.lt_of_lt_of_le haround.lt_stop haround.stop_le)

/-- Every offset into a text that is not empty has a line, which is the one line that locates the
byte at the offset, or the last byte for an offset past the end. -/
theorem at?_iff_locates (content : String) (offset : Nat) :
    ((at? content offset).isSome ↔ content ≠ "") ∧
      ∀ line, at? content offset = some line ↔
        line.Locates content.toUTF8.toList (min offset (content.utf8ByteSize - 1)) := by
  by_cases h : content = ""
  · subst h
    have hnone : at? "" offset = none := rfl
    have hbytes : "".toUTF8.toList = [] := toList_toUTF8 []
    rw [hnone, hbytes]
    simp [not_locates_nil]
  · obtain ⟨found, hfound, hlocates⟩ := exists_at?_locates h offset
    refine ⟨by simp [hfound, h], fun line => ⟨fun hline => ?_, fun hline => ?_⟩⟩
    · rwa [← Option.some.inj (hfound.symm.trans hline)]
    · rw [hfound, hlocates.unique hline]

-- Inside a character of two bytes, at breaks and past the end.
example : [1, 2, 3, 9].map (at? "é\n\nz") =
    [some ⟨1, ['é', '\n'], 1⟩, some ⟨1, ['é', '\n'], 2⟩, some ⟨2, ['\n'], 0⟩,
      some ⟨3, ['z'], 0⟩] := by
  decide

end BlockLang.Line
