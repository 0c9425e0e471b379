import BlockLang.Source.Line

/-!
# Where a line of a text is

A text is cut after each line break (`split_append`, `split_line`), so the line of an offset is
found by counting the breaks before it (`Cut.at?_eq`).
-/

namespace BlockLang.Line

section

variable {before body : List Char}

-- ---------------------------------------------------------------------------
-- Cutting a text
-- ---------------------------------------------------------------------------

/-- Nothing, or lines that all have their break. -/
def Ended (cs : List Char) : Prop := ∀ c ∈ cs.getLast?, c = '\n'

theorem Ended.tail {c : Char} (h : Ended (c :: before)) : Ended before := by
  cases before with
  | nil => simp [Ended]
  | cons d ds => rwa [Ended, List.getLast?_cons_cons] at h

theorem split_ne_nil {cs : List Char} (h : cs ≠ []) : split cs ≠ [] := fun hsplit =>
  h (by rw [← flatten_split cs, hsplit, List.flatten_nil])

theorem split_append (h : Ended before) (rest : List Char) :
    split (before ++ rest) = split before ++ split rest := by
  induction before with
  | nil => rfl
  | cons c cs ih =>
    have hrest := ih h.tail
    by_cases hc : c = '\n'
    · simp [split, hc, hrest]
    · -- A line that is not ended yet goes on in what follows.
      have hcs : cs ≠ [] := by
        rintro rfl
        exact hc (h c rfl)
      obtain ⟨head, lines, hlines⟩ := List.exists_cons_of_ne_nil (split_ne_nil hcs)
      simp [split, hc, hrest, hlines]

theorem length_split (h : Ended before) : (split before).length = before.count '\n' := by
  induction before with
  | nil => rfl
  | cons c cs ih =>
    have hrest := ih h.tail
    by_cases hc : c = '\n'
    · simp [split, hc, hrest]
    · have hcs : cs ≠ [] := by
        rintro rfl
        exact hc (h c rfl)
      obtain ⟨head, lines, hlines⟩ := List.exists_cons_of_ne_nil (split_ne_nil hcs)
      rw [hlines] at hrest
      simpa [split, hc, hlines] using hrest

theorem split_line (h : '\n' ∉ body) (after : List Char) :
    split (body ++ '\n' :: after) = (body ++ ['\n']) :: split after := by
  induction body with
  | nil => simp [split]
  | cons c cs ih =>
    obtain ⟨hc, hcs⟩ := List.ne_and_not_mem_of_not_mem_cons h
    simp [split, hc.symm, ih hcs]

theorem split_last (h : '\n' ∉ body) (hne : body ≠ []) : split body = [body] := by
  induction body with
  | nil => exact absurd rfl hne
  | cons c cs ih =>
    obtain ⟨hc, hcs⟩ := List.ne_and_not_mem_of_not_mem_cons h
    rw [split, if_neg hc.symm]
    cases cs with
    | nil => rfl
    | cons d ds => rw [ih hcs (List.cons_ne_nil d ds)]

end

-- ---------------------------------------------------------------------------
-- Finding a line
-- ---------------------------------------------------------------------------

/-- Lines that stop before the byte are passed. -/
theorem search_append (target number start : Nat) (above below : List (List Char))
    (h : start + byteLength above.flatten ≤ target) :
    search target number start (above ++ below) =
      search target (number + above.length) (start + byteLength above.flatten) below := by
  induction above generalizing number start with
  | nil => simp
  | cons head lines ih =>
    rw [List.flatten_cons, byteLength_append] at h ⊢
    rw [List.cons_append, search, if_neg (by omega), ih _ _ (by omega), List.length_cons]
    congr 1 <;> omega

/-- A text taken apart around one of its lines. -/
structure Cut where
  before : List Char
  /-- The line without its break. -/
  body : List Char
  /-- Its break, which only the last line may lack. -/
  ending : List Char
  after : List Char
  above : Ended before
  one_line : '\n' ∉ body
  ended : ending = ['\n'] ∨ ending = [] ∧ after = []

namespace Cut

variable (cut : Cut)

def line : List Char := cut.body ++ cut.ending

def text : List Char := cut.before ++ (cut.line ++ cut.after)

/-- Counted from one. -/
def number : Nat := cut.before.count '\n' + 1

variable {cut}

theorem split_text (hne : cut.line ≠ []) :
    split cut.text = split cut.before ++ cut.line :: split cut.after := by
  rw [text, split_append cut.above]
  congr 1
  unfold line at hne ⊢
  obtain hending | ⟨hending, hafter⟩ := cut.ended
  · rw [hending, List.append_assoc]
    exact split_line cut.one_line cut.after
  · rw [hending, List.append_nil] at hne
    rw [hending, hafter, List.append_nil, List.append_nil, split_last cut.one_line hne]
    rfl

/-- Every byte of a line has the number of the line, and the column counts from its start. -/
theorem at?_eq {content : String} (h : content.toList = cut.text) {offset : Nat}
    (hstart : byteLength cut.before ≤ offset)
    (hstop : offset < byteLength cut.before + byteLength cut.line) :
    at? content offset = some ⟨cut.number, cut.line, offset - byteLength cut.before⟩ := by
  have hne : cut.line ≠ [] := fun hline => by
    rw [hline, byteLength_nil] at hstop
    omega
  have hlength : byteLength cut.text =
      byteLength cut.before + (byteLength cut.line + byteLength cut.after) := by
    rw [text, byteLength_append, byteLength_append]
  have hmin : min offset (byteLength cut.text - 1) = offset := by omega
  have habove : (split cut.before).flatten = cut.before := flatten_split cut.before
  simp only [at?, h, hmin, split_text hne]
  rw [search_append _ _ _ _ _ (by rw [habove]; omega), habove, length_split cut.above, search,
    if_pos (by omega), number]
  simp [Nat.add_comm]

end Cut
end BlockLang.Line
