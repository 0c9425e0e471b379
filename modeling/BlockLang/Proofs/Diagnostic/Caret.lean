import BlockLang.Diagnostic.Render
import BlockLang.Proofs.Source.Line

/-!
# The mark below a line

A diagnostic at a character that its line shows prints the number of the line, the line without
the blanks at both ends, and below it the mark behind a dash for every byte before the character
(`render_spot`). So the mark is in the column of the character just where every character before
it has one byte.
-/

namespace BlockLang

theorem Text.trimEnd_append {cs blanks : List Char} (hblanks : ∀ c ∈ blanks, isBlank c = true)
    (hcs : ∀ c ∈ cs.getLast?, isBlank c = false) : trimEnd (cs ++ blanks) = cs := by
  have hkeep : cs.reverse.dropWhile isBlank = cs.reverse := by
    cases hrev : cs.reverse with
    | nil => rfl
    | cons c rest =>
      have hlast : cs.getLast? = some c := by
        rw [← List.head?_reverse, hrev, List.head?_cons]
      exact List.dropWhile_cons_of_neg (by rw [hcs c hlast]; decide)
  have hdrop : ∀ c ∈ blanks.reverse, isBlank c = true := fun c hc =>
    hblanks c (List.mem_reverse.mp hc)
  rw [trimEnd, List.reverse_append, List.dropWhile_append_of_pos hdrop, hkeep,
    List.reverse_reverse]

theorem length_le_byteLength (cs : List Char) : cs.length ≤ byteLength cs := by
  induction cs with
  | nil => exact Nat.le_refl 0
  | cons c cs ih =>
    have := c.utf8Size_pos
    simp only [List.length_cons, byteLength_cons]
    omega

theorem byteLength_eq_length_iff {cs : List Char} :
    byteLength cs = cs.length ↔ ∀ c ∈ cs, c.utf8Size = 1 := by
  induction cs with
  | nil => simp
  | cons c cs ih =>
    have := c.utf8Size_pos
    have := length_le_byteLength cs
    rw [List.forall_mem_cons, ← ih, byteLength_cons, List.length_cons]
    omega

namespace Diagnostic

/-- A character of a text that its line shows, with the line around it. -/
structure Spot extends Line.Cut where
  indent : List Char
  left : List Char
  char : Char
  right : List Char
  trailing : List Char
  body_eq : body = indent ++ (left ++ char :: right ++ trailing)
  indented : ∀ c ∈ indent, c = ' ' ∨ c = '\t'
  unindented : ∀ c ∈ (left ++ char :: right).head?, c ≠ ' ' ∧ c ≠ '\t'
  trimmed : ∀ c ∈ trailing, Text.isBlank c = true
  kept : ∀ c ∈ (left ++ char :: right).getLast?, Text.isBlank c = false

namespace Spot

variable (spot : Spot)

/-- The line without the blanks at both ends. -/
def shown : List Char := spot.left ++ spot.char :: spot.right

/-- The byte of the text at which the character starts. -/
def offset : Nat := byteLength spot.before + byteLength (spot.indent ++ spot.left)

def gutter : String :=
  String.ofList (List.replicate ((toString spot.number).length + 1) ' ') ++ "|"

def textRow : String := toString spot.number ++ " | " ++ String.ofList spot.shown

def markRow : String :=
  spot.gutter ++ " " ++ String.ofList (List.replicate (byteLength spot.left) '-') ++ "^"

/-- The column of the character in its row. -/
def column : Nat := (toString spot.number).length + 3 + spot.left.length

variable {spot}

theorem line_eq : spot.line = spot.indent ++ (spot.shown ++ (spot.trailing ++ spot.ending)) := by
  rw [Line.Cut.line, spot.body_eq, shown]
  simp only [List.append_assoc]

theorem indentOf_line : indentOf spot.line = spot.indent := by
  have hindent : ∀ c ∈ spot.indent, (c == ' ' || c == '\t') = true := fun c hc => by
    simpa using spot.indented c hc
  obtain ⟨c, rest, hshown⟩ : ∃ c rest, spot.shown = c :: rest :=
    List.exists_cons_of_ne_nil (by simp [shown])
  have hc : (c == ' ' || c == '\t') = false := by
    have := spot.unindented c (by rw [← shown, hshown]; rfl)
    simpa using this
  rw [indentOf, line_eq, List.takeWhile_append_of_pos hindent, hshown, List.cons_append,
    List.takeWhile_cons_of_neg (by simp [hc]), List.append_nil]

theorem trimEnd_line : Text.trimEnd (spot.line.drop spot.indent.length) = spot.shown := by
  have hblank : ∀ c ∈ spot.trailing ++ spot.ending, Text.isBlank c = true := by
    intro c hc
    rcases List.mem_append.mp hc with hc | hc
    · exact spot.trimmed c hc
    · obtain hending | ⟨hending, -⟩ := spot.ended
      · rw [hending, List.mem_singleton] at hc
        rw [hc]
        decide
      · simp [hending] at hc
  rw [line_eq, List.drop_left]
  exact Text.trimEnd_append hblank spot.kept

theorem byteLength_indent : byteLength spot.indent = spot.indent.length :=
  byteLength_eq_length_iff.mpr fun c hc => by
    obtain rfl | rfl := spot.indented c hc <;> decide

theorem at?_offset {source : String} (h : source.toList = spot.text) :
    Line.at? source spot.offset =
      some ⟨spot.number, spot.line, byteLength (spot.indent ++ spot.left)⟩ := by
  have hstop : spot.offset < byteLength spot.before + byteLength spot.line := by
    have := spot.char.utf8Size_pos
    simp only [offset, line_eq, shown, byteLength_append, byteLength_cons]
    omega
  have hstart : byteLength spot.before ≤ spot.offset := Nat.le_add_right _ _
  rw [Line.Cut.at?_eq h hstart hstop, offset, Nat.add_sub_cancel_left]

theorem renderLine_eq :
    renderLine ⟨spot.number, spot.line, byteLength (spot.indent ++ spot.left)⟩ =
      spot.gutter ++ "\n" ++ spot.textRow ++ "\n" ++ spot.markRow ++ "\n" := by
  have hdashes : byteLength (spot.indent ++ spot.left) - spot.indent.length =
      byteLength spot.left := by
    rw [byteLength_append, byteLength_indent, Nat.add_sub_cancel_left]
  have hend : ("^\n" : String) = "^" ++ "\n" := rfl
  unfold renderLine
  simp only [indentOf_line, trimEnd_line, hdashes]
  rw [hend, textRow, markRow, gutter]
  simp only [String.append_assoc]

theorem textRow_column : spot.textRow.toList[spot.column]? = some spot.char := by
  have hrow : spot.textRow.toList =
      ((toString spot.number).toList ++ [' ', '|', ' '] ++ spot.left) ++
        spot.char :: spot.right := by
    simp [textRow, shown]
  have hlength : ((toString spot.number).toList ++ [' ', '|', ' '] ++ spot.left).length =
      spot.column := by
    simp only [column, List.length_append, String.length_toList, List.length_cons, List.length_nil]
  rw [hrow, ← hlength, List.getElem?_append_right (Nat.le_refl _), Nat.sub_self,
    List.getElem?_cons_zero]

/-- The mark ends its row, behind one dash per byte, and the row has no other. -/
theorem getElem?_markRow (i : Nat) :
    spot.markRow.toList[i]? = some '^' ↔
      i = (toString spot.number).length + 3 + byteLength spot.left := by
  generalize hfront : List.replicate ((toString spot.number).length + 1) ' ' ++
    ('|' :: ' ' :: List.replicate (byteLength spot.left) '-') = front
  have hrow : spot.markRow.toList = front ++ ['^'] := by
    simp [markRow, gutter, ← hfront]
  have hlength : front.length = (toString spot.number).length + 3 + byteLength spot.left := by
    simp only [← hfront, List.length_append, List.length_replicate, List.length_cons]
    omega
  have habsent : '^' ∉ front := by
    simp [← hfront, List.mem_replicate]
  rw [hrow, ← hlength]
  constructor
  · intro hi
    obtain ⟨hlt, -⟩ := List.getElem?_eq_some_iff.mp hi
    rw [List.length_append, List.length_singleton] at hlt
    refine Nat.le_antisymm (Nat.le_of_lt_succ hlt) (Nat.le_of_not_lt fun hdash => ?_)
    rw [List.getElem?_append_left hdash] at hi
    exact habsent (List.mem_of_getElem? hi)
  · rintro rfl
    exact List.getElem?_concat_length

end Spot

theorem exists_render_eq {source : String} {d : Diagnostic} {line : Line}
    (h : Line.at? source d.position.offset.toNat = some line) :
    ∃ head tail, d.render source = head ++ "\n" ++ renderLine line ++ tail := by
  rw [render, h]
  exact ⟨_, _, rfl⟩

/-- A diagnostic at a character shows its line with the character in a column, and the mark is in
that column exactly if the characters before it on the row have one byte each. -/
theorem render_spot {source : String} (d : Diagnostic) (spot : Spot)
    (htext : source.toList = spot.text) (hoffset : d.position.offset.toNat = spot.offset) :
    (∃ head tail, d.render source = head ++ "\n" ++
      (spot.gutter ++ "\n" ++ spot.textRow ++ "\n" ++ spot.markRow ++ "\n") ++ tail) ∧
      spot.textRow.toList[spot.column]? = some spot.char ∧
      (spot.markRow.toList[spot.column]? = some '^' ↔ ∀ c ∈ spot.left, c.utf8Size = 1) := by
  refine ⟨?_, Spot.textRow_column, ?_⟩
  · have hline : Line.at? source d.position.offset.toNat =
        some ⟨spot.number, spot.line, byteLength (spot.indent ++ spot.left)⟩ :=
      hoffset ▸ Spot.at?_offset htext
    rw [← Spot.renderLine_eq]
    exact exists_render_eq hline
  · rw [Spot.getElem?_markRow, ← byteLength_eq_length_iff, Spot.column]
    omega

/-- The last character of a text with a letter of two bytes. -/
def accentSpot : Spot where
  before := []
  body := ['"', 'é', '"', ' ', '$']
  ending := []
  after := []
  above := by simp [Line.Ended]
  one_line := by decide
  ended := .inr ⟨rfl, rfl⟩
  indent := []
  left := ['"', 'é', '"', ' ']
  char := '$'
  right := []
  trailing := []
  body_eq := rfl
  indented := by simp
  unindented := by
    rintro c ⟨⟩
    decide
  trimmed := by simp
  kept := by
    rintro c ⟨⟩
    rfl

/-- Behind that letter the mark is not in the column of the character. -/
theorem render_spot_accentSpot :
    ("\"é\" $".toList = accentSpot.text ∧ accentSpot.offset = 5) ∧
      accentSpot.textRow.toList[accentSpot.column]? = some '$' ∧
      accentSpot.markRow.toList[accentSpot.column]? ≠ some '^' := by
  have htext : "\"é\" $".toList = accentSpot.text := by decide
  have hoffset : accentSpot.offset = 5 := by decide
  obtain ⟨-, hchar, hmark⟩ :=
    render_spot (fatal (.unrecognisedToken "$") ⟨5, "main.lang"⟩) accentSpot htext hoffset.symm
  refine ⟨⟨htext, hoffset⟩, hchar, fun h => ?_⟩
  have hsize := hmark.mp h 'é' (by simp [accentSpot])
  exact absurd hsize (by decide)

example : (fatal (.unrecognisedToken "$") ⟨5, "main.lang"⟩).render "\"é\" $" =
    "Fatal: UnrecognisedToken\n-> main.lang\n  |\n1 | \"é\" $\n  | -----^\n" := by
  decide +kernel

end Diagnostic
end BlockLang
