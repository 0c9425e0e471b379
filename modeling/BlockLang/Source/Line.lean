import BlockLang.Source.Position

/-!
# Finding the line of an offset

A text is cut into lines that keep their line break. An offset past the end is
taken back to the last byte, so every offset into a non-empty text has a line.
-/

namespace BlockLang

/-- A line of a text and the place of one byte in it. -/
structure Line where
  /-- Counted from one. -/
  number : Nat
  /-- The line with its line break, if it has one. -/
  text : List Char
  /-- Bytes of the line before the place. -/
  column : Nat
deriving DecidableEq

namespace Line

/-- The lines of a text, each with its line break. -/
def split : List Char → List (List Char)
  | [] => []
  | c :: cs =>
    if c = '\n' then [c] :: split cs
    else
      match split cs with
      | [] => [[c]]
      | line :: lines => (c :: line) :: lines

/-- The line of `lines` holding byte `target`, when the first line has number
`number` and starts at byte `start`. -/
def search (target number start : Nat) : List (List Char) → Option Line
  | [] => none
  | line :: lines =>
    let stop := start + byteLength line
    if start ≤ target ∧ target < stop then some ⟨number, line, target - start⟩
    else search target (number + 1) stop lines

/-- The line of `content` at byte `offset`; an offset past the end counts as the
last byte. Only the empty text has no line. -/
def at? (content : String) (offset : Nat) : Option Line :=
  let cs := content.toList
  search (min offset (byteLength cs - 1)) 1 0 (split cs)

theorem flatten_split (cs : List Char) : (split cs).flatten = cs := by
  induction cs with
  | nil => rfl
  | cons c cs ih =>
    simp only [split]
    split
    · simp [ih]
    · cases h : split cs with
      | nil => rw [h] at ih; simp [← ih]
      | cons line lines => rw [h] at ih; simp [← ih]

end Line
end BlockLang
