import BlockLang.Proofs.Token.Pieces

/-!
# Lexemes of a text

The kinds and texts of the tokens of a text do not depend on where it starts (`Lexes`). They
are found from the front, one piece after another.
-/

namespace BlockLang.Token

/-- Wherever the text starts, it is cut into tokens with these kinds and texts, and the end. -/
def Lexes (cs : List Char) (lexemes : List (Kind × String)) : Prop :=
  ∀ file offset, ∃ tokens last, scan file 0 offset cs = .ok (tokens ++ [last]) ∧
    tokens.map lexeme = lexemes ∧ last.kind = .eof

variable {rule : Rule} {text rest : List Char} {lexemes : List (Kind × String)}

theorem Lexes.take {kind : Kind} {value : String} (h : Lexes rest lexemes)
    (hcut : Cuts rule text rest) (hne : text ≠ []) (hmake : rule.make text = some (kind, value)) :
    Lexes (text ++ rest) ((kind, value) :: lexemes) := by
  intro file offset
  obtain ⟨tokens, last, hscan, hlexemes, hlast⟩ := h file (offset + byteLength text)
  let token : Token := ⟨kind, value, .ofBytes offset (offset + byteLength text) file⟩
  refine ⟨token :: tokens, last, ?_, congrArg ((kind, value) :: ·) hlexemes, hlast⟩
  simp only [scan_cut hcut hne, hmake, hscan]
  rfl

theorem Lexes.skip (h : Lexes rest lexemes) (hcut : Cuts rule text rest) (hne : text ≠ [])
    (hmake : rule.make text = none) : Lexes (text ++ rest) lexemes := by
  intro file offset
  simp only [scan_cut hcut hne, hmake]
  exact h file _

theorem lexes_pieces {ps : List Piece} (h : ∀ p ∈ ps, p.Plain) (hmeets : ps.IsChain Piece.Meets) :
    Lexes (Piece.text ps) (Piece.lexemes ps) := fun file offset =>
  scan_pieces file offset h hmeets

/-- A blank is passed over in front of anything else. -/
theorem Lexes.blank (h : Lexes rest lexemes) (hrest : ∀ c ∈ rest.head?, Text.isBlank c = false) :
    Lexes (' ' :: rest) lexemes := h.skip (cuts_blank hrest) nofun rfl

/-- A word in front of a blank. -/
theorem Lexes.word {name : String} (h : Lexes (' ' :: rest) lexemes) (hname : IsIdentifier name) :
    Lexes (name.toList ++ ' ' :: rest) ((.ofWord name, name) :: lexemes) := by
  refine h.take (cuts_word hname fun c hc => ?_) ?_ ?_
  · obtain rfl := Option.some.inj hc
    rfl
  · obtain ⟨c, cs, hcs, -⟩ := hname
    simp [hcs]
  · simp [Rule.word]

theorem Lexes.assignment (h : Lexes (' ' :: rest) lexemes) :
    Lexes ('=' :: ' ' :: rest) ((.assignment, "=") :: lexemes) := by
  have hcut : Cuts (.mark "=" .assignment) ['='] (' ' :: rest) := rfl
  exact h.take hcut (List.cons_ne_nil _ _) rfl

/-- A dash is a mark of its own unless it starts an arrow. -/
theorem cuts_dash (hrest : ∀ c ∈ rest.head?, c ≠ '>') : Cuts (.mark "-" .dash) ['-'] rest := by
  have harrow : (Rule.mark "->" .arrow).length ('-' :: rest) = 0 := by
    cases rest with
    | nil => rfl
    | cons c cs => simp [Rule.mark, (hrest c rfl).symm]
  have hothers : (rules.take 28).all (fun r => r.length ('-' :: rest) == 0) = true := rfl
  refine firstRule?_of_split (rules.take 28 ++ [.mark "->" .arrow, .mark "+" .plus]) rfl
    (fun r hr => ?_) nofun
  simp only [List.mem_append, List.mem_cons, List.not_mem_nil, or_false] at hr
  rcases hr with hr | rfl | rfl
  · exact beq_iff_eq.mp (List.all_eq_true.mp hothers r hr)
  · exact harrow
  · rfl

theorem Lexes.dashes (h : Lexes rest lexemes) (hrest : ∀ c ∈ rest.head?, c ≠ '>') (k : Nat) :
    Lexes (.replicate k '-' ++ rest) (.replicate k (.dash, "-") ++ lexemes) := by
  induction k with
  | zero => exact h
  | succ k ih =>
    have hcut : Cuts (.mark "-" .dash) ['-'] (.replicate k '-' ++ rest) := by
      refine cuts_dash ?_
      cases k with
      | zero => exact hrest
      | succ k => simp [List.replicate_succ]
    exact ih.take hcut (List.cons_ne_nil _ _) rfl

end BlockLang.Token
