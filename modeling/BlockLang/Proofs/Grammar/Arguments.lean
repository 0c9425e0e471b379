import BlockLang.Proofs.Grammar.Precedence

/-!
# Argument lists

Whatever can stand in a tuple can stand between the parentheses of a call, and it is read alike
there. Commas have no part in that: a call reads over them wherever an argument can start.
-/

namespace BlockLang.Grammar

open Parse

variable {parts : Productions Power} {fuel : Nat} {c : Cursor} {s : Session}

-- ---------------------------------------------------------------------------
-- One argument
-- ---------------------------------------------------------------------------

theorem run_arguments_close (h : c.current.kind = .closeParen) :
    (arguments parts (fuel + 1)).run c = pure ([], c) := by
  rw [arguments, run_bind_of_gets gets_currentKind, h]
  rfl

/-- A comma changes nothing. -/
theorem run_arguments_comma (h : c.current.kind = .comma) :
    (arguments parts (fuel + 1)).run c = (arguments parts fuel).run c.next := by
  rw [arguments, run_bind_of_gets gets_currentKind, h]
  rfl

theorem run_arguments_item (hclose : c.current.kind ≠ .closeParen)
    (hcomma : c.current.kind ≠ .comma) :
    (arguments parts (fuel + 1)).run c =
      (do let first ← parts.expr .comma; return first :: (← arguments parts fuel)).run c := by
  rw [arguments, run_bind_of_gets gets_currentKind]
  split
  · contradiction
  · contradiction
  · rfl

-- ---------------------------------------------------------------------------
-- The list
-- ---------------------------------------------------------------------------

/-- No expression starts with a comma. -/
theorem ifReturns_expr_comma (depth : Nat) (power : Power) (h : c.current.kind = .comma) :
    IfReturns (((productions depth).expr power).run c) s fun _ _ => False := by
  cases depth with
  | zero => trivial
  | succ depth =>
    have hoperand : (operand (productions depth)).run c = (unexpected : Parse NodeId).run c := by
      rw [operand, run_bind_of_gets gets_current, h]
    show IfReturns ((expression (productions depth) power).run c) s _
    rw [expression, StateT.run_bind, hoperand]
    trivial

theorem start_run_bind {p : Parse α} {f : α → Parse β} {a : α} {c' : Cursor} {s' : Session}
    (h : (p.run c).start s = (.ok (a, c'), s')) :
    ((p >>= f).run c).start s = ((f a).run c').start s' := by
  rw [StateT.run_bind, start_bind, h]

/-- What is read as a list with single commas, perhaps with one at the end, is read alike as
arguments. -/
theorem arguments_of_separated (depth : Nat) (message : String) (fuel : Nat) (c : Cursor)
    (s : Session) : IfReturns
      ((separated .closeParen message ((productions depth).expr .comma) fuel).run c) s fun r s' =>
        ((arguments (productions depth) (2 * fuel)).run c).start s = (.ok (r.1.1, r.2), s') := by
  induction fuel generalizing c s with
  | zero => trivial
  | succ fuel ih =>
    rw [separated, run_bind_of_gets (gets_isAt .closeParen)]
    by_cases hclose : c.current.kind = .closeParen
    · rw [decide_eq_true hclose]
      show ((arguments (productions depth) (2 * fuel + 1 + 1)).run c).start s = _
      rw [run_arguments_close hclose]
      rfl
    rw [decide_eq_false hclose]
    by_cases hcomma : c.current.kind = .comma
    · rw [if_neg Bool.false_ne_true, StateT.run_bind]
      exact triple_bind.mpr ((ifReturns_expr_comma depth .comma hcomma).imp fun _ _ => False.elim)
    rw [if_neg Bool.false_ne_true, StateT.run_bind]
    refine triple_bind.mpr ((ifReturns_start _ s).imp ?_)
    rintro ⟨first, c₁⟩ s₁ hfirst
    -- it is enough to read the others from where the first argument ends
    have hothers : ∀ {ids c' s'},
        ((arguments (productions depth) (2 * fuel + 1)).run c₁).start s₁ = (.ok (ids, c'), s') →
        ((arguments (productions depth) (2 * fuel + 1 + 1)).run c).start s =
          (.ok (first :: ids, c'), s') := by
      intro ids c' s' h
      rw [run_arguments_item hclose hcomma, start_run_bind hfirst, start_run_bind h]
      rfl
    by_cases hnext : c₁.current.kind = .comma
    · rw [run_bind_of_gets (gets_accept hnext), if_pos rfl, StateT.run_bind]
      refine triple_bind.mpr ((ih c₁.next s₁).imp ?_)
      rintro ⟨⟨ids, comma⟩, c₂⟩ s₂ h
      refine hothers ?_
      rw [run_arguments_comma hnext]
      exact h
    rw [run_bind_of_gets (gets_accept_false hnext), if_neg Bool.false_ne_true,
      run_bind_of_gets (gets_isAt .closeParen)]
    by_cases hend : c₁.current.kind = .closeParen
    · rw [decide_eq_true hend]
      refine hothers ?_
      rw [run_arguments_close hend]
      rfl
    · rw [decide_eq_false hend]
      trivial

end BlockLang.Grammar
