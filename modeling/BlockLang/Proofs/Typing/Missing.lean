import BlockLang.Proofs.Session.Run

/-!
# Types that are missing

Inference asks for the type of a temporary from outside if its producer has none. If it
would come to its end without ever getting one, then it makes no difference what the
answer is.
-/

namespace BlockLang

/-- Wherever `p` returns, `q` does the same. -/
def Refines (p q : Task ε α) : Prop := ∀ s a s', p.start s = (.ok a, s') → q.start s = (.ok a, s')

namespace Refines

theorem refl (p : Task ε α) : Refines p p := fun _ _ _ h => h

theorem throw (e : ε) (q : Task ε α) : Refines (throw e) q := by
  intro s a s' h
  cases h

theorem bind {p q : Task ε α} {f g : α → Task ε β} (h : Refines p q)
    (hf : ∀ a, Refines (f a) (g a)) : Refines (p >>= f) (q >>= g) := by
  intro s b s'' hb
  rw [start_bind] at hb
  rcases hp : p.start s with ⟨e | a, s'⟩
  · rw [hp] at hb
    cases hb
  · rw [hp] at hb
    rw [start_bind, h s a s' hp]
    exact hf a s' b s'' hb

theorem forM {f g : α → Task ε PUnit} (h : ∀ a, Refines (f a) (g a)) (xs : List α) :
    Refines (xs.forM f) (xs.forM g) := by
  induction xs with
  | nil => exact .refl _
  | cons x xs ih => exact .bind (h x) fun _ => ih

end Refines

namespace Typing

open Pass

variable {missing other : Pass TypeId}

theorem refines_copyProducer (h : Refines missing other) (node : NodeId) (temp : TempId) :
    Refines (copyProducer missing node temp) (copyProducer other node temp) := by
  refine .bind (.refl _) fun s => .bind (.refl _) fun facts => ?_
  dsimp only
  split
  · exact .refl _
  · exact .bind h fun _ => .refl _

theorem refines_readOperands (h : Refines missing other) (node : NodeId) :
    Refines (readOperands missing node) (readOperands other node) := by
  refine .bind (.refl _) fun operands => .forM (fun operand => .bind (.refl _) fun kind => ?_) _
  split
  · exact refines_copyProducer h _ _
  · exact .refl _

theorem refines_plainStep (h : Refines missing other) (node : NodeId) (kind : NodeKind)
    (result : Option TypeId) (poisoned : Bool) :
    Refines (plainStep missing node kind result poisoned)
      (plainStep other node kind result poisoned) := by
  cases kind with
  | temp τ => exact .bind (refines_copyProducer h node τ) fun _ => .refl _
  | _ => exact .refl _

/-- What follows for the analysis with some fuel, function by function. -/
structure RefinesAt (missing other : Pass TypeId) (fuel : Nat) : Prop where
  statement : ∀ result node, Refines (analyzeStatement missing result fuel node)
    (analyzeStatement other result fuel node)
  children : ∀ result node i, Refines (analyzeChildren missing result fuel node i)
    (analyzeChildren other result fuel node i)
  step : ∀ result node, Refines (analyzeStep missing result fuel node)
    (analyzeStep other result fuel node)
  conditional : ∀ result node, Refines (analyzeIf missing result fuel node)
    (analyzeIf other result fuel node)
  arms : ∀ result node i, Refines (analyzeArms missing result fuel node i)
    (analyzeArms other result fuel node i)
  loop : ∀ result node, Refines (analyzeWhile missing result fuel node)
    (analyzeWhile other result fuel node)

namespace RefinesAt

variable {fuel : Nat} {result : Option TypeId} {node : NodeId} {i : Nat}

theorem zero : RefinesAt missing other 0 := by
  constructor <;> intros
  · unfold analyzeStatement
    exact .refl _
  · unfold analyzeChildren
    exact .refl _
  · unfold analyzeStep
    exact .refl _
  · unfold analyzeIf
    exact .refl _
  · unfold analyzeArms
    exact .refl _
  · unfold analyzeWhile
    exact .refl _

theorem statement_succ (h : RefinesAt missing other fuel) :
    Refines (analyzeStatement missing result (fuel + 1) node)
      (analyzeStatement other result (fuel + 1) node) := by
  unfold analyzeStatement
  refine .bind (.refl _) fun kind => ?_
  split
  · exact .bind (h.children _ _ _) fun _ => .refl _
  · exact .bind (h.children _ _ _) fun _ => .refl _
  · exact h.conditional _ _
  · exact h.loop _ _
  · refine .bind (.refl _) fun _ => .bind (.refl _) fun _ => .bind (.refl _) fun _ =>
      .bind (.refl _) fun body => ?_
    dsimp only
    split
    · exact .bind (h.statement _ _) fun _ => .refl _
    · exact .refl _
  · exact .refl _
  · exact .refl _
  · exact .refl _
  · exact h.step _ _

theorem children_succ (h : RefinesAt missing other fuel) :
    Refines (analyzeChildren missing result (fuel + 1) node i)
      (analyzeChildren other result (fuel + 1) node i) := by
  unfold analyzeChildren
  refine .bind (.refl _) fun child => ?_
  split
  · exact .refl _
  · exact .bind (h.statement _ _) fun _ => .bind (.refl _) fun _ => h.children _ _ _

/-- Operands that are read take the type of their producers, so this is where a type may be
missing. -/
theorem step_succ (hm : Refines missing other) (h : RefinesAt missing other fuel) :
    Refines (analyzeStep missing result (fuel + 1) node)
      (analyzeStep other result (fuel + 1) node) := by
  unfold analyzeStep
  refine .bind (.refl _) fun kind => .bind (refines_readOperands hm node) fun _ =>
    .bind (.refl _) fun poisoned => ?_
  split
  · refine .bind (.refl _) fun value => ?_
    dsimp only
    split
    · exact .bind (h.step _ _) fun _ => .refl _
    · exact .refl _
  case h_11 => exact refines_plainStep hm _ _ _ _
  all_goals exact h.statement _ _

theorem conditional_succ (h : RefinesAt missing other fuel) :
    Refines (analyzeIf missing result (fuel + 1) node)
      (analyzeIf other result (fuel + 1) node) := by
  unfold analyzeIf
  refine .bind (.refl _) fun condition => ?_
  split
  · exact .refl _
  refine .bind (h.statement _ _) fun _ => .bind (.refl _) fun _ => .bind (.refl _) fun known => ?_
  split
  · refine .bind (.refl _) fun parts => ?_
    dsimp only
    split
    · exact .bind (.refl _) fun _ => .bind (.refl _) fun _ =>
        .bind (h.statement _ _) fun _ => .refl _
    · exact .bind (.refl _) fun _ => .bind (.refl _) fun _ =>
        .bind (h.statement _ _) fun _ => .refl _
  · exact .bind (h.arms _ _ _) fun _ => .refl _

theorem arms_succ (h : RefinesAt missing other fuel) :
    Refines (analyzeArms missing result (fuel + 1) node i)
      (analyzeArms other result (fuel + 1) node i) := by
  unfold analyzeArms
  refine .bind (.refl _) fun arm => ?_
  split
  · exact .refl _
  · exact .bind (h.statement _ _) fun _ => .bind (.refl _) fun _ =>
      .bind (h.arms _ _ _) fun _ => .refl _

theorem loop_succ (h : RefinesAt missing other fuel) :
    Refines (analyzeWhile missing result (fuel + 1) node)
      (analyzeWhile other result (fuel + 1) node) := by
  unfold analyzeWhile
  refine .bind (.refl _) fun condition => ?_
  split
  · exact .refl _
  refine .bind (h.statement _ _) fun _ => .bind (.refl _) fun _ => .bind (.refl _) fun known => ?_
  split
  · exact .refl _
  · refine .bind (.refl _) fun body => ?_
    dsimp only
    split
    · exact .bind (h.statement _ _) fun _ => .refl _
    · exact .refl _

end RefinesAt

theorem refinesAt (hm : Refines missing other) (fuel : Nat) : RefinesAt missing other fuel := by
  induction fuel with
  | zero => exact .zero
  | succ fuel ih =>
    exact ⟨fun _ _ => ih.statement_succ, fun _ _ _ => ih.children_succ, fun _ _ => ih.step_succ hm,
      fun _ _ => ih.conditional_succ, fun _ _ _ => ih.arms_succ, fun _ _ => ih.loop_succ⟩

end Typing

/-- Inference that needs no missing type ends in the same way with any. -/
theorem refines_inferWith (missing : Pass TypeId) (fault : Fault) (root : NodeId) :
    Refines (inferWith (throw fault) root) (inferWith missing root) :=
  .bind (.refl _) fun _ => (Typing.refinesAt (.throw fault missing) _).children _ _ _

end BlockLang
