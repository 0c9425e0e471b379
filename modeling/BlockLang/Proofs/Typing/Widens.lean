import BlockLang.Proofs.Session.Run
import BlockLang.Proofs.Types.Wrong

/-!
# What resolving a written type reports

Whatever a written type refers to, resolving it adds to the table of types only, and reports
nothing but types that are not there or refer to themselves.
-/

namespace BlockLang

/-- The table of types has only grown, and what has been reported since is as `D` says. -/
structure Widens (D : Problem → Prop) (s s' : Session) : Prop where
  grown : s.types.Extends s'.types
  report : ∃ ds, s'.report = s.report ++ ds ∧ ∀ d ∈ ds, D d.problem

/-- If the pass returns, it has only widened the session. -/
def Widening (D : Problem → Prop) (p : Pass α) : Prop :=
  ∀ s, IfReturns p s fun _ s' => Widens D s s'

section
variable {D : Problem → Prop} {s s' s'' : Session}

theorem Widens.of_report (hg : s.types.Extends s'.types) (hr : s'.report = s.report) :
    Widens D s s' := ⟨hg, [], by simp [hr], by simp⟩

theorem Widens.of_same (ht : s'.types = s.types) (hr : s'.report = s.report) : Widens D s s' :=
  .of_report (ht ▸ .refl _) hr

theorem Widens.refl (s : Session) : Widens D s s := .of_same rfl rfl

theorem Widens.trans (h : Widens D s s') (h' : Widens D s' s'') : Widens D s s'' := by
  obtain ⟨ds, hr, hd⟩ := h.report
  obtain ⟨ds', hr', hd'⟩ := h'.report
  refine ⟨h.grown.trans h'.grown, ds ++ ds', by rw [hr', hr, List.append_assoc], ?_⟩
  exact List.forall_mem_append.mpr ⟨hd, hd'⟩

theorem Widens.mono {D' : Problem → Prop} (h : Widens D s s') (hd : ∀ p, D p → D' p) :
    Widens D' s s' := by
  obtain ⟨ds, hr, hall⟩ := h.report
  exact ⟨h.grown, ds, hr, fun d hm => hd _ (hall d hm)⟩

namespace Widening

variable {p : Pass α} {f : α → Pass β}

theorem pure (a : α) : Widening D (Pure.pure a : Pass α) := fun s => .refl s

theorem bind (h : Widening D p) (hf : ∀ a, Widening D (f a)) : Widening D (p >>= f) := by
  intro s
  refine triple_bind.mpr ((h s).imp fun a s₁ hw => ?_)
  exact (hf a s₁).imp fun _ s₂ => hw.trans

theorem map {g : α → β} (h : Widening D p) : Widening D (g <$> p) := fun s =>
  triple_map.mpr (h s)

theorem ite {c : Prop} [Decidable c] {p q : Pass α} (hp : Widening D p) (hq : Widening D q) :
    Widening D (if c then p else q) := by
  split
  · exact hp
  · exact hq

theorem mapM {f : α → Pass β} (h : ∀ a, Widening D (f a)) (xs : List α) :
    Widening D (xs.mapM f) := by
  induction xs with
  | nil => exact .pure []
  | cons x xs ih =>
    rw [List.mapM_cons]
    exact (h x).bind fun _ => ih.bind fun _ => .pure _

/-- Neither types nor reports are touched. -/
theorem of_same (h : ∀ s, IfReturns p s fun _ s' => s'.types = s.types ∧ s'.report = s.report) :
    Widening D p := fun s => (h s).imp fun _ _ h => .of_same h.1 h.2

theorem makeType {f : TypeTable → TypeId × TypeTable}
    (h : ∀ t : TypeTable, t.Extends (f t).2) : Widening D (Pass.makeType f) :=
  fun s => .of_report (h s.types) rfl

theorem report {d : Diagnostic} (h : D d.problem) : Widening D (Pass.report d) :=
  fun s => ⟨.refl _, [d], rfl, by simpa using h⟩

theorem lookUp (f : ScopeTable → Except Fault α) : Widening D (Pass.lookUp f) := by
  refine .of_same fun s => Pass.triple_lookUp.mpr ?_
  split <;> trivial

theorem onValues? (f : Heap → Option (α × Heap)) : Widening D (Pass.onValues? f) := by
  refine .of_same fun s => Pass.triple_onValues?.mpr ?_
  split <;> exact ⟨rfl, rfl⟩

end Widening
end

-- ---------------------------------------------------------------------------
-- Resolving
-- ---------------------------------------------------------------------------

/-- Whether something is wrong with a written type: it is not there, or refers to itself. -/
def Problem.isOfType : Problem → Bool
  | .unknownType _ | .recursiveType _ => true
  | _ => false

namespace Typing

open Pass

variable {define : Define}

/-- The pass reports only what is wrong with written types. -/
abbrev Resolving (p : Pass α) : Prop := Widening (fun problem => problem.isOfType = true) p

theorem resolving_resolveNamed (hd : ∀ id position, Resolving (define id position))
    (scope : ScopeId) (name : String) (args : List TypeId) (position : Position) :
    Resolving (resolveNamed define scope name args position) := by
  refine .bind (.lookUp _) fun found => ?_
  split
  · exact .bind (.report rfl) fun _ => .pure _
  · refine .bind (hd _ position) fun body => ?_
    split
    · exact .pure _
    · refine .bind (fun s => .refl s) fun scopes => ?_
      dsimp only
      split
      · exact .pure _
      · exact .makeType fun t => t.extends_makeNamed _ _ _ _

mutual

theorem resolving_resolveIn (hd : ∀ id position, Resolving (define id position))
    (scope : ScopeId) (env : ParamEnv) :
    (expr : TypeExpr) → Resolving (resolveIn define scope env expr)
  | .name name args position => by
    unfold resolveIn
    split
    · exact .pure _
    · exact (resolving_resolveList hd scope env _).bind fun _ =>
        resolving_resolveNamed hd scope name _ position
  | .list element length => by
    unfold resolveIn
    exact (resolving_resolveIn hd scope env element).bind fun _ =>
      .makeType fun t => t.extends_intern _
  | .tuple fields => by
    unfold resolveIn
    exact (resolving_resolveFields hd scope env fields).bind fun _ =>
      .makeType fun t => t.extends_intern _
  | .reference target => by
    unfold resolveIn
    exact (resolving_resolveIn hd scope env target).bind fun _ =>
      .makeType fun t => t.extends_intern _
  | .func arguments result => by
    unfold resolveIn
    exact (resolving_resolveList hd scope env arguments).bind fun _ =>
      .bind (.makeType fun t => t.extends_intern _) fun _ =>
        (resolving_resolveIn hd scope env result).bind fun _ =>
          .makeType fun t => t.extends_intern _

theorem resolving_resolveList (hd : ∀ id position, Resolving (define id position))
    (scope : ScopeId) (env : ParamEnv) :
    (exprs : List TypeExpr) → Resolving (resolveList define scope env exprs)
  | [] => by
    unfold resolveList
    exact .pure _
  | expr :: exprs => by
    unfold resolveList
    exact (resolving_resolveIn hd scope env expr).bind fun _ =>
      (resolving_resolveList hd scope env exprs).bind fun _ => .pure _

theorem resolving_resolveFields (hd : ∀ id position, Resolving (define id position))
    (scope : ScopeId) (env : ParamEnv) :
    (fields : List (Option String × TypeExpr)) → Resolving (resolveFields define scope env fields)
  | [] => by
    unfold resolveFields
    exact .pure _
  | (name, expr) :: fields => by
    unfold resolveFields
    exact (resolving_resolveIn hd scope env expr).bind fun _ =>
      (resolving_resolveFields hd scope env fields).bind fun _ => .pure _

end

theorem resolving_resolveDef (depth : Nat) (id : TypeDefId) (position : Position) :
    Resolving (resolveDef depth id position) := by
  induction depth generalizing id position with
  | zero => exact fun s => trivial
  | succ depth ih =>
    have hupdate : ∀ f : TypeDef → TypeDef, Resolving (modify fun s : Session =>
        { s with scopes := s.scopes.modifyTypeDef id f }) := fun _ s => .of_same rfl rfl
    unfold resolveDef
    refine .bind (fun s => .refl s) fun scopes => ?_
    dsimp only
    split
    · exact .pure _
    refine .ite (.bind (.report rfl) fun _ => .pure _) ?_
    split
    · exact (hupdate _).bind fun _ => .pure _
    · refine (hupdate _).bind fun _ => .bind (.mapM (fun name => ?_) _) fun env => ?_
      · exact .bind (.makeType fun t => t.extends_intern _) fun _ => .pure _
      · exact (resolving_resolveIn ih _ env _).bind fun _ => (hupdate _).bind fun _ => .pure _

theorem resolving_resolveType (scope : ScopeId) (expr : TypeExpr) :
    Resolving (resolveType scope expr) := by
  refine resolving_resolveIn (fun id position => ?_) scope [] expr
  exact .bind (fun s => .refl s) fun _ => resolving_resolveDef _ id position

end Typing
end BlockLang
