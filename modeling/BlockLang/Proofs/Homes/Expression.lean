import BlockLang.Grammar.Statement
import BlockLang.Proofs.Homes.Cursor

/-!
# Blocks and expressions in place

Every production of the grammar of expressions keeps what it adds in place, if those of its
parts do. A block alone opens a scope, and what is read up to its end is written there.
-/

namespace BlockLang

namespace Grammar

open Parse

variable {g : Ground} {spot : Spot} {s₀ : Session} {hs : List NodeId} {kind : Token.Kind}
  {parts : Productions Power}

-- ---------------------------------------------------------------------------
-- Types
-- ---------------------------------------------------------------------------

theorem calm_boundedNumber (token : Token) (limit : Nat) :
    Calm g (boundedNumber token limit) := .ite (.pure _) (calm_fail _ _)

theorem calm_fieldName : Calm g fieldName := by
  intro spot c s hc
  by_cases hname : c.current.kind = .identifier ∧ c.peekKind 1 = .colon
  · have hrun : fieldName.run c =
        (do let name ← advance; let _ ← advance; return some name.value : Parse _).run c := by
      simp [fieldName, hname]
    have hnext : c.next.current.kind = .colon := by
      have hpeek := hname.2
      unfold Cursor.next Cursor.current
      cases hrest : c.rest with
      | nil => simpa [Cursor.peekKind, hrest] using hpeek
      | cons t rest => cases rest <;> simpa [Cursor.peekKind, hrest] using hpeek
    rw [hrun]
    refine ⟨rfl, (hc.next ?_).next ?_⟩
    · rw [hname.1]
      decide
    · rw [hnext]
      decide
  · have hrun : fieldName.run c = (Pure.pure none : Parse _).run c := by simp [fieldName, hname]
    rw [hrun]
    exact ⟨rfl, hc⟩

theorem calm_typeSyntax {type : Parse TypeExpr} (h : Calm g type) : Calm g (typeSyntax type) := by
  refine calm_currentKind.bind fun kind => ?_
  split
  · refine (calm_expect (by decide)).bind fun _ => (calm_accept (by decide)).bind fun _ =>
      .ite (calm_bound.bind fun _ => ?_) (.pure _)
    exact (calm_separated _ h _).bind fun _ => (calm_expect (by decide)).bind fun _ => .pure _
  · refine (calm_expect (by decide)).bind fun _ => h.bind fun _ =>
      (calm_accept (by decide)).bind fun _ => .ite ?_ ?_
    · exact (calm_expect (by decide)).bind fun _ => (calm_boundedNumber _ _).bind fun _ =>
        (calm_expect (by decide)).bind fun _ => .pure _
    · exact (calm_expect (by decide)).bind fun _ => .pure _
  · have hitem : Calm g (do return (← fieldName, ← type)) :=
      calm_fieldName.bind fun _ => h.bind fun _ => .pure _
    refine (calm_expect (by decide)).bind fun _ => calm_bound.bind fun _ =>
      (calm_separated _ hitem _).bind fun r => (calm_expect (by decide)).bind fun _ => ?_
    split <;> exact .pure _
  · exact (calm_expect (by decide)).bind fun _ => h.bind fun _ => .pure _
  · refine (calm_expect (by decide)).bind fun _ => (calm_expect (by decide)).bind fun _ =>
      calm_bound.bind fun _ => (calm_separated _ h _).bind fun r =>
      (calm_expect (by decide)).bind fun _ => (calm_accept (by decide)).bind fun _ =>
      .ite (h.bind fun _ => .pure _) (.pure _)
  · exact calm_unexpected

-- ---------------------------------------------------------------------------
-- Parts
-- ---------------------------------------------------------------------------

/-- The productions keep what they add in place. -/
structure PartsYield (g : Ground) (parts : Productions Power) : Prop where
  type : Calm g parts.type
  expr : ∀ power spot, Yields g spot (parts.expr power) fun id => [id]
  stmt : ∀ spot c s, c.Starts g spot → spot.In g s →
    IfReturns (parts.stmt.run c) s fun r s' => InPlace g spot s [r.1] r.2 s'

theorem PartsYield.plain (hp : PartsYield g parts) (he : ¬ spot.Exporting) :
    Yields g spot parts.stmt fun id => [id] :=
  .of_start fun c s hc hs => hp.stmt spot c s (hc.starts he) hs

/-- A list of items puts one node for each at hand. -/
theorem yields_separated {item : Parse α} {f : α → NodeId} {close : Token.Kind}
    (message : String) (h : Yields g spot item fun a => [f a]) (fuel : Nat) :
    Yields g spot (separated close message item fuel) fun r => r.1.map f := by
  induction fuel with
  | zero => exact fun _ => .endless
  | succ fuel ih =>
    refine fun s₀ => Steps.calm (calm_isAt close) fun b => ?_
    cases b with
    | true => exact .pure rfl
    | false =>
      refine h.then fun first => Steps.calm (calm_accept (by decide)) fun b => ?_
      cases b with
      | true => exact ih.then fun r => .pure rfl
      | false =>
        refine Steps.calm (calm_isAt close) fun b => ?_
        cases b with
        | true => exact .pure rfl
        | false => exact .refuse message

-- ---------------------------------------------------------------------------
-- Blocks
-- ---------------------------------------------------------------------------

theorem yields_statements (hp : PartsYield g parts) (he : ¬ spot.Exporting) (fuel : Nat) :
    Yields g spot (statements parts fuel) fun ids => ids := by
  induction fuel with
  | zero => exact fun _ => .endless
  | succ fuel ih =>
    refine fun s₀ => Steps.currentKind fun kind => Steps.at ?_
    split
    · exact .pure rfl
    · exact .refuse _
    · exact (hp.plain he).then fun first => ih.then fun ids => .pure rfl

/-- The statements at hand are chained from the last one on. -/
theorem steps_chain (ids ks : List NodeId) :
    Steps g spot s₀ (ks ++ ids) (chain ids) fun r => ks ++ r.toList := by
  induction ids generalizing ks with
  | nil => exact .pure rfl
  | cons first others ih =>
    cases others with
    | nil => exact .pure rfl
    | cons second others =>
      have hothers : Steps g spot s₀ (ks ++ first :: second :: others) (chain (second :: others))
          fun r => ks ++ first :: r.toList := by
        simpa using ih (ks ++ [first])
      refine hothers.bind fun r => ?_
      cases r with
      | none => exact .pure rfl
      | some rest =>
        refine Steps.calm (calm_spanOf _) fun _ => Steps.calm (calm_spanOf _) fun _ => ?_
        exact (Steps.nodeLast rfl _).bind fun id => .pure rfl

/-- Only the scope that was entered is opened by the node that takes what was read there. -/
theorem fresh_of_enter {s s₁ s₂ : Session} {scopeKind : ScopeKind} {parent scope : ScopeId}
    {id : NodeId} (h : g.Lodged (s.enter scopeKind parent) s₁ hs)
    (hchildren : s₂.tree.children id = hs)
    (hscope : ∀ child ∈ hs, s₂.tree.scope child = s.nextScope)
    (ho : s₂.tree.Opens id scope) : s.scopes.scopes.size ≤ scope.index ∧
      ∀ other, g.New s s₁ other → ¬ s₁.tree.Opens other scope := by
  obtain ⟨-, child, hchild, rfl⟩ := ho
  rw [hscope child (by simp [← hchildren, hchild])]
  exact ⟨Nat.le_refl _, fun other hother => h.not_opens hother⟩

/-- A block leaves a node that opens the scope of its statements. -/
theorem ifReturns_block (hp : PartsYield g parts) {c : Cursor} {s : Session} (hc : c.At g spot)
    (hs : spot.In g s) (hk : c.current.kind ≠ .exportWord) :
    IfReturns ((block parts).run c) s fun r s' =>
      InPlace g spot s [r.1] r.2 s' ∧ s'.tree.kind r.1 = .block := by
  have hnext := hc.next hk
  have hplain : ¬ (spot.enter s.nextScope).Exporting := fun he => List.cons_ne_nil _ _ he.item
  rw [block]
  refine ifReturns_advance.mpr (ifReturns_enterScope.mpr ?_)
  refine calm_bound.run (hnext.enter s.nextScope) fun fuel c₁ hc₁ => ?_
  refine (yields_statements hp hplain fuel _).run (.refl hc₁ (hs.enter .block c.next.scope))
    fun ids c₂ s₂ h₂ => ?_
  refine (steps_chain ids []).run h₂ fun sequence c₃ s₃ h₃ => ifReturns_leaveScope.mpr ?_
  refine (calm_expect (by decide)).run h₃.cursor.leave fun _ c₄ hc₄ => ?_
  refine (calm_spanFrom _).run hc₄ fun span c₅ hc₅ => ?_
  refine (ifReturns_node c₅ s₃ .block span sequence.toList).imp ?_
  rintro ⟨id, c₆⟩ s₄ ⟨hcursor, hn⟩
  obtain rfl : c₆ = c₅ := hcursor
  have hl : g.Lodged s s₃ sequence.toList :=
    (Ground.lodged_enter s .block c.next.scope []).append h₃.lodged
  have hplace := hs.keep hl.toKeeps
  have hbelow : ∀ child ∈ sequence.toList, g.Hands s₃ s.nextScope child := h₃.hands
  have hadmits : g.Admits s₃ .block span c₆.scope sequence.toList := by
    refine ⟨fun child hchild => (hbelow child hchild).toHolds, nofun, ?_, nofun, nofun, nofun⟩
    rintro _ ⟨⟩
    cases sequence with
    | none => exact .inl rfl
    | some child =>
      refine .inr ⟨child, rfl, ?_⟩
      rw [(hbelow child (by simp)).scope, hc₅.scope, ← hnext.scope]
      exact h₃.lodged.scopes (s.scopes.stands_addScope .block (some c.next.scope))
  have hfresh : ∀ scope, s₄.tree.Opens id scope → _ := fun scope =>
    fresh_of_enter h₃.lodged hn.children fun child hchild =>
      ((Ground.keeps_of_addsNode hplace.root hn).hands (hbelow child hchild)).scope
  have hnode := hl.node hplace.root hn hadmits hfresh (fun _ hi => .inl hi)
    (List.mem_singleton_self id) nofun
  have hend : InPlace g spot s ([] ++ [id]) c₆ s₄ := .node hc₅ hplace hn hnode nofun
  exact ⟨hend, hn.kind⟩

theorem stepsAt_block (hp : PartsYield g parts) (hk : kind ≠ .exportWord) :
    StepsAt g spot s₀ [] kind (block parts) fun id => [id] := by
  rintro c s hr rfl
  refine (ifReturns_block hp hr.cursor hr.place hk).imp ?_
  rintro ⟨id, c'⟩ s' ⟨hr', -⟩
  exact hr.append hr'

-- ---------------------------------------------------------------------------
-- Operands
-- ---------------------------------------------------------------------------

theorem yields_literal (type : TypeId) (value : Heap → ValueId × Heap) (span : Span) :
    Yields g spot (literal type value span) fun id => [id] := by
  intro s₀
  refine (Steps.node rfl span).bind fun id => ?_
  refine Steps.other (fun s => ?_) fun value => Steps.other (fun s => ?_) fun _ => .pure rfl
  · exact ⟨rfl, rfl, rfl, rfl, fun id => .refl _ id⟩
  · exact ⟨rfl, rfl, rfl, Arena.size_modify .., fun id => Arena.keepsNode_annotate fun facts =>
      { facts with type := some type, value := some value }⟩

theorem stepsAt_boundedNumber {f : Nat → Parse NodeId} (token : Token) (limit : Nat)
    (hf : ∀ n, StepsAt g spot s₀ hs kind (f n) fun id => [id]) :
    StepsAt g spot s₀ hs kind (boundedNumber token limit >>= f) fun id => [id] := by
  unfold boundedNumber
  dsimp only
  split
  · rw [pure_bind]
    exact hf _
  · exact Steps.at (.stop fun _ _ => trivial)

theorem stepsAt_intLiteral (token : Token) (hk : kind ≠ .exportWord) :
    StepsAt g spot s₀ [] kind (intLiteral token) fun id => [id] :=
  stepsAt_boundedNumber token _ fun _ => StepsAt.advance hk fun _ => yields_literal _ _ _ s₀

theorem stepsAt_stringLiteral (token : Token) (hk : kind ≠ .exportWord) :
    StepsAt g spot s₀ [] kind (stringLiteral token) fun id => [id] :=
  StepsAt.advance hk fun _ => Steps.other (fun _ => ⟨rfl, rfl, rfl, rfl, fun id => .refl _ id⟩)
    fun _ => yields_literal _ _ _ s₀

theorem stepsAt_prefixed (hp : PartsYield g parts) (op : UnaryOp) (hk : kind ≠ .exportWord) :
    StepsAt g spot s₀ [] kind (prefixed parts op) fun id => [id] :=
  StepsAt.advance hk fun _ => (hp.expr .unary spot).then fun _ =>
    Steps.calm (calm_spanFrom _) fun _ => Steps.node rfl _

theorem stepsAt_grouping (hp : PartsYield g parts) (hk : kind ≠ .exportWord) :
    StepsAt g spot s₀ [] kind (grouping parts) fun id => [id] := by
  have helement : Yields g spot (do return (← fieldName, ← parts.expr .comma))
      fun a => [a.2] := fun s₀ =>
    Steps.calm calm_fieldName fun _ => (hp.expr .comma spot).then fun _ => .pure rfl
  refine StepsAt.advance hk fun _ => Steps.calm calm_bound fun fuel =>
    (yields_separated _ helement fuel).then fun r => ?_
  obtain ⟨elements, sawComma⟩ := r
  refine Steps.calm (calm_expect (by decide)) fun _ => ?_
  split
  · exact .pure rfl
  · exact Steps.calm (calm_spanFrom _) fun _ => Steps.node rfl _

theorem stepsAt_listLiteral (hp : PartsYield g parts) (hk : kind ≠ .exportWord) :
    StepsAt g spot s₀ [] kind (listLiteral parts) fun id => [id] := by
  refine StepsAt.advance hk fun _ => Steps.calm calm_bound fun fuel =>
    (yields_separated (f := id) _ (hp.expr .comma spot) fuel).then fun r => ?_
  obtain ⟨elements, _⟩ := r
  refine Steps.calm (calm_expect (by decide)) fun _ => Steps.calm (calm_spanFrom _) fun _ => ?_
  rw [List.map_id]
  exact Steps.node rfl _

/-- The arms are read where the whole is. -/
theorem stepsAt_conditional (hp : PartsYield g parts) {arm : Parse NodeId}
    (harm : Yields g spot arm fun id => [id]) (hk : kind ≠ .exportWord) :
    StepsAt g spot s₀ [] kind (conditional parts arm) fun id => [id] := by
  refine StepsAt.advance hk fun _ => (hp.expr .lowest spot).then fun condition =>
    harm.then fun first => Steps.calm (calm_accept (by decide)) fun b => ?_
  cases b with
  | true =>
    simp only [↓reduceIte, pure_bind]
    exact harm.then fun second => Steps.calm (calm_spanFrom _) fun _ => Steps.node rfl _
  | false =>
    simp only [Bool.false_eq_true, ↓reduceIte, pure_bind]
    exact Steps.calm (calm_spanFrom _) fun _ => Steps.node rfl _

theorem yields_armExpr (hp : PartsYield g parts) :
    Yields g spot (armExpr parts) fun id => [id] := fun s₀ =>
  Steps.isAt (stepsAt_block hp (by decide)) (hp.expr .comma spot s₀)

theorem yields_operand (hp : PartsYield g parts) :
    Yields g spot (operand parts) fun id => [id] := by
  refine fun s₀ => Steps.current fun token => ?_
  split
  all_goals rename_i hkind
  · exact stepsAt_intLiteral token (by simp [hkind])
  · exact StepsAt.advance (by simp [hkind]) fun _ => yields_literal _ _ _ s₀
  · exact StepsAt.advance (by simp [hkind]) fun _ => yields_literal _ _ _ s₀
  · exact StepsAt.advance (by simp [hkind]) fun _ => yields_literal _ _ _ s₀
  · exact stepsAt_stringLiteral token (by simp [hkind])
  · exact StepsAt.advance (by simp [hkind]) fun _ => Yields.symbol _ _ s₀
  · exact stepsAt_prefixed hp .neg (by simp [hkind])
  · exact stepsAt_prefixed hp .not (by simp [hkind])
  · exact stepsAt_grouping hp (by simp [hkind])
  · exact stepsAt_listLiteral hp (by simp [hkind])
  · exact stepsAt_block hp (by simp [hkind])
  · exact stepsAt_conditional hp (yields_armExpr hp) (by simp [hkind])
  · exact Steps.at .unexpected

-- ---------------------------------------------------------------------------
-- Continuations
-- ---------------------------------------------------------------------------

variable {left : NodeId}

theorem stepsAt_operation (hp : PartsYield g parts) {nodeKind : NodeKind} (power : Power)
    (hlevel : nodeKind.isLevel = true) (hk : kind ≠ .exportWord) :
    StepsAt g spot s₀ [left] kind (operation parts nodeKind power left) fun id => [id] :=
  StepsAt.advance hk fun _ => (hp.expr power spot).then fun _ =>
    Steps.calm (calm_spanOf _) fun _ => Steps.calm (calm_spanOf _) fun _ => Steps.node hlevel _

theorem yields_arguments (hp : PartsYield g parts) (fuel : Nat) :
    Yields g spot (arguments parts fuel) fun ids => ids := by
  induction fuel with
  | zero => exact fun _ => .endless
  | succ fuel ih =>
    refine fun s₀ => Steps.currentKind fun kind => ?_
    split
    · exact Steps.at (.pure rfl)
    · exact StepsAt.advance (by decide) fun _ => ih s₀
    · exact Steps.at ((hp.expr .comma spot).then fun first => ih.then fun ids => .pure rfl)

/-- The name that is called is not part of the tree. -/
theorem stepsAt_call (hp : PartsYield g parts) (hk : kind ≠ .exportWord) :
    StepsAt g spot s₀ [left] kind (call parts left) fun id => [id] := by
  intro c s hr hkind
  rw [call, StateT.run_bind]
  refine triple_bind.mpr (triple_session.mpr ?_)
  dsimp only
  split
  · next name hname =>
    have hdropped : InPlace g spot s₀ [] c s :=
      ⟨hr.cursor, hr.place, hr.lodged.drop hname, nofun⟩
    have hcall : ∀ start, StepsAt g spot s₀ [] kind (do
        let _ ← advance
        let args ← arguments parts (← bound)
        let _ ← expect .closeParen
        node (.call name) (← spanFrom start) args) fun id => [id] := fun start =>
      StepsAt.advance hk fun _ => Steps.calm calm_bound fun fuel =>
        (yields_arguments hp fuel).then fun args => Steps.calm (calm_expect (by decide)) fun _ =>
        Steps.calm (calm_spanFrom _) fun _ => Steps.node rfl _
    rw [StateT.run_bind]
    refine triple_bind.mpr
      (Triple.of_start (rfl : _ = (Except.ok (s.tree.span left, c), s)) ?_)
    exact hcall (s.tree.span left).start c s hdropped hkind
  · trivial

theorem stepsAt_indexing (hp : PartsYield g parts) (hk : kind ≠ .exportWord) :
    StepsAt g spot s₀ [left] kind (indexing parts left) fun id => [id] :=
  StepsAt.advance hk fun _ => (hp.expr .lowest spot).then fun index =>
    Steps.calm (calm_expect (by decide)) fun _ => Steps.calm (calm_spanOf _) fun _ =>
    Steps.calm (calm_spanFrom _) fun _ => Steps.node rfl _

theorem stepsAt_memberAccess (hk : kind ≠ .exportWord) :
    StepsAt g spot s₀ [left] kind (memberAccess left) fun id => [id] := by
  have hname : ∀ {kind : Token.Kind}, kind ≠ .exportWord → StepsAt g spot s₀ [left] kind (do
      let name ← advance
      node (.field name.value) (← spanFrom (← spanOf left).start) [left]) fun id => [id] :=
    fun hk => StepsAt.advance hk fun _ => Steps.calm (calm_spanOf _) fun _ =>
      Steps.calm (calm_spanFrom _) fun _ => Steps.node rfl _
  refine StepsAt.advance hk fun _ => Steps.currentKind fun kind => ?_
  split
  · exact hname (by decide)
  · exact hname (by decide)
  · exact Steps.at (.refuse _)

theorem stepsAt_extend (hp : PartsYield g parts) (next : Continuation) (hk : kind ≠ .exportWord) :
    StepsAt g spot s₀ [left] kind (extend parts left next) fun id => [id] := by
  cases next with
  | assign => exact stepsAt_operation hp .comma rfl hk
  | refBind => exact stepsAt_operation hp .comma rfl hk
  | binary op => exact stepsAt_operation hp (operatorPower op) rfl hk
  | call => exact stepsAt_call hp hk
  | index => exact stepsAt_indexing hp hk
  | member => exact stepsAt_memberAccess hk

theorem steps_climb (hp : PartsYield g parts) (power : Power) (fuel : Nat) :
    Steps g spot s₀ [left] (climb parts power fuel left) fun id => [id] := by
  induction fuel generalizing left with
  | zero => exact .endless
  | succ fuel ih =>
    refine Steps.currentKind fun kind => ?_
    split
    · exact Steps.at (.pure rfl)
    · next next hnext =>
      have hk : kind ≠ .exportWord := by
        rintro rfl
        cases hnext
      split
      · exact Steps.at (.pure rfl)
      · exact (stepsAt_extend hp next hk).bind fun id => ih

theorem yields_expression (hp : PartsYield g parts) (power : Power) :
    Yields g spot (expression parts power) fun id => [id] := fun s₀ =>
  (yields_operand hp s₀).bind fun _ => Steps.calm calm_bound fun fuel => steps_climb hp power fuel

end Grammar
end BlockLang
