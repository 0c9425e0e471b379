import BlockLang.Proofs.Grammar.Statement
import BlockLang.Proofs.Spans.Cursor

/-!
# Expressions in a row

A node goes from its first token, or from where its first operand starts, to the last token read
or to where its last operand stops. Parentheses leave no node, so an operand may stand within
them; the tokens around it still belong to what is read between the ends.
-/

namespace BlockLang.Grammar

open Parse

variable {e : Extent} {m : Mark} {hs : List NodeId} {parts : Productions Power} {token : Token}
  {left : NodeId}

-- ---------------------------------------------------------------------------
-- Parts
-- ---------------------------------------------------------------------------

/-- The productions put one node at hand. -/
structure PartsBring (e : Extent) (parts : Productions Power) : Prop where
  type : Quiet parts.type
  expr : ∀ power, Brings e (parts.expr power) fun id => [id]
  stmt : Brings e parts.stmt fun id => [id]

/-- A list of items puts at hand what each of them does. -/
theorem brings_separated {item : Parse α} {f : α → List NodeId} (close : Token.Kind)
    (message : String) (h : Brings e item f) (fuel : Nat) :
    Brings e (separated close message item fuel) fun r => r.1.flatMap f := by
  induction fuel with
  | zero => exact fun _ => .endless
  | succ fuel ih =>
    refine fun _ => .quiet (quiet_isAt close) fun b => ?_
    cases b with
    | true => exact .pure rfl
    | false =>
      refine h.first fun first => .quiet (quiet_accept _) fun b => ?_
      cases b with
      | true => exact ih.then fun r => .pure List.flatMap_cons
      | false =>
        refine .quiet (quiet_isAt close) fun b => ?_
        cases b with
        | true => exact .pure (List.flatMap_singleton f first)
        | false => exact .refuse message

-- ---------------------------------------------------------------------------
-- Blocks
-- ---------------------------------------------------------------------------

theorem brings_statements (hp : PartsBring e parts) (fuel : Nat) :
    Brings e (statements parts fuel) fun ids => ids := by
  induction fuel with
  | zero => exact fun _ => .endless
  | succ fuel ih =>
    refine fun _ => .quiet quiet_currentKind fun kind => ?_
    split
    · exact .pure rfl
    · exact .refuse _
    · exact hp.stmt.first fun first => ih.then fun ids => .pure rfl

/-- The statements at hand are chained from the last one on. -/
theorem lays_chain (ids ks : List NodeId) :
    Lays e m (ks ++ ids) (chain ids) fun r => ks ++ r.toList := by
  induction ids generalizing ks with
  | nil => exact .pure rfl
  | cons first others ih =>
    cases others with
    | nil => exact .pure rfl
    | cons second others =>
      have hothers : Lays e m (ks ++ first :: second :: others) (chain (second :: others))
          fun r => ks ++ first :: r.toList := by
        simpa using ih (ks ++ [first])
      refine hothers.bind fun r => ?_
      cases r with
      | none => exact .pure rfl
      | some rest =>
        have hpair : Lays e m (ks ++ [first, rest]) ((do
            node .pair ((← spanOf first).to (← spanOf rest)) [first, rest]) >>= fun id =>
              Pure.pure (some id)) fun r => ks ++ r.toList :=
          (Lays.nodeAcross .pair first rest).bind fun id => .pure rfl
        simp only [bind_assoc] at hpair
        exact hpair

theorem laysAt_block (hp : PartsBring e parts) (hk : token.kind ≠ .eof) :
    LaysAt e m token (block parts) fun id => [id] :=
  .advance hk (.still (still_enterScope .block) fun _ => .quiet quiet_bound fun fuel =>
    (brings_statements hp fuel).first fun ids => (lays_chain ids []).bind fun _ =>
    .still still_leaveScope fun _ => .quiet (quiet_expect _) fun _ => .nodeFrom .block)

-- ---------------------------------------------------------------------------
-- Operands
-- ---------------------------------------------------------------------------

theorem stamps_literal (type : TypeId) (value : Heap → ValueId × Heap) (span : Span) :
    Stamps e span (literal type value span) :=
  (Stamps.node .literal).bind fun _ _ => .still (still_onValues value) fun _ =>
    .still (still_annotate _ _) fun _ => .pure rfl

theorem laysAt_intLiteral (hk : token.kind ≠ .eof) :
    LaysAt e m token (intLiteral token) fun id => [id] := by
  unfold intLiteral boundedNumber
  dsimp only
  split
  · rw [pure_bind]
    exact .leaf hk fun _ => stamps_literal _ _ _
  · exact Lays.at (.stop fun _ _ => trivial)

theorem laysAt_stringLiteral (hk : token.kind ≠ .eof) :
    LaysAt e m token (stringLiteral token) fun id => [id] :=
  .leaf hk fun _ => .still (still_makeType _) fun _ => stamps_literal _ _ _

theorem laysAt_prefixed (hp : PartsBring e parts) (op : UnaryOp) (hk : token.kind ≠ .eof) :
    LaysAt e m token (prefixed parts op) fun id => [id] :=
  .advance hk ((hp.expr .unary).first fun _ => .nodeFrom (.unary op))

theorem laysAt_grouping (hp : PartsBring e parts) (hk : token.kind ≠ .eof) :
    LaysAt e m token (grouping parts) fun id => [id] := by
  have helement : Brings e (do return (← fieldName, ← parts.expr .comma)) fun a => [a.2] :=
    fun _ => .quiet quiet_fieldName fun _ => (hp.expr .comma).first fun _ => .pure rfl
  refine .advance hk (.quiet quiet_bound fun fuel =>
    (brings_separated _ _ helement fuel).first fun r => ?_)
  obtain ⟨elements, sawComma⟩ := r
  refine .quiet (quiet_expect _) fun _ => ?_
  split
  · exact .pure rfl
  · rw [← List.map_eq_flatMap]
    exact .nodeFrom _

theorem laysAt_listLiteral (hp : PartsBring e parts) (hk : token.kind ≠ .eof) :
    LaysAt e m token (listLiteral parts) fun id => [id] := by
  refine .advance hk (.quiet quiet_bound fun fuel =>
    (brings_separated _ _ (hp.expr .comma) fuel).first fun r => ?_)
  obtain ⟨elements, _⟩ := r
  rw [List.flatMap_singleton']
  exact .quiet (quiet_expect _) fun _ => .nodeFrom .list

theorem laysAt_conditional (hp : PartsBring e parts) {arm : Parse NodeId}
    (harm : Brings e arm fun id => [id]) (hk : token.kind ≠ .eof) :
    LaysAt e m token (conditional parts arm) fun id => [id] := by
  refine .advance hk ((hp.expr .lowest).first fun condition => harm.then fun first =>
    .quiet (quiet_accept _) fun b => ?_)
  cases b with
  | true =>
    simp only [↓reduceIte, pure_bind]
    exact harm.then fun second => .nodeFrom .ifElse
  | false =>
    simp only [Bool.false_eq_true, ↓reduceIte, pure_bind]
    exact .nodeFrom .ifElse

theorem brings_armExpr (hp : PartsBring e parts) :
    Brings e (armExpr parts) fun id => [id] := fun lo =>
  .isAt (fun _ hk => laysAt_block hp (by simp [hk])) (hp.expr .comma lo)

theorem brings_operand (hp : PartsBring e parts) :
    Brings e (operand parts) fun id => [id] := by
  refine fun lo => .current fun token => ?_
  split
  all_goals rename_i hkind
  · exact laysAt_intLiteral (by simp [hkind])
  · exact .leaf (by simp [hkind]) fun _ => stamps_literal _ _ _
  · exact .leaf (by simp [hkind]) fun _ => stamps_literal _ _ _
  · exact .leaf (by simp [hkind]) fun _ => stamps_literal _ _ _
  · exact laysAt_stringLiteral (by simp [hkind])
  · exact .leaf (by simp [hkind]) fun _ => .node _
  · exact laysAt_prefixed hp .neg (by simp [hkind])
  · exact laysAt_prefixed hp .not (by simp [hkind])
  · exact laysAt_grouping hp (by simp [hkind])
  · exact laysAt_listLiteral hp (by simp [hkind])
  · exact laysAt_block hp (by simp [hkind])
  · exact laysAt_conditional hp (brings_armExpr hp) (by simp [hkind])
  · exact Lays.at .unexpected

-- ---------------------------------------------------------------------------
-- Continuations
-- ---------------------------------------------------------------------------

theorem lays_operation (hp : PartsBring e parts) (kind : NodeKind) (power : Power) :
    Lays e m [left] (operation parts kind power left) fun id => [id] := by
  refine .quiet quiet_advance fun _ => (hp.expr power).then fun right => ?_
  have hnone : Lays e m ([] ++ [left, right]) _ fun id => [] ++ [id] :=
    .nodeAcross kind left right
  exact hnone

theorem brings_arguments (hp : PartsBring e parts) (fuel : Nat) :
    Brings e (arguments parts fuel) fun ids => ids := by
  induction fuel with
  | zero => exact fun _ => .endless
  | succ fuel ih =>
    refine fun lo => .quiet quiet_currentKind fun kind => ?_
    split
    · exact .pure rfl
    · exact .quiet quiet_advance fun _ => ih lo
    · exact (hp.expr .comma).first fun first => ih.then fun ids => .pure rfl

/-- The node of a call goes from the name that is called, which has no node in it. -/
theorem lays_call (hp : PartsBring e parts) :
    Lays e m [left] (call parts left) fun id => [id] := by
  refine .quiet quiet_session fun s => ?_
  split
  · exact .spanOf fun span => .drop (.quiet quiet_advance fun _ => .quiet quiet_bound fun fuel =>
      (brings_arguments hp fuel).first fun args => .quiet (quiet_expect _) fun _ => .nodeFrom _)
  · exact .refuse _

theorem lays_indexing (hp : PartsBring e parts) :
    Lays e m [left] (indexing parts left) fun id => [id] :=
  .quiet quiet_advance fun _ => (hp.expr .lowest).then fun _ =>
    .quiet (quiet_expect _) fun _ => .spanOf fun _ => .nodeFrom .index

theorem lays_memberAccess : Lays e m [left] (memberAccess left) fun id => [id] := by
  have hname : Lays e m [left] (do
      let name ← advance
      node (.field name.value) (← spanFrom (← spanOf left).start) [left]) fun id => [id] :=
    .quiet quiet_advance fun _ => .spanOf fun _ => .nodeFrom _
  refine .quiet quiet_advance fun _ => .quiet quiet_currentKind fun kind => ?_
  split
  · exact hname
  · exact hname
  · exact .refuse _

theorem lays_extend (hp : PartsBring e parts) (next : Continuation) :
    Lays e m [left] (extend parts left next) fun id => [id] := by
  cases next with
  | assign => exact lays_operation hp .assign .comma
  | refBind => exact lays_operation hp .refBind .comma
  | binary op => exact lays_operation hp (.binary op) (operatorPower op)
  | call => exact lays_call hp
  | index => exact lays_indexing hp
  | member => exact lays_memberAccess

theorem lays_climb (hp : PartsBring e parts) (power : Power) (fuel : Nat) :
    Lays e m [left] (climb parts power fuel left) fun id => [id] := by
  induction fuel generalizing left with
  | zero => exact .endless
  | succ fuel ih =>
    refine .quiet quiet_currentKind fun kind => ?_
    split
    · exact .pure rfl
    · split
      · exact .pure rfl
      · exact (lays_extend hp _).bind fun id => ih

theorem brings_expression (hp : PartsBring e parts) (power : Power) :
    Brings e (expression parts power) fun id => [id] := fun lo =>
  (brings_operand hp lo).bind fun _ => .quiet quiet_bound fun fuel => lays_climb hp power fuel

end BlockLang.Grammar
