import BlockLang.Proofs.Homes.Statement
import BlockLang.Proofs.Spans.Expression

/-!
# Statements in a row

A declaration goes from its first word to its last token, behind `export` if it has one. The
statements of a block, and the items of a module, stand one after another.
-/

namespace BlockLang.Grammar

open Parse

variable {e : Extent} {m : Mark} {parts : Productions Power} {token : Token}

-- ---------------------------------------------------------------------------
-- Declarations
-- ---------------------------------------------------------------------------

theorem still_declare (name : Token) (kind : DeclKind) (scope : ScopeId) (overloadable : Bool) :
    Still (declare name kind scope overloadable) := by
  intro c s
  refine (ifReturns_declare c s name kind scope overloadable).imp ?_
  rintro ⟨decl, _⟩ s' ⟨rfl, hd⟩
  rw [hd.tree]
  exact ⟨⟨.refl _, rfl⟩, .refl _⟩

theorem laysAt_varDecl (hp : PartsBring e parts) (isConst : Bool) (hk : token.kind ≠ .eof) :
    LaysAt e m token (varDecl parts isConst) fun id => [id] := by
  refine .advance hk ?_
  extract_lets afterName
  let begun : Mark := ⟨token.span.start, true⟩
  have hname : ∀ name : Token, Lays e begun [] (afterName name) fun id => [id] := by
    intro name
    refine .quiet (quiet_accept _) fun b => ?_
    extract_lets afterType
    have htype : ∀ declared, Lays e begun [] (afterType declared) fun id => [id] := by
      intro declared
      refine .quiet quiet_currentKind fun kind => ?_
      extract_lets afterValue
      -- `r` has the initial value, if there is one, and says whether it is referred to
      have hvalue : ∀ r, Lays e begun r.1 (afterValue r) fun id => [id] := fun _ =>
        .quiet (quiet_expect _) fun _ => .quiet quiet_get fun _ =>
          .still (still_declare _ _ _ _) fun _ => .nodeFrom _
      clear_value afterValue
      have hexpr : ∀ isRef, Lays e begun [] (do
          let _ ← advance
          let value ← parts.expr .lowest
          let r ← pure ([value], isRef)
          afterValue r) fun id => [id] := by
        intro isRef
        refine .quiet quiet_advance fun _ => (hp.expr .lowest).first fun value => ?_
        rw [pure_bind]
        exact hvalue ([value], isRef)
      split
      · exact hexpr false
      · exact hexpr true
      · cases declared with
        | none => exact .refuse_bind _
        | some type =>
          cases isConst
          · simp only [Option.isNone_some, Bool.false_eq_true, ↓reduceIte, pure_bind]
            exact hvalue ([], false)
          · exact .refuse_bind _
      · exact .refuse_bind _
    cases b
    · exact htype none
    · exact .quiet hp.type.map fun _ => htype _
  refine .quiet (quiet_isAt _) fun b => ?_
  cases b
  · exact .refuse_bind _
  · exact .quiet quiet_advance hname

theorem laysAt_typeDecl (hp : PartsBring e parts) (hk : token.kind ≠ .eof) :
    LaysAt e m token (typeDecl parts) fun id => [id] := by
  refine .advance hk (.quiet (quiet_expect _) fun name => .quiet quiet_typeParams fun _ =>
    .quiet (quiet_expect _) fun _ => .quiet hp.type fun body => .quiet (quiet_expect _) fun _ =>
    .quiet quiet_get fun c => .quiet quiet_session fun s => ?_)
  dsimp only
  split
  · next scopes _ =>
    have hscopes : Still (modifyThe Session fun s => { s with scopes } : Parse PUnit) :=
      fun c _ => ⟨⟨.refl _, rfl⟩, .refl c⟩
    exact .still hscopes fun _ => .nodeFrom _
  · exact .quiet (quiet_refuseName _ name) fun _ => .nodeFrom _

theorem still_param (hp : PartsBring e parts) (bodyScope : ScopeId) :
    Still (param parts bodyScope) :=
  (quiet_expect _).still.bind fun _ => (quiet_expect _).still.bind fun _ => hp.type.still.bind
    fun _ => (still_declare _ _ _ _).bind fun _ => .pure _

/-- Parameters leave no nodes. -/
theorem brings_signatureAndBody (hp : PartsBring e parts) (bodyScope : ScopeId) :
    Brings e (signatureAndBody parts bodyScope) fun r => [r.2.2] := by
  have hparam : Brings e (param parts bodyScope) fun _ => [] := fun _ =>
    (still_param hp bodyScope).lays
  refine fun lo => .quiet (quiet_expect _) fun _ => .quiet quiet_bound fun fuel =>
    (brings_separated _ _ hparam fuel).first fun r => ?_
  obtain ⟨params, _⟩ := r
  have hnone : params.flatMap (fun _ => []) = ([] : List NodeId) := by simp
  rw [hnone]
  refine .quiet (quiet_expect _) fun _ => .quiet (quiet_accept _) fun arrow => ?_
  extract_lets body
  have hbody : ∀ result, Lays e ⟨lo, false⟩ [] (body result) fun r => [r.2.2] := fun result =>
    .isAt (fun _ hk => (laysAt_block hp (by simp [hk])).bind fun id => .pure rfl) (.refuse _)
  cases arrow
  · exact hbody none
  · exact .quiet hp.type.map hbody

theorem laysAt_funcDecl (hp : PartsBring e parts) (hk : token.kind ≠ .eof) :
    LaysAt e m token (funcDecl parts) fun id => [id] := by
  refine .advance hk (.quiet (quiet_expect _) fun name => .quiet quiet_get fun c =>
    .still (still_enterScope _) fun bodyScope => (brings_signatureAndBody hp bodyScope).first
    fun r => ?_)
  obtain ⟨params, result, body⟩ := r
  exact .still still_leaveScope fun _ => .still (still_declare _ _ _ _) fun _ => .nodeFrom _

-- ---------------------------------------------------------------------------
-- Items
-- ---------------------------------------------------------------------------

theorem laysAt_importDecl (hk : token.kind ≠ .eof) :
    LaysAt e m token importDecl fun id => [id] :=
  .advance hk (.quiet (quiet_requireTopLevel _ _ _) fun _ => .quiet (quiet_expect _) fun _ =>
    .quiet (quiet_expect _) fun _ => .quiet quiet_get fun _ => .nodeFrom _)

/-- The word `export` is not part of the item. -/
theorem lays_exportItem (hp : PartsBring e parts) :
    Lays e m [] (exportItem parts) fun id => [id] := by
  refine .quiet quiet_advance fun _ => .quiet (quiet_requireTopLevel _ _ _) fun _ =>
    .quiet quiet_currentKind fun kind => ?_
  have hitem : Lays e m [] (do
      modify fun c => { c with exporting := true }
      let item ← parts.stmt
      modify fun c => { c with exporting := false }
      return item) fun id => [id] :=
    .quiet (quiet_exporting true) fun _ => hp.stmt.first fun _ =>
      .quiet (quiet_exporting false) fun _ => .pure rfl
  split
  all_goals first | exact hitem | exact .refuse _

-- ---------------------------------------------------------------------------
-- Statements
-- ---------------------------------------------------------------------------

theorem laysAt_returnStmt (hp : PartsBring e parts) (hk : token.kind ≠ .eof) :
    LaysAt e m token (returnStmt parts) fun id => [id] := by
  have hend : ∀ value, Lays e ⟨token.span.start, true⟩ value (do
      let _ ← expect .semicolon
      node .returnStmt (← spanFrom token.span.start) value) fun id => [id] := fun value =>
    .quiet (quiet_expect _) fun _ => .nodeFrom _
  refine .advance hk (.quiet (quiet_isAt _) fun b => ?_)
  cases b
  · refine (hp.expr .lowest).first fun value => ?_
    rw [pure_bind]
    exact hend [value]
  · exact hend []

theorem laysAt_whileLoop (hp : PartsBring e parts) (hk : token.kind ≠ .eof) :
    LaysAt e m token (whileLoop parts) fun id => [id] :=
  .advance hk ((hp.expr .lowest).first fun _ => hp.stmt.then fun _ => .nodeFrom _)

/-- An expression and its statement have the same span, which the semicolon is not in. -/
theorem lays_exprStmt (hp : PartsBring e parts) :
    Lays e m [] (exprStmt parts) fun id => [id] := by
  refine (hp.expr .lowest).first fun expr => .quiet quiet_currentKind fun kind => ?_
  split
  · exact .quiet quiet_advance fun _ => .nodeOver _ expr
  · exact .pure rfl
  · exact .pure rfl
  · exact .refuse _

theorem brings_statement (hp : PartsBring e parts) :
    Brings e (statement parts) fun id => [id] := by
  refine fun lo => .currentKind fun token => ?_
  split
  all_goals rename_i hkind
  · exact laysAt_varDecl hp true (by simp [hkind])
  · exact laysAt_varDecl hp false (by simp [hkind])
  · exact laysAt_importDecl (by simp [hkind])
  · exact Lays.at (lays_exportItem hp)
  · exact laysAt_conditional hp hp.stmt (by simp [hkind])
  · exact laysAt_whileLoop hp (by simp [hkind])
  · exact laysAt_block hp (by simp [hkind])
  · exact laysAt_funcDecl hp (by simp [hkind])
  · exact laysAt_typeDecl hp (by simp [hkind])
  · exact laysAt_returnStmt hp (by simp [hkind])
  · exact Lays.at (lays_exprStmt hp)

/-- Every production keeps to the row, however deep its parts go. -/
theorem partsBring_productions (e : Extent) (depth : Nat) :
    PartsBring e (productions depth) := by
  induction depth with
  | zero => exact ⟨quiet_endless, fun _ _ => .endless, fun _ => .endless⟩
  | succ depth ih =>
    exact ⟨quiet_typeSyntax ih.type, fun power => brings_expression ih power, brings_statement ih⟩

end BlockLang.Grammar
