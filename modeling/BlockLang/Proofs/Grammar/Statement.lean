import BlockLang.Grammar.Statement
import BlockLang.Proofs.Grammar.Expression

/-!
# What modules are read as

A statement is read as one tree, and a module as its root with one tree for each item
below it.
-/

namespace BlockLang

namespace Grammar

open Parse

variable {W : String → Prop} {I : Nat → Cursor → Session → Prop} {n : Nat} {s : Session}
  {ts us : List Tree} {parts : Productions Power}

-- ---------------------------------------------------------------------------
-- Types
-- ---------------------------------------------------------------------------

theorem quiet_typeSyntax {type : Parse TypeExpr} (h : Quiet type) : Quiet (typeSyntax type) := by
  refine quiet_currentKind.bind fun kind => ?_
  split
  · refine (quiet_expect _).bind fun _ => .cond (quiet_accept _) ?_ (.pure _)
    exact quiet_bound.bind fun _ => (quiet_separated _ _ h _).bind fun _ =>
      (quiet_expect _).bind fun _ => .pure _
  · refine (quiet_expect _).bind fun _ => h.bind fun _ => .cond (quiet_accept _) ?_ ?_
    · exact (quiet_expect _).bind fun _ => (quiet_boundedNumber _ _).bind fun _ =>
        (quiet_expect _).bind fun _ => .pure _
    · exact (quiet_expect _).bind fun _ => .pure _
  · have hitem : Quiet (do return (← fieldName, ← type)) :=
      quiet_fieldName.bind fun _ => h.bind fun _ => .pure _
    refine (quiet_expect _).bind fun _ => quiet_bound.bind fun _ =>
      (quiet_separated _ _ hitem _).bind fun r => (quiet_expect _).bind fun _ => ?_
    split <;> exact .pure _
  · exact (quiet_expect _).bind fun _ => h.bind fun _ => .pure _
  · refine (quiet_expect _).bind fun _ => (quiet_expect _).bind fun _ => quiet_bound.bind fun _ =>
      (quiet_separated _ _ h _).bind fun r => (quiet_expect _).bind fun _ =>
      .cond (quiet_accept _) (h.bind fun _ => .pure _) (.pure _)
  · exact quiet_unexpected

-- ---------------------------------------------------------------------------
-- Declarations
-- ---------------------------------------------------------------------------

/-- What is read over parts without imports has none. -/
theorem reads_free (hI : Adds.Keeps W I) {kind : NodeKind} {span : Span} {children : List NodeId}
    (hc : children = ts.map Tree.handle) (hs : ∀ i, (Tree.node i kind ts).Formed)
    (hk : kind.IsDeclared s.decls ts.length) (hp : kind ≠ .pair)
    (hi : kind.isImport = false) (hf : ∀ t ∈ ts, t.ImportFree) :
    Reads I n n (node kind span children) s ts (One (Placed n)) :=
  Reads.one hI hc hs hk fun _ => ⟨hp, fun _ => Tree.importFree_node.mpr ⟨hf, hi⟩⟩

theorem reads_varDecl (hI : Adds.Keeps W I) (hp : PartsRead I parts) (isConst : Bool) :
    Reads I n n (varDecl parts isConst) s [] (One (Placed n)) := by
  refine .quiet hI quiet_advance fun first => ?_
  extract_lets afterName
  have hname : ∀ name : Token, W name.value →
      Reads I n n (afterName name) s [] (One (Placed n)) := by
    intro name hname
    refine .quiet hI (quiet_accept _) fun b => ?_
    extract_lets afterType
    have htype : ∀ declared, Reads I n n (afterType declared) s [] (One (Placed n)) := by
      intro declared
      refine .quiet hI quiet_currentKind fun kind => ?_
      extract_lets afterValue
      -- `r` has the initial value, if there is one, and says whether it is referred to
      have hvalue : ∀ r s us, r.1 = us.map Tree.handle → (∀ u ∈ us, u.IsValue) →
          (us.length = 1 ∨ us.length = 0 ∧ declared.isSome ∧ r.2 = false) →
          (isConst = true → us.length = 1) →
          Reads I n n (afterValue r) s us (One (Placed n)) := by
        rintro ⟨initial, isRef⟩ s us hids hk hlen hconst
        refine .quiet hI (quiet_expect _) fun _ => .quiet hI quiet_get fun _ => ?_
        refine (Reads.declare hI hname (DeclKind.wellDeclared_var ..)).bind ?_
        rintro decl s' us' - ⟨rfl, d, hd, hkind⟩
        refine .quiet hI (quiet_spanFrom _) fun _ => ?_
        refine reads_free hI hids (formed_of_all hlen hk (by simp)) ⟨by simp, by simp, ?_⟩
          (by simp) rfl
          fun u hu => (hk u hu).importFree
        rintro _ _ _ ⟨⟩
        exact ⟨d, isConst, hd, hkind, hconst⟩
      clear_value afterValue
      have hexpr : ∀ isRef, Reads I n n (do
          let _ ← advance
          let value ← parts.expr .lowest
          let r ← pure ([value], isRef)
          afterValue r) s [] (One (Placed n)) := by
        intro isRef
        refine .quiet hI quiet_advance fun _ => (hp.expr _ _ _).bind ?_
        rintro id s' us - ⟨t, rfl, rfl, hk⟩
        simp only [pure_bind]
        exact hvalue _ _ _ rfl (by simpa using hk) (.inl rfl) fun _ => rfl
      split
      · exact hexpr false
      · exact hexpr true
      · cases declared with
        | none => exact .refuse_bind _
        | some type =>
          cases isConst
          · simp only [Option.isNone_some, Bool.false_eq_true, ↓reduceIte, pure_bind]
            exact hvalue _ _ _ rfl (by simp) (.inr ⟨rfl, rfl, rfl⟩) nofun
          · exact .refuse_bind _
      · exact .refuse_bind _
    cases b
    · exact htype none
    · exact .quiet hI hp.type.map fun _ => htype _
  exact .nameOr hI hname (.refuse_bind _)

/-- The declaration of a parameter is there. -/
def IsParam (s : Session) (p : Param) : Prop :=
  ∃ d, s.decls[p.decl.index]? = some d ∧ d.kind = .parameter

theorem IsParam.adds (h : IsParam s p) (ha : Adds s s') : IsParam s' p := by
  obtain ⟨d, hd, hk⟩ := h
  exact ⟨d, ha.decls _ d hd, hk⟩

theorem reads_param (hI : Adds.Keeps W I) (hp : PartsRead I parts) (scope : ScopeId) :
    Reads I n n (param parts scope) s [] fun p s' us => us = [] ∧ IsParam s' p := by
  refine .expectName hI fun name hname => .quiet hI (quiet_expect _) fun _ =>
    .quiet hI hp.type fun type =>
      (Reads.declare hI hname (DeclKind.wellDeclared_parameter _)).bind ?_
  rintro decl s' us - h
  exact .pure h

theorem reads_params (hI : Adds.Keeps W I) (hp : PartsRead I parts) (scope : ScopeId)
    (close : Token.Kind) (message : String) (fuel : Nat) :
    Reads I n n (separated close message (param parts scope) fuel) s [] fun r s' us =>
      us = [] ∧ ∀ p ∈ r.1, IsParam s' p := by
  induction fuel generalizing s with
  | zero => exact .endless
  | succ fuel ih =>
    refine .quiet hI (quiet_isAt close) fun b => ?_
    cases b
    · refine (reads_param hI hp scope).bind ?_
      rintro first s' us - ⟨rfl, hfirst⟩
      refine .quiet hI (quiet_accept .comma) fun b => ?_
      cases b
      · refine .quiet hI (quiet_isAt close) fun b => ?_
        cases b
        · exact .refuse message
        · exact .pure ⟨rfl, by simpa using hfirst⟩
      · refine ih.bind ?_
        rintro r s'' us ha ⟨rfl, hr⟩
        exact .pure ⟨rfl, by simpa using ⟨hfirst.adds ha, hr⟩⟩
    · exact .pure ⟨rfl, by simp⟩

theorem reads_signatureAndBody (hI : Adds.Keeps W I) (hp : PartsRead I parts) (scope : ScopeId) :
    Reads I n n (signatureAndBody parts scope) s [] fun r s' us =>
      (∀ p ∈ r.1, IsParam s' p) ∧ One IsBody r.2.2 s' us := by
  refine .quiet hI (quiet_expect _) fun _ => .quiet hI quiet_bound fun fuel =>
    (reads_params hI hp scope _ _ fuel).bind ?_
  rintro ⟨params, _⟩ s' us - ⟨rfl, hparams⟩
  refine .quiet hI (quiet_expect _) fun _ => .quiet hI (quiet_accept _) fun b => ?_
  extract_lets afterResult
  have hbody : ∀ result, Reads I n n (afterResult result) s' [] fun r s' us =>
      (∀ p ∈ r.1, IsParam s' p) ∧ One IsBody r.2.2 s' us := by
    intro result
    refine .quiet hI (quiet_isAt _) fun b => ?_
    cases b
    · exact .refuse _
    · refine (reads_block hI hp).bind ?_
      rintro body s'' us ha hone
      exact .pure ⟨fun p hp => (hparams p hp).adds ha, hone⟩
  cases b
  · exact hbody none
  · exact .quiet hI hp.type.map fun _ => hbody _

theorem reads_funcDecl (hI : Adds.Keeps W I) (hp : PartsRead I parts) :
    Reads I n n (funcDecl parts) s [] (One (Placed n)) := by
  refine .quiet hI quiet_advance fun _ => .expectName hI fun name hname =>
    .quiet hI quiet_get fun _ => (Reads.enterScope hI).bind ?_
  rintro scope s' us - ⟨rfl, hscope⟩
  refine (reads_signatureAndBody hI hp scope).bind ?_
  rintro ⟨params, result, body⟩ s'' us ha ⟨hparams, t, rfl, rfl, ht⟩
  have hdeclared : (DeclKind.function params result scope).WellDeclared s'' :=
    ⟨hparams, Nat.lt_of_lt_of_le hscope ha.scopes⟩
  refine (Reads.leaveScope hI).bind ?_
  rintro - _ us - ⟨rfl, rfl⟩
  refine (Reads.declare hI hname hdeclared).bind ?_
  rintro decl s₃ us - ⟨rfl, d, hd, hkind⟩
  have hfunction : IsFunction s₃.decls decl := ⟨d, hd, by rw [Decl.isFunction, hkind]⟩
  have hformed : ∀ i, (Tree.node i (.funcDecl decl) [t]).Formed := fun i =>
    { arity := rfl
      operands := by simp [Tree.operands]
      chain := fun h => absurd h (by simp)
      chained := by simp [ht.kind]
      body := by simp [ht.kind]
      outside := fun _ _ => by simpa using ht.importFree }
  refine .quiet hI (quiet_spanFrom _) fun _ =>
    reads_free hI rfl hformed ⟨by simp, ?_, by simp⟩ (by simp) rfl
      (by simpa using ht.importFree)
  rintro _ ⟨⟩
  exact hfunction

theorem quiet_typeParams : Quiet typeParams := by
  refine .cond (quiet_accept _) (quiet_bound.bind fun _ => ?_) (.pure _)
  refine (quiet_separated _ _ ((quiet_expect _).bind fun _ => .pure _) _).bind fun _ => ?_
  exact (quiet_expect _).bind fun _ => .pure _

theorem reads_typeDecl (hI : Adds.Keeps W I) (hp : PartsRead I parts) :
    Reads I n n (typeDecl parts) s [] (One (Placed n)) := by
  refine .quiet hI quiet_advance fun first => .quiet hI (quiet_expect _) fun name =>
    .quiet hI quiet_typeParams fun params => .quiet hI (quiet_expect _) fun _ =>
    .quiet hI hp.type fun body => .quiet hI (quiet_expect _) fun _ => ?_
  have hnode : ∀ s,
      Reads I n n (do node (.typeDecl name.value) (← spanFrom first.span.start) []) s []
        (One (Placed n)) := fun s =>
    .quiet hI (quiet_spanFrom _) fun _ =>
      reads_free hI rfl (formed_of_all rfl (by simp) (NodeKind.ne_funcDecl_of_isBare rfl))
        (.of_isBare rfl) (by simp) rfl (by simp)
  -- the definition is looked up where the cursor stands
  intro c rest hforest hi hw
  rw [StateT.run_bind, StateT.run_get, pure_bind, StateT.run_bind, triple_bind]
  refine triple_session.mpr ?_
  dsimp only
  cases hadd : s.scopes.addType c.declarationScope
      (.new name.value params (.written body) c.scope name.span.start) with
  | error refusal =>
    exact Reads.quiet hI (quiet_refuseName _ _) (fun _ => hnode s) c rest hforest hi hw
  | ok r =>
    obtain ⟨id, scopes⟩ := r
    have ha : Adds s { s with scopes } :=
      ⟨.refl _, fun _ _ hd => hd, Nat.le_of_eq (ScopeTable.size_addType hadd).symm, rfl⟩
    have hi' : I n c { s with scopes } := hI.typeDef n c s _ _ _ _ _ id _ hi hadd
    rw [StateT.run_bind, triple_bind]
    refine Triple.of_start (rfl : _ = (Except.ok ((), c), { s with scopes })) ?_
    refine (hnode { s with scopes } c rest hforest hi' (by simp)).mono ?_ ?_
    · rintro r s' ⟨us, hr, hforest', hi'', hw', ha'⟩
      exact ⟨us, hr, hforest', hi'', hw', ha.trans ha'⟩
    · rintro e s' ⟨d, c', us, hforest', hi'', ha'⟩
      exact ⟨d, c', us, hforest', hi'', ha.trans ha'⟩

-- ---------------------------------------------------------------------------
-- Statements
-- ---------------------------------------------------------------------------

theorem quiet_requireTopLevel (first : Token) (word message : String) :
    Quiet (requireTopLevel first word message) :=
  quiet_get.bind fun _ => .ite (quiet_fail _ _) (.pure _)

theorem reads_importDecl (hI : Adds.Keeps W I) : Reads I n n importDecl s [] (One (Placed n)) := by
  refine .quiet hI quiet_advance fun _ => .requireTopLevel hI ?_
  rintro rfl
  refine .quiet hI (quiet_expect _) fun _ => .quiet hI (quiet_expect _) fun _ =>
    .quiet hI quiet_get fun _ => .quiet hI (quiet_spanFrom _) fun _ => ?_
  exact Reads.one hI rfl (formed_of_all rfl (by simp) (NodeKind.ne_funcDecl_of_isBare rfl))
    (.of_isBare rfl) fun _ =>
    ⟨by simp, fun h => absurd h (Nat.lt_irrefl 0)⟩

theorem quiet_exporting (exporting : Bool) :
    Quiet (modify fun c => { c with exporting } : Parse PUnit) :=
  quiet_modify fun _ => ⟨⟨rfl, [], rfl, rfl⟩, rfl, rfl⟩

theorem reads_exportItem (hI : Adds.Keeps W I) (hp : PartsRead I parts) :
    Reads I n n (exportItem parts) s [] (One (Placed n)) := by
  have hitem : Reads I n n (do
      modify fun c => { c with exporting := true }
      let item ← parts.stmt
      modify fun c => { c with exporting := false }
      return item) s [] (One (Placed n)) := by
    refine .quiet hI (quiet_exporting true) fun _ => (hp.stmt _ s).bind ?_
    rintro id s' us - hus
    exact .quiet hI (quiet_exporting false) fun _ => .pure hus
  refine .quiet hI quiet_advance fun _ => .requireTopLevel hI fun _ =>
    .quiet hI quiet_currentKind fun kind => ?_
  split
  · exact hitem
  · exact hitem
  · exact hitem
  · exact hitem
  · exact hitem
  · exact .refuse _

theorem reads_returnStmt (hI : Adds.Keeps W I) (hp : PartsRead I parts) :
    Reads I n n (returnStmt parts) s [] (One (Placed n)) := by
  refine .quiet hI quiet_advance fun _ => .quiet hI (quiet_isAt _) fun b => ?_
  extract_lets afterValue
  have hvalue : ∀ s us, us.length ≤ 1 → (∀ u ∈ us, u.IsValue) →
      Reads I n n (afterValue (us.map Tree.handle)) s us (One (Placed n)) := by
    intro s us hlen hk
    refine .quiet hI (quiet_expect _) fun _ => .quiet hI (quiet_spanFrom _) fun _ => ?_
    exact reads_free hI rfl (formed_of_all hlen hk (NodeKind.ne_funcDecl_of_isBare rfl))
      (.of_isBare rfl) (by simp) rfl
      fun u hu => (hk u hu).importFree
  clear_value afterValue
  cases b
  · refine (hp.expr _ _ s).bind ?_
    rintro id s' us - ⟨t, rfl, rfl, hk⟩
    exact hvalue s' [t] (by simp) (by simpa using hk)
  · exact hvalue s [] (by simp) (by simp)

theorem reads_whileLoop (hI : Adds.Keeps W I) (hp : PartsRead I parts) :
    Reads I n n (whileLoop parts) s [] (One (Placed n)) := by
  refine .quiet hI quiet_advance fun _ => (hp.expr _ _ s).bind ?_
  rintro condition s' us - ⟨c, rfl, rfl, hk⟩
  refine ((hp.stmt _ s').after [c]).bind ?_
  rintro body s'' us - ⟨_, rfl, ⟨b, rfl, rfl, hb⟩⟩
  refine .quiet hI (quiet_spanFrom _) fun _ => ?_
  have hformed : ∀ i, (Tree.node i .whileLoop [c, b]).Formed := fun i =>
    Tree.Shaped.formed ⟨rfl, by simpa [Tree.operands] using hk⟩
      (by simpa using ⟨hk.single, hb.single⟩) (NodeKind.ne_funcDecl_of_isBare rfl)
      fun _ hk => absurd rfl hk
  refine Reads.one hI rfl hformed (.of_isBare rfl) fun i => ⟨by simp, fun hn => ?_⟩
  exact Tree.importFree_node.mpr ⟨by simpa using ⟨hk.importFree, hb.importFree hn⟩, rfl⟩

theorem reads_exprStmt (hI : Adds.Keeps W I) (hp : PartsRead I parts) :
    Reads I n n (exprStmt parts) s [] (One (Placed n)) := by
  refine (hp.expr _ _ s).bind ?_
  rintro id s' us - ⟨t, rfl, rfl, hk⟩
  refine .quiet hI quiet_currentKind fun kind => ?_
  split
  · refine .quiet hI quiet_advance fun _ => .quiet hI (quiet_spanOf _) fun _ => ?_
    exact reads_free hI rfl
      (formed_of_all rfl (by simpa using hk) (NodeKind.ne_funcDecl_of_isBare rfl)) (.of_isBare rfl)
      (by simp) rfl (by simpa using hk.importFree)
  · exact .pure ⟨t, rfl, rfl, hk.single, fun _ => hk.importFree⟩
  · exact .pure ⟨t, rfl, rfl, hk.single, fun _ => hk.importFree⟩
  · exact .refuse _

theorem reads_statement (hI : Adds.Keeps W I) (hp : PartsRead I parts) :
    Reads I n n (statement parts) s [] (One (Placed n)) := by
  refine .quiet hI quiet_currentKind fun kind => ?_
  split
  · exact reads_varDecl hI hp true
  · exact reads_varDecl hI hp false
  · exact reads_importDecl hI
  · exact reads_exportItem hI hp
  · have harm : ∀ s, Reads I n n parts.stmt s []
        (One fun t => t.kind ≠ .pair ∧ (0 < n → t.ImportFree)) := fun s =>
      (hp.stmt n s).imp fun _ _ _ _ h => h.mono fun _ ht => ⟨ht.single, ht.importFree⟩
    exact (reads_conditional hI hp harm).imp fun _ _ _ _ h =>
      h.mono fun _ ht => ⟨ht.1, fun hn => (ht.2 hn).importFree⟩
  · exact reads_whileLoop hI hp
  · exact (reads_block hI hp).imp fun _ _ _ _ h => h.mono fun _ ht =>
      ⟨by simp [ht.kind], fun _ => ht.importFree⟩
  · exact reads_funcDecl hI hp
  · exact reads_typeDecl hI hp
  · exact reads_returnStmt hI hp
  · exact reads_exprStmt hI hp

theorem partsRead_productions (hI : Adds.Keeps W I) (depth : Nat) :
    PartsRead I (productions depth) := by
  induction depth with
  | zero => exact ⟨quiet_endless, fun _ _ _ => .endless, fun _ _ => .endless⟩
  | succ depth ih =>
    exact ⟨quiet_typeSyntax ih.type, fun _ power _ => reads_expression hI ih power,
      fun _ _ => reads_statement hI ih⟩

/-- What is found below a root. -/
theorem written_below {root : NodeId} {kind : NodeKind} (hw : ∀ t ∈ ts, t.Every (Written s))
    (hf : s.tree.Forest us) (hroot : .node root kind ts ∈ us) (ha : Adds s s') :
    ∀ t ∈ ts, t.Every (Written s') := by
  intro t ht u hu
  refine (hw t ht u hu).adds (hf.1.lt_size _ (Tree.mem_idsOf.mpr ⟨_, hroot, ?_⟩)) ha
  simp only [Tree.ids_node, List.mem_append]
  exact .inl (Tree.mem_idsOf.mpr ⟨t, ht, Tree.mem_ids.mpr ⟨u, hu, rfl⟩⟩)

theorem run_items_eof {root : NodeId} {stmt : Parse NodeId} {fuel : Nat} {c : Cursor}
    (h : c.current.kind = .eof) : (items root stmt (fuel + 1)).run c = pure ((), c) := by
  simp [items, isAt, h]

theorem run_items_cons {root : NodeId} {stmt : Parse NodeId} {fuel : Nat} {c : Cursor}
    (h : c.current.kind ≠ .eof) : (items root stmt (fuel + 1)).run c =
      (stmt >>= fun item => pass (.pushChild root item) >>= fun _ =>
        items root stmt fuel).run c := by
  simp [items, isAt, h]

/-- The items of a module are attached to its root one after another, up to the end. -/
theorem triple_items (hI : Adds.Keeps W I) {stmt : Parse NodeId} {root : NodeId} {kind : NodeKind}
    {P : Tree → Prop} (hstmt : ∀ s, Reads I n n stmt s [] (One P)) (fuel : Nat) (c : Cursor)
    (hf : s.tree.Forest (.node root kind ts :: us)) (hi : I n c s)
    (hw : ∀ t ∈ ts, t.Every (Written s)) (hts : ∀ t ∈ ts, P t) :
    let Q := fun d c' s' => ∃ ts', s'.tree.Forest (.node root kind ts' :: us) ∧ I d c' s' ∧
      (∀ t ∈ ts', t.Every (Written s')) ∧ (∀ t ∈ ts', P t) ∧ Adds s s'
    Triple ((items root stmt fuel).run c) s (fun r s' => r.2.current.kind = .eof ∧ Q n r.2 s')
      fun _ s' => ∃ d c', Q d c' s' := by
  intro Q
  induction fuel generalizing c s ts with
  | zero => exact ⟨n, c, ts, hf, hi, hw, hts, .refl _⟩
  | succ fuel ih =>
    by_cases hk : c.current.kind = .eof
    · rw [run_items_eof hk]
      exact ⟨hk, ts, hf, hi, hw, hts, .refl _⟩
    · rw [run_items_cons hk, StateT.run_bind, triple_bind]
      refine (hstmt s c (.node root kind ts :: us) hf hi (by simp)).mono ?_ ?_
      rotate_left
      · rintro e s₂ ⟨d, c₂, vs, hf₂, hi₂, ha⟩
        exact ⟨d, c₂, ts, hf₂.right, hi₂, written_below hw hf List.mem_cons_self ha, hts, ha⟩
      rintro ⟨id, c₂⟩ s₂ ⟨_, ⟨t, rfl, rfl, ht⟩, hf₂, hi₂, hw₂, ha⟩
      rw [StateT.run_bind, triple_bind]
      refine triple_pass.mpr ?_
      have hf₃ : s₂.tree.Forest (Frame.plug [] [.node root kind ts] ++ t :: us) :=
        hf₂.perm (.swap _ _ _)
      refine (Pass.triple_pushChild hf₃).imp ?_
      rintro - s₃ ⟨hf₄, hr⟩
      have ha₃ : Adds s₂ s₃ := (hr.gains c₂.scope).adds
      have hi₃ : I n c₂ s₃ := hI.tree n c₂ s₂ s₃ hi₂ (hr.gains _)
      have hw₃ : ∀ u ∈ ts ++ [t], u.Every (Written s₃) := by
        intro u hu
        rcases List.mem_append.mp hu with hu | hu
        · exact written_below hw hf List.mem_cons_self (ha.trans ha₃) u hu
        · exact written_adds hw₂ hf₂ ha₃ u hu
      have hts₃ : ∀ u ∈ ts ++ [t], P u :=
        List.forall_mem_append.mpr ⟨hts, List.forall_mem_singleton.mpr ht⟩
      refine (ih c₂ hf₄ hi₃ hw₃ hts₃).mono ?_ ?_
      · rintro r s₄ ⟨hend, ts', hf₅, hi₄, hw₄, hts₄, ha₄⟩
        exact ⟨hend, ts', hf₅, hi₄, hw₄, hts₄, (ha.trans ha₃).trans ha₄⟩
      · rintro e s₄ ⟨d, c₄, ts', hf₅, hi₄, hw₄, hts₄, ha₄⟩
        exact ⟨d, c₄, ts', hf₅, hi₄, hw₄, hts₄, (ha.trans ha₃).trans ha₄⟩

end Grammar

/-- Reads a module and tells where reading stopped. -/
def readTokens (tokens : List Token) (file : String) (module : ModuleId) : Task Stop Cursor := do
  let m := (← get).module module
  let depth := 2 * tokens.length + 2
  let read := Grammar.items m.root (Grammar.productions depth).stmt (tokens.length + 1)
  return (← read.run (Cursor.start tokens file m.layers)).2

theorem parseModule_eq (tokens : List Token) (file : String) (module : ModuleId) :
    parseModule tokens file module = (do let _ ← readTokens tokens file module) := by
  simp [parseModule, readTokens]

theorem triple_readTokens {W : String → Prop} {I : Nat → Cursor → Session → Prop}
    (hI : Adds.Keeps W I) {module : ModuleId} {kind : NodeKind} {us : List Tree}
    (tokens : List Token) (file : String)
    (hf : s.tree.Forest (.node (s.module module).root kind [] :: us))
    (hi : I 0 (.start tokens file (s.module module).layers) s) :
    let Q := fun d c s' => ∃ ts, s'.tree.Forest (.node (s.module module).root kind ts :: us) ∧
      I d c s' ∧ (∀ t ∈ ts, t.Every (Written s')) ∧ (∀ t ∈ ts, Grammar.Placed 0 t) ∧ Adds s s'
    Triple (readTokens tokens file module) s (fun c s' => c.current.kind = .eof ∧ Q 0 c s')
      fun _ s' => ∃ d c, Q d c s' := by
  unfold readTokens
  refine triple_bind.mpr (triple_get.mpr (triple_bind.mpr ?_))
  exact Grammar.triple_items hI ((Grammar.partsRead_productions hI _).stmt 0) _ _ hf hi (by simp)
    (by simp)

/-- Reading a module puts items below its root, all of them unless it stops. -/
theorem triple_parseModule {W : String → Prop} {I : Nat → Cursor → Session → Prop}
    (hI : Adds.Keeps W I) {module : ModuleId} {kind : NodeKind} {us : List Tree}
    (tokens : List Token) (file : String)
    (hf : s.tree.Forest (.node (s.module module).root kind [] :: us))
    (hi : I 0 (.start tokens file (s.module module).layers) s) :
    let Q := fun s' => ∃ d c ts,
      s'.tree.Forest (.node (s.module module).root kind ts :: us) ∧ I d c s' ∧
        (∀ t ∈ ts, t.Every (Written s')) ∧ Adds s s'
    Triple (parseModule tokens file module) s (fun _ => Q) fun _ => Q := by
  intro Q
  rw [parseModule_eq, triple_bind]
  refine (triple_readTokens hI tokens file hf hi).mono ?_ ?_
  · rintro c s' ⟨-, ts, hf', hi', hw, -, ha⟩
    exact ⟨0, c, ts, hf', hi', hw, ha⟩
  · rintro e s' ⟨d, c, ts, hf', hi', hw, -, ha⟩
    exact ⟨d, c, ts, hf', hi', hw, ha⟩

end BlockLang
