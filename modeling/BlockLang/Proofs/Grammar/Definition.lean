import BlockLang.Proofs.Grammar.Precedence
import BlockLang.Proofs.Grammar.Statement
import BlockLang.Proofs.Scope.Found

/-!
# Definitions of constants

A module that defines a constant by a number behind prefix operators is read into one node with
the nodes of the operators and the number below it (`returns_parseModule`). The name stands for
the new declaration in the scope it was read in.
-/

namespace BlockLang

/-- A name that is free is taken. -/
theorem ScopeTable.exists_addVar_free {t : ScopeTable} {scope : ScopeId} {name : String}
    (hs : t.Has scope) (hfree : (t.get scope).vars.lookup name = none) (decl : DeclId) :
    ∃ t', t.addVar scope name decl false = .ok t' ∧
      (t'.get scope).vars.lookup name = some (.single decl) := by
  obtain ⟨old, hold, hfind⟩ := find_eq_ok hs
  have hget : t.get scope = old := by simp [get, hold]
  have hdeclare : declare old.vars name decl false = .ok ((name, .single decl) :: old.vars) := by
    rw [← hget, declare, hfree]
    rfl
  refine ⟨t.modify scope ({ · with vars := (name, .single decl) :: old.vars }), ?_, ?_⟩
  · rw [addVar, hfind, bind_mapError_ok, hdeclare, bind_mapError_ok]
    rfl
  · simp [get_modify_self hs]

/-- `name` stands for a new constant in `scope`. Otherwise only nodes, types and values have come
new. -/
structure Defines (scope : ScopeId) (name : Token) (s s' : Session) : Prop where
  labels : s.tree.Extends s'.tree
  types : s.types.Extends s'.types
  values : s.values.Grows s'.values
  decls : s'.decls = s.decls.push (.new name.value (.var true false) scope name.span.start)
  scopes : s.scopes.addVar scope name.value ⟨s.decls.size⟩ false = .ok s'.scopes
  lookup : (s'.scopes.get scope).vars.lookup name.value = some (.single ⟨s.decls.size⟩)
  rest : s' = { s with
    tree := s'.tree, types := s'.types, scopes := s'.scopes, decls := s'.decls,
    values := s'.values }

section
variable {scope : ScopeId} {name : Token} {s s' s'' : Session}

theorem Defines.enriches (h : Defines scope name s s') (he : Enriches s' s'') :
    Defines scope name s s'' := by
  have hdecls : s''.decls = s'.decls := by rw [he.rest]
  have hscopes : s''.scopes = s'.scopes := by rw [he.rest]
  refine ⟨h.labels.trans he.labels, h.types.trans he.types, h.values.trans he.values,
    hdecls ▸ h.decls, hscopes ▸ h.scopes, hscopes ▸ h.lookup, ?_⟩
  rw [he.rest, h.rest]

theorem Enriches.defines (he : Enriches s s') (h : Defines scope name s' s'') :
    Defines scope name s s'' := by
  have hdecls : s'.decls = s.decls := by rw [he.rest]
  have hscopes : s'.scopes = s.scopes := by rw [he.rest]
  refine ⟨he.labels.trans h.labels, he.types.trans h.types, he.values.trans h.values,
    hdecls ▸ h.decls, hdecls ▸ hscopes ▸ h.scopes, hdecls ▸ h.lookup, ?_⟩
  rw [h.rest, he.rest]

end

namespace Grammar

open Parse

/-- A definition leaves the nodes of a number alone. -/
theorem SpellsFactor.defines {atom : Token} {marks : List UnaryMark} {scope : ScopeId}
    {name : Token} {s s' : Session} (h : SpellsFactor s atom marks t)
    (hd : Defines scope name s s') : SpellsFactor s' atom marks t := by
  have he : Enriches s { s with tree := s'.tree, types := s'.types, values := s'.values } :=
    ⟨hd.labels, hd.types, hd.values, rfl⟩
  replace h := h.enriches he
  induction h with
  | atom h =>
    refine .atom ?_
    cases h with
    | name hk hl => exact .name hk hl
    | literal hd hl hv => exact .literal hd hl hv
  | mark _ ih => exact .mark ih

variable {c : Cursor} {s s' : Session} {us : List Tree} {word name equals semicolon : Token}
  {rest tail : List Token} {x : Factor}

-- ---------------------------------------------------------------------------
-- One definition
-- ---------------------------------------------------------------------------

/-- After the first three tokens the value is read. -/
theorem run_varDecl (parts : Productions Power) (hname : name.kind = .identifier)
    (hequals : equals.kind = .assignment) (hc : c.rest = word :: name :: equals :: tail) :
    (varDecl parts true).run c = (do
      let value ← parts.expr .lowest
      let _ ← expect .semicolon
      let decl ← declare name (.var true false) (← get).declarationScope false
      node (.varDecl decl none false) (← spanFrom word.span.start) [value] : Parse NodeId).run
        { c with rest := tail, previousStop := equals.span.stop } := by
  have hword : c.current = word := Cursor.current_of_rest hc
  have hnext : c.next.rest = name :: equals :: tail := by rw [Cursor.next, hc]
  have hcurrent : c.next.current = name := Cursor.current_of_rest hnext
  have hnext₂ : c.next.next.rest = equals :: tail := by rw [Cursor.next, hnext]
  have hkind := (Cursor.kind_of_rest hnext₂).trans hequals
  have hcolon : c.next.next.current.kind ≠ .colon := by simp [hkind]
  have hlast : c.next.next.next = { c with rest := tail, previousStop := equals.span.stop } := by
    simp only [Cursor.next, hc]
  unfold varDecl
  rw [run_bind_of_gets gets_advance, run_bind_of_gets (gets_isAt _), hword, hcurrent,
    decide_eq_true hname]
  dsimp only
  rw [if_pos rfl, run_bind_of_gets gets_advance, hcurrent,
    run_bind_of_gets (gets_accept_false hcolon), if_neg Bool.false_ne_true, pure_bind,
    run_bind_of_gets gets_currentKind, hkind]
  dsimp only
  rw [run_bind_of_gets gets_advance, hlast]
  simp only [pure_bind]

/-- A free name is declared. -/
theorem returns_declare (name : Token) {scope : ScopeId} (hs : s.scopes.Has scope)
    (hfree : (s.scopes.get scope).vars.lookup name.value = none) :
    Returns ((declare name (.var true false) scope false).run c) s fun r s' =>
      r = (⟨s.decls.size⟩, c) ∧ s'.tree = s.tree ∧ Defines scope name s s' := by
  obtain ⟨scopes, hadd, hlookup⟩ := ScopeTable.exists_addVar_free hs hfree ⟨s.decls.size⟩
  unfold Parse.declare
  rw [StateT.run_bind, Returns, triple_bind]
  refine triple_session.mpr ?_
  rw [StateT.run_bind, triple_bind]
  refine Triple.of_start (rfl : _ = (Except.ok ((), c),
    (s.addDecl (.new name.value (.var true false) scope name.span.start)).2)) ?_
  dsimp only
  rw [show (s.addDecl (.new name.value (.var true false) scope name.span.start)).2.scopes.addVar
    scope name.value (s.addDecl (.new name.value (.var true false) scope name.span.start)).1 false =
      .ok scopes from hadd]
  exact ⟨rfl, rfl, .refl _, .refl _, .refl _, rfl, hadd, hlookup, rfl⟩

/-- Behind an expression that no operator follows, the factor it consists of has been read. -/
theorem makes_value {depth : Nat} (hx : x.tokens.length ≤ depth) {next : Token}
    (hnext : continuation? next.kind = none) (hc : c.rest = x.tokens ++ next :: rest) :
    Makes ((productions depth).expr .lowest) c s [] (next :: rest)
      fun t s' => SpellsFactor s' x.atom x.marks t := by
  obtain ⟨left, term, hportion, hmakes⟩ := readsChains_productions depth .lowest x []
    (by simpa [linkTokens] using hx)
  obtain ⟨hlinks, rfl⟩ := List.append_eq_nil_iff.mp hportion.links.symm
  obtain rfl := Term.eq_factor hportion.first hlinks
  refine (hmakes next rest hnext c s hc).imp fun t s' h => ?_
  cases h with
  | factor h => exact h

theorem returns_varDecl {depth : Nat} (hx : x.tokens.length ≤ depth)
    (hname : name.kind = .identifier) (hequals : equals.kind = .assignment)
    (hsemicolon : semicolon.kind = .semicolon)
    (hc : c.rest = word :: name :: equals :: (x.tokens ++ semicolon :: rest))
    (hs : s.scopes.Has c.declarationScope)
    (hfree : (s.scopes.get c.declarationScope).vars.lookup name.value = none)
    (hf : s.tree.Forest us) :
    Returns ((varDecl (productions depth) true).run c) s fun r s' => ∃ t,
      s'.tree.Forest (.node r.1 (.varDecl ⟨s.decls.size⟩ none false) [t] :: us) ∧
      SpellsFactor s' x.atom x.marks t ∧ Defines c.declarationScope name s s' ∧
      r.2.rest = rest := by
  have hnext : continuation? semicolon.kind = none := by rw [hsemicolon]; rfl
  rw [run_varDecl _ hname hequals hc, StateT.run_bind, Returns, triple_bind]
  refine (makes_value hx hnext rfl us hf).imp ?_
  rintro ⟨_, c₁⟩ s₁ ⟨t, rfl, hc₁, hf₁, he₁, ht⟩
  dsimp only at hc₁ ⊢
  have hrest : c₁.rest = semicolon :: rest := by rw [hc₁]
  have hscope : c₁.declarationScope = c.declarationScope := by rw [hc₁]; rfl
  have hscopes : s₁.scopes = s.scopes := by rw [he₁.rest]
  have hdecls : s₁.decls = s.decls := by rw [he₁.rest]
  have hnext₁ : c₁.next.rest = rest := by rw [Cursor.next, hrest]
  have hscope₁ : c₁.next.declarationScope = c.declarationScope := by
    rw [← hscope, Cursor.next, hrest]
    rfl
  rw [run_bind_of_gets (gets_expect ((Cursor.kind_of_rest hrest).trans hsemicolon)),
    StateT.run_bind, StateT.run_get, pure_bind, hscope₁, StateT.run_bind, triple_bind]
  refine (returns_declare name (hscopes ▸ hs) (hscopes ▸ hfree)).imp ?_
  rintro ⟨decl, c₂⟩ s₂ ⟨hr, htree, hdefines⟩
  obtain ⟨rfl, rfl⟩ := Prod.mk.inj hr
  dsimp only
  rw [run_bind_of_gets (gets_spanFrom _)]
  have hf₂ : s₂.tree.Forest ([t] ++ us) := htree ▸ hf₁
  refine triple_pass.mpr ((Pass.triple_addNode hf₂ rfl).imp ?_)
  rintro i s₃ ⟨hf₃, -, hg⟩
  exact ⟨t, hdecls ▸ hf₃, (ht.defines hdefines).enriches hg.enriches,
    (he₁.defines hdefines).enriches hg.enriches, hnext₁⟩

-- ---------------------------------------------------------------------------
-- A module of one definition
-- ---------------------------------------------------------------------------

theorem run_statement_const {parts : Productions Power} (h : c.current.kind = .constWord) :
    (statement parts).run c = (varDecl parts true).run c := by
  rw [statement, run_bind_of_gets gets_currentKind, h]

end Grammar

open Grammar

theorem returns_parseModule {s : Session} {us : List Tree} {word name equals semicolon last : Token}
    {x : Factor} {m : ModuleId} {kind : NodeKind} (file : String) (hword : word.kind = .constWord)
    (hname : name.kind = .identifier) (hequals : equals.kind = .assignment)
    (hsemicolon : semicolon.kind = .semicolon) (hlast : last.kind = .eof)
    (hs : s.scopes.Has (s.module m).layers.privateLayer)
    (hfree : (s.scopes.get (s.module m).layers.privateLayer).vars.lookup name.value = none)
    (hf : s.tree.Forest (.node (s.module m).root kind [] :: us)) :
    Returns (parseModule (word :: name :: equals :: (x.tokens ++ [semicolon, last])) file m) s
      fun _ s' => ∃ i t, s'.tree.Forest (.node (s.module m).root kind
          [.node i (.varDecl ⟨s.decls.size⟩ none false) [t]] :: us) ∧
        SpellsFactor s' x.atom x.marks t ∧ Defines (s.module m).layers.privateLayer name s s' := by
  unfold parseModule
  refine triple_bind.mpr (triple_get.mpr (triple_bind.mpr ?_))
  generalize htokens : word :: name :: equals :: (x.tokens ++ [semicolon, last]) = tokens
  have hlength : tokens.length = x.tokens.length + 5 := by simp [← htokens]
  have hrest : (Cursor.start tokens file (s.module m).layers).rest =
    word :: name :: equals :: (x.tokens ++ semicolon :: [last]) := htokens.symm
  have hk := (Cursor.kind_of_rest hrest).trans hword
  have hstmt : (productions (2 * tokens.length + 2)).stmt =
    statement (productions (2 * tokens.length + 1)) := rfl
  rw [run_items_cons (by simp [hk]), StateT.run_bind, triple_bind, hstmt, run_statement_const hk]
  refine (returns_varDecl (by omega) hname hequals hsemicolon hrest hs hfree hf).imp ?_
  rintro ⟨i, c⟩ s₁ ⟨t, hf₁, ht, hd, hc⟩
  rw [StateT.run_bind, triple_bind]
  have hf₂ : s₁.tree.Forest (Frame.plug [] [.node (s.module m).root kind []] ++
    .node i (.varDecl ⟨s.decls.size⟩ none false) [t] :: us) := hf₁.perm (.swap _ _ _)
  refine Parse.triple_pass.mpr ((Pass.triple_pushChild hf₂).imp ?_)
  rintro - s₂ ⟨hf₃, hr⟩
  have he := (hr.gains c.scope).enriches
  have hend := (Cursor.kind_of_rest hc).trans hlast
  obtain ⟨fuel, hfuel⟩ : ∃ fuel, tokens.length = fuel + 1 := ⟨_, hlength⟩
  rw [hfuel, run_items_eof hend]
  exact ⟨i, t, hf₃, ht.enriches he, hd.enriches he⟩

end BlockLang
