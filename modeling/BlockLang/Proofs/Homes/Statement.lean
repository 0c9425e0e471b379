import BlockLang.Proofs.Homes.Expression

/-!
# Declarations in place

A statement starts with the token that tells whether it is an exported item. What it declares
is registered where that token and the scope say, and its node stands for it from then on. The
parameters of a function and its body go to a scope that the function opens.
-/

namespace BlockLang

namespace Grammar

open Parse

variable {g : Ground} {spot : Spot} {s₀ s : Session} {hs : List NodeId} {kind : Token.Kind}
  {parts : Productions Power} {c : Cursor}

/-- A statement that begins with a token of this kind is kept in place. -/
def Begins (g : Ground) (spot : Spot) (kind : Token.Kind) (p : Parse NodeId) : Prop :=
  ∀ c s, c.Starts g spot → spot.In g s → c.current.kind = kind →
    IfReturns (p.run c) s fun r s' => InPlace g spot s [r.1] r.2 s'

theorem Begins.advance {f : Token → Parse NodeId} (hk : kind ≠ .exportWord) (heof : kind ≠ .eof)
    (hf : ∀ token, g.Home (spot.scope g) token.span.start (spot.home g) →
      Yields g spot (f token) fun id => [id]) : Begins g spot kind (advance >>= f) := by
  rintro c s hc hs rfl
  exact hf c.current (hc.home heof) s c.next s (.refl (hc.next hk heof) hs)

theorem Begins.currentKind {f : Token.Kind → Parse NodeId} (h : Begins g spot kind (f kind)) :
    Begins g spot kind (currentKind >>= f) := by
  rintro c s hc hs rfl
  exact h c s hc hs rfl

/-- What is no item is read like anything else. -/
theorem Begins.of_stepsAt {p : Parse NodeId} (hk : kind.isItem = false)
    (h : ¬ spot.Exporting → ∀ s₀, StepsAt g spot s₀ [] kind p fun id => [id]) :
    Begins g spot kind p := by
  rintro c s hc hs rfl
  have he := hc.not_exporting hk
  exact h he s c s (.refl (hc.at he) hs) rfl

-- ---------------------------------------------------------------------------
-- Declaring
-- ---------------------------------------------------------------------------

theorem ifReturns_declare (c : Cursor) (s : Session) (name : Token) (kind : DeclKind)
    (scope : ScopeId) (overloadable : Bool) :
    IfReturns ((declare name kind scope overloadable).run c) s fun r s' =>
      r.2 = c ∧ s.Declared s' (.new name.value kind scope name.span.start) r.1 := by
  rw [Parse.declare, StateT.run_bind]
  refine triple_bind.mpr (triple_session.mpr ?_)
  rw [StateT.run_bind]
  refine triple_bind.mpr (Triple.of_start (rfl : _ = (Except.ok ((), c),
    (s.addDecl (.new name.value kind scope name.span.start)).2)) ?_)
  dsimp only
  cases hadd : (s.addDecl (.new name.value kind scope name.span.start)).2.scopes.addVar scope
      name.value (s.addDecl (.new name.value kind scope name.span.start)).1 overloadable with
  | error refusal => cases refusal <;> trivial
  | ok scopes => exact ⟨rfl, Session.declared_of_addVar hadd⟩

/-- A declaration at home and the node that stands for it, which takes what is at hand. -/
theorem ifReturns_declared {mk : DeclId → NodeKind} {name first : Token} {declKind : DeclKind}
    {overloadable : Bool} (hl : g.Lodged s₀ s hs) (hc : c.At g spot) (hs₁ : spot.In g s)
    (hmk : ∀ d, (mk d).declares? = some d)
    (hadmits : ∀ decl s' span,
      s.Declared s' (.new name.value declKind (spot.home g) name.span.start) decl →
      span.start = first.span.start → g.Admits s' (mk decl) span (spot.scope g) hs)
    (hfresh : ∀ decl s₂ id scope, g.Keeps s s₂ → s₂.tree.kind id = mk decl →
      s₂.tree.children id = hs → s₂.tree.Opens id scope →
      s₀.scopes.scopes.size ≤ scope.index ∧
        ∀ other, g.New s₀ s other → ¬ s.tree.Opens other scope) :
    IfReturns ((do
      let decl ← declare name declKind (spot.home g) overloadable
      node (mk decl) (← spanFrom first.span.start) hs).run c) s
      fun r s' => InPlace g spot s₀ [r.1] r.2 s' := by
  rw [StateT.run_bind]
  refine triple_bind.mpr ((ifReturns_declare c s name declKind (spot.home g) overloadable).imp ?_)
  rintro ⟨decl, c₁⟩ s₁ ⟨hcursor, hd⟩
  obtain rfl : c₁ = c := hcursor
  have hplace := hs₁.keep (.of_retains hd.toRetains hd.tree)
  refine ifReturns_spanFrom.mpr ((ifReturns_node c₁ s₁ (mk decl) _ hs).imp ?_)
  rintro ⟨id, c₂⟩ s₂ ⟨hcursor, hn⟩
  obtain rfl : c₂ = c₁ := hcursor
  have hkeeps : g.Keeps s s₂ := (Ground.Keeps.of_retains hd.toRetains hd.tree).trans
    (Ground.keeps_of_addsNode hplace.root hn)
  have hadm := hadmits decl s₁ ⟨first.span.start, c₂.previousStop⟩ hd rfl
  rw [← hc.scope] at hadm
  have hnode := hl.declared hd hplace.root hn (hmk decl) hadm
    (fun scope => hfresh decl s₂ id scope hkeeps hn.kind hn.children) fun _ hi => hi
  have hend : InPlace g spot s₀ ([] ++ [id]) c₂ s₂ := .node hc hplace hn hnode nofun
  exact hend

-- ---------------------------------------------------------------------------
-- Variables
-- ---------------------------------------------------------------------------

/-- A variable at home and its node, which takes the initial value if there is one. -/
theorem steps_variable {name first : Token} {isConst isRef : Bool} {declared : Option TypeExpr}
    (hhome : g.Home (spot.scope g) first.span.start (spot.home g)) :
    Steps g spot s₀ hs (do
      let decl ← declare name (.var isConst isRef) (spot.home g) false
      node (.varDecl decl declared isRef) (← spanFrom first.span.start) hs) fun id => [id] := by
  intro c s hr
  refine ifReturns_declared hr.lodged hr.cursor hr.place (fun _ => rfl)
    (fun decl s' span hd hspan => ?_) ?_
  · rw [← hspan] at hhome
    exact Ground.admits_varDecl hd hhome hr.hands
  · rintro decl s₂ id scope - hkind - ho
    exact absurd ho (Arena.not_opens (by rw [hkind]; rfl))

theorem begins_varDecl (hp : PartsYield g parts) (isConst : Bool) (hk : kind ≠ .exportWord)
    (heof : kind ≠ .eof) : Begins g spot kind (varDecl parts isConst) := by
  refine .advance hk heof fun first hhome s₀ => ?_
  extract_lets afterName
  have hname : ∀ name : Token, Steps g spot s₀ [] (afterName name) fun id => [id] := by
    intro name
    refine Steps.calm (calm_accept (by decide)) fun b => ?_
    extract_lets afterType
    have htype : ∀ declared, Steps g spot s₀ [] (afterType declared) fun id => [id] := by
      intro declared
      refine Steps.currentKind fun kind => ?_
      extract_lets afterValue
      -- `r` has the initial value, if there is one, and says whether it is referred to
      have hvalue : ∀ r, Steps g spot s₀ r.1 (afterValue r) fun id => [id] := by
        rintro ⟨initial, isRef⟩
        refine Steps.calm (calm_expect (by decide)) fun _ => Steps.get fun c hc => ?_
        rw [hc.home]
        exact steps_variable hhome
      clear_value afterValue
      have hexpr : ∀ {kind : Token.Kind} isRef, kind ≠ .exportWord →
          StepsAt g spot s₀ [] kind (do
            let _ ← advance
            let value ← parts.expr .lowest
            let r ← pure ([value], isRef)
            afterValue r) fun id => [id] := by
        intro kind isRef hk
        refine StepsAt.advance hk fun _ => (hp.expr .lowest spot).then fun value => ?_
        rw [pure_bind]
        exact hvalue ([value], isRef)
      split
      · exact hexpr false (by decide)
      · exact hexpr true (by decide)
      · refine Steps.at ?_
        cases declared with
        | none => exact .refuse_bind _
        | some type =>
          cases isConst
          · simp only [Option.isNone_some, Bool.false_eq_true, ↓reduceIte, pure_bind]
            exact hvalue ([], false)
          · exact .refuse_bind _
      · exact Steps.at (.refuse_bind _)
    cases b
    · exact htype none
    · exact Steps.calm hp.type.map fun _ => htype _
  refine Steps.isAt (StepsAt.advance (by decide) hname) (.refuse_bind _)

-- ---------------------------------------------------------------------------
-- Types
-- ---------------------------------------------------------------------------

theorem calm_typeParams : Calm g typeParams := by
  refine (calm_accept (by decide)).bind fun b => .ite (calm_bound.bind fun fuel => ?_) (.pure _)
  refine (calm_separated _ ?_ fuel).bind fun r => (calm_expect (by decide)).bind fun _ => .pure _
  exact (calm_expect (by decide)).bind fun _ => .pure _

theorem begins_typeDecl (hp : PartsYield g parts) (hk : kind ≠ .exportWord) (heof : kind ≠ .eof) :
    Begins g spot kind (typeDecl parts) := by
  refine .advance hk heof fun first hhome s₀ => ?_
  refine Steps.calm (calm_expect (by decide)) fun name => Steps.calm calm_typeParams fun params =>
    Steps.calm (calm_expect (by decide)) fun _ => Steps.calm hp.type fun body =>
    Steps.calm (calm_expect (by decide)) fun _ => Steps.get fun c₀ hc₀ c s hr => ?_
  rw [StateT.run_bind]
  refine triple_bind.mpr (triple_session.mpr ?_)
  dsimp only
  split
  · next id scopes hadd =>
    rw [hc₀.home] at hadd
    have hd := Session.defined_of_addType hadd
    rw [StateT.run_bind]
    refine triple_bind.mpr (Triple.of_start (rfl : _ = (Except.ok ((), c),
      ({ s with scopes } : Session))) ?_)
    have hplace := hr.place.keep (.of_retains hd.toRetains hd.tree)
    refine ifReturns_spanFrom.mpr ((ifReturns_node c _ (.typeDecl name.value) _ []).imp ?_)
    rintro ⟨id, c₁⟩ s₁ ⟨hcursor, hn⟩
    obtain rfl : c₁ = c := hcursor
    have hnode := hr.lodged.defined hd hplace.root hn (hr.cursor.scope ▸ hhome)
    have hend : InPlace g spot s₀ ([] ++ [id]) c₁ s₁ := .node hr.cursor hplace hn hnode nofun
    exact hend
  · next refusal hadd =>
    cases refusal <;> trivial

-- ---------------------------------------------------------------------------
-- Functions
-- ---------------------------------------------------------------------------

variable {own : ScopeId} {parent : Option ScopeId}

theorem ifReturns_param (hp : PartsYield g parts) (hc : c.At g spot) (hs : spot.In g s)
    (hown : s.scopes.Stands own .function parent) :
    IfReturns ((param parts own).run c) s fun r s' =>
      InPlace g spot s [] r.2 s' ∧ s'.Registers own r.1.decl := by
  refine (calm_expect (by decide)).run hc fun name c₁ hc₁ => ?_
  refine (calm_expect (by decide)).run hc₁ fun _ c₂ hc₂ => hp.type.run hc₂ fun type c₃ hc₃ => ?_
  rw [StateT.run_bind]
  refine triple_bind.mpr ((ifReturns_declare c₃ s name .parameter own false).imp ?_)
  rintro ⟨decl, c₄⟩ s' ⟨hcursor, hd⟩
  obtain rfl : c₄ = c₃ := hcursor
  have hl := Ground.lodged_param (g := g) hd hown.has hown.kind rfl []
  exact ⟨⟨hc₃, hs.keep hl.toKeeps, hl, nofun⟩, hd.registers⟩

theorem ifReturns_params (hp : PartsYield g parts) (message : String) (fuel : Nat)
    (hc : c.At g spot) (hs : spot.In g s) (hown : s.scopes.Stands own .function parent) :
    IfReturns ((separated .closeParen message (param parts own) fuel).run c) s fun r s' =>
      InPlace g spot s [] r.2 s' ∧ ∀ p ∈ r.1.1, s'.Registers own p.decl := by
  induction fuel generalizing c s with
  | zero => trivial
  | succ fuel ih =>
    refine ifReturns_isAt (fun _ => ⟨.refl hc hs, nofun⟩) ?_
    simp only [Bool.false_eq_true, ↓reduceIte]
    rw [StateT.run_bind]
    refine triple_bind.mpr ((ifReturns_param hp hc hs hown).imp ?_)
    rintro ⟨first, c₁⟩ s₁ ⟨h₁, hfirst⟩
    refine (calm_accept (by decide)).run h₁.cursor fun b c₂ hc₂ => ?_
    cases b with
    | true =>
      simp only [↓reduceIte]
      rw [StateT.run_bind]
      refine triple_bind.mpr ((ih hc₂ h₁.place (h₁.lodged.scopes hown)).imp ?_)
      rintro ⟨⟨rest, comma⟩, c₃⟩ s₂ ⟨h₂, hrest⟩
      refine ⟨h₁.append h₂, fun p hmem => ?_⟩
      rcases List.mem_cons.mp hmem with rfl | hmem
      · exact hfirst.retain h₂.lodged.toRetains
      · exact hrest p hmem
    | false =>
      refine ifReturns_isAt (fun _ => ⟨⟨hc₂, h₁.place, h₁.lodged, nofun⟩, fun p hmem => ?_⟩) trivial
      obtain rfl := List.mem_singleton.mp hmem
      exact hfirst

theorem ifReturns_signatureAndBody (hp : PartsYield g parts) (hc : c.At g spot) (hs : spot.In g s)
    (hown : s.scopes.Stands own .function parent) :
    IfReturns ((signatureAndBody parts own).run c) s fun r s' =>
      InPlace g spot s [r.1.2.2] r.2 s' ∧ s'.tree.kind r.1.2.2 = .block ∧
        ∀ p ∈ r.1.1, s'.Registers own p.decl := by
  refine (calm_expect (by decide)).run hc fun _ c₁ hc₁ => calm_bound.run hc₁ fun fuel c₂ hc₂ => ?_
  rw [StateT.run_bind]
  refine triple_bind.mpr ((ifReturns_params hp _ fuel hc₂ hs hown).imp ?_)
  rintro ⟨⟨params, comma⟩, c₃⟩ s₁ ⟨h₁, hparams⟩
  refine (calm_expect (by decide)).run h₁.cursor fun _ c₄ hc₄ => ?_
  refine (calm_accept (by decide)).run hc₄ fun arrow c₅ hc₅ => ?_
  extract_lets body
  have hbody : ∀ result c, c.At g spot → IfReturns ((body result).run c) s₁ fun r s' =>
      InPlace g spot s [r.1.2.2] r.2 s' ∧ s'.tree.kind r.1.2.2 = .block ∧
        ∀ p ∈ r.1.1, s'.Registers own p.decl := by
    intro result c hc
    refine ifReturns_isAt (fun hk => ?_) trivial
    simp only [↓reduceIte]
    rw [StateT.run_bind]
    refine triple_bind.mpr ((ifReturns_block hp hc h₁.place (by simp [hk])).imp ?_)
    rintro ⟨id, c'⟩ s₂ ⟨h₂, hkind⟩
    exact ⟨h₁.append h₂, hkind, fun p hmem => (hparams p hmem).retain h₂.lodged.toRetains⟩
  cases arrow with
  | true => exact hp.type.map.run hc₅ fun result c hc => hbody result c hc
  | false => exact hbody none c₅ hc₅

theorem begins_funcDecl (hp : PartsYield g parts) (hk : kind ≠ .exportWord) (heof : kind ≠ .eof) :
    Begins g spot kind (funcDecl parts) := by
  refine .advance hk heof fun first hhome => .of_start fun c s hc hs => ?_
  refine (calm_expect (by decide)).run hc fun name c₁ hc₁ => ifReturns_get.mpr ?_
  rw [hc₁.home]
  refine ifReturns_enterScope.mpr ?_
  have hown : (s.enter .function c₁.scope).scopes.Stands s.nextScope .function (some c₁.scope) :=
    s.scopes.stands_addScope .function (some c₁.scope)
  rw [StateT.run_bind]
  refine triple_bind.mpr ((ifReturns_signatureAndBody hp (hc₁.enter s.nextScope)
    (hs.enter .function c₁.scope) hown).imp ?_)
  rintro ⟨⟨params, result, body⟩, c₂⟩ s₂ ⟨h₂, hbody, hparams⟩
  refine ifReturns_leaveScope.mpr ?_
  have hl : g.Lodged s s₂ [body] := (Ground.lodged_enter s .function c₁.scope []).append h₂.lodged
  have hhands : g.Hands s₂ s.nextScope body := h₂.hands body (List.mem_singleton_self body)
  refine ifReturns_declared hl h₂.cursor.leave (hs.keep hl.toKeeps) (fun _ => rfl)
    (fun decl s' span hd hspan => ?_) fun decl s₃ id scope hkeeps _ hchildren ho => ?_
  · have hstands := h₂.lodged.scopes hown
    rw [← hspan] at hhome
    rw [hc₁.scope] at hstands
    exact Ground.admits_funcDecl hd hhome hhands hbody hstands hparams
  · refine fresh_of_enter h₂.lodged hchildren (fun child hchild => ?_) ho
    obtain rfl := List.mem_singleton.mp hchild
    exact (hkeeps.hands hhands).scope

-- ---------------------------------------------------------------------------
-- Items
-- ---------------------------------------------------------------------------

theorem calm_requireTopLevel (first : Token) (word message : String) :
    Calm g (requireTopLevel first word message) :=
  calm_get.bind fun _ => .ite (calm_fail _ _) (.pure _)

theorem ifReturns_requireTopLevel {first : Token} {word message : String}
    {f : Unit → Parse NodeId} {Q : NodeId × Cursor → Session → Prop}
    (h : c.inner = [] → IfReturns ((f ()).run c) s Q) :
    IfReturns ((requireTopLevel first word message >>= f).run c) s Q := by
  rw [requireTopLevel, bind_assoc]
  refine ifReturns_get.mpr ?_
  cases htop : c.atTopLevel with
  | true => exact h (List.isEmpty_iff.mp htop)
  | false => trivial

theorem begins_importDecl (hk : kind ≠ .exportWord) (heof : kind ≠ .eof) :
    Begins g spot kind importDecl :=
  .advance hk heof fun _ _ _ => Steps.calm (calm_requireTopLevel _ _ _) fun _ =>
    Steps.calm (calm_expect (by decide)) fun _ => Steps.calm (calm_expect (by decide)) fun _ =>
    Steps.calm calm_get fun _ => Steps.calm (calm_spanFrom _) fun _ => Steps.node rfl _

/-- Right after `export` stands an item, in no inner scope. -/
theorem starts_exporting (hc : c.At g spot) (hk : c.current.kind = .exportWord)
    (htop : c.next.inner = []) (hitem : c.next.current.kind.isItem = true) :
    Cursor.Starts { c.next with exporting := true } g { spot with exporting := true } := by
  obtain ⟨read, htokens, -⟩ := hc.past
  cases hrest : c.rest with
  | nil =>
    rw [Cursor.current, hrest] at hk
    exact absurd (hk.symm.trans hc.eof) (by decide)
  | cons word rest =>
    have hword : word.kind = .exportWord := by rwa [Cursor.current, hrest] at hk
    have hnext : c.next = { c with previousStop := word.span.stop, rest := rest } := by
      rw [Cursor.next, hrest]
    rw [hnext] at htop hitem ⊢
    have hexporting : ({ spot with exporting := true } : Spot).Exporting :=
      ⟨hc.inner.symm.trans htop, rfl⟩
    refine ⟨hc.layers, hc.inner, rfl, hc.eof, ⟨read ++ [word], ?_, ?_⟩, fun _ => hitem⟩
    · rw [htokens, hrest, List.append_assoc]
      rfl
    · exact ⟨fun _ => hexporting, fun _ => ⟨word, by simp, hword⟩⟩

theorem begins_exportItem (hp : PartsYield g parts) :
    Begins g spot .exportWord (exportItem parts) := by
  rintro c s hstart hs hk
  have hplain : ¬ spot.Exporting := hstart.not_exporting (by simp [hk, Token.Kind.isItem])
  have hc := hstart.at hplain
  refine ifReturns_advance.mpr (ifReturns_requireTopLevel fun htop => ?_)
  have hitem : c.next.current.kind.isItem = true → IfReturns ((do
      modify fun c => { c with exporting := true }
      let item ← parts.stmt
      modify fun c => { c with exporting := false }
      return item : Parse NodeId).run c.next) s fun r s' => InPlace g spot s [r.1] r.2 s' := by
    intro hnext
    have hinside := starts_exporting hc hk htop hnext
    have htop : spot.inner = [] := hinside.inner.symm.trans htop
    refine ifReturns_modify.mpr ?_
    rw [StateT.run_bind]
    refine triple_bind.mpr ((hp.stmt _ _ s hinside ⟨hs.root, hs.privateLayer, hs.inner⟩).imp ?_)
    rintro ⟨item, c'⟩ s' h
    have hexporting : spot.exporting = false := by
      cases he : spot.exporting
      · rfl
      · exact absurd ⟨htop, he⟩ hplain
    exact ⟨⟨h.cursor.layers, h.cursor.inner, hexporting.symm, h.cursor.eof, h.cursor.past⟩,
      ⟨h.place.root, h.place.privateLayer, h.place.inner⟩, h.lodged, h.hands⟩
  refine ifReturns_currentKind.mpr ?_
  split
  all_goals first | trivial | rename_i hkind
  all_goals exact hitem (by rw [hkind]; rfl)

-- ---------------------------------------------------------------------------
-- Statements
-- ---------------------------------------------------------------------------

theorem stepsAt_returnStmt (hp : PartsYield g parts) (hk : kind ≠ .exportWord) :
    StepsAt g spot s₀ [] kind (returnStmt parts) fun id => [id] := by
  refine StepsAt.advance hk fun first => ?_
  have hend : ∀ value, Steps g spot s₀ value (do
      let _ ← expect .semicolon
      node .returnStmt (← spanFrom first.span.start) value) fun id => [id] := fun value =>
    Steps.calm (calm_expect (by decide)) fun _ => Steps.calm (calm_spanFrom _) fun _ =>
    Steps.node rfl _
  refine Steps.isAt (Steps.at (hend [])) ((hp.expr .lowest spot).then fun value => ?_)
  rw [pure_bind]
  exact hend [value]

theorem stepsAt_whileLoop (hp : PartsYield g parts) (he : ¬ spot.Exporting)
    (hk : kind ≠ .exportWord) :
    StepsAt g spot s₀ [] kind (whileLoop parts) fun id => [id] :=
  StepsAt.advance hk fun _ => (hp.expr .lowest spot).then fun _ => (hp.plain he).then fun _ =>
    Steps.calm (calm_spanFrom _) fun _ => Steps.node rfl _

theorem steps_exprStmt (hp : PartsYield g parts) :
    Steps g spot s₀ [] (exprStmt parts) fun id => [id] := by
  refine (hp.expr .lowest spot).then fun expr => Steps.currentKind fun kind => ?_
  split
  · exact StepsAt.advance (by decide) fun _ => Steps.calm (calm_spanOf _) fun _ => Steps.node rfl _
  · exact Steps.at (.pure rfl)
  · exact Steps.at (.pure rfl)
  · exact Steps.at (.refuse _)

theorem begins_statement (hp : PartsYield g parts) : Begins g spot kind (statement parts) := by
  refine .currentKind ?_
  split
  · exact begins_varDecl hp true (by decide) (by decide)
  · exact begins_varDecl hp false (by decide) (by decide)
  · exact begins_importDecl (by decide) (by decide)
  · exact begins_exportItem hp
  · exact .of_stepsAt rfl fun he _ => stepsAt_conditional hp (hp.plain he) (by decide)
  · exact .of_stepsAt rfl fun he _ => stepsAt_whileLoop hp he (by decide)
  · exact .of_stepsAt rfl fun _ _ => stepsAt_block hp (by decide)
  · exact begins_funcDecl hp (by decide) (by decide)
  · exact begins_typeDecl hp (by decide) (by decide)
  · exact .of_stepsAt rfl fun _ _ => stepsAt_returnStmt hp (by decide)
  · refine .of_stepsAt ?_ fun _ _ => Steps.at (steps_exprStmt hp)
    cases kind <;> first | rfl | contradiction

/-- Every production keeps what it adds in place, however deep its parts go. -/
theorem partsYield_productions (depth : Nat) : PartsYield g (productions depth) := by
  induction depth with
  | zero =>
    exact ⟨calm_endless, fun _ _ _ => .endless, fun _ _ _ _ _ => trivial⟩
  | succ depth ih =>
    exact ⟨calm_typeSyntax ih.type, fun power _ => yields_expression ih power,
      fun _ c s hc hs => begins_statement ih c s hc hs rfl⟩

end Grammar
end BlockLang
