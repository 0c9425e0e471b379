import BlockLang.Proofs.Typing.CandidOperations
import BlockLang.Proofs.Typing.Poisoned

/-!
# Steps are candid

The step of a basic block that is looked at in a clean session, with types for all of its
operands, leaves a clean session, or something has been reported that makes the program
unusable. The one step that can be wrong without a report is a store into something that is not
marked as a place.
-/

namespace BlockLang

/-- What a step needs that is to be right: types for all operands, for a literal one of its own,
and for a store something that can be stored to. -/
structure Session.Prepared (s : Session) (node : NodeId) (k : NodeKind) : Prop where
  ready : k = .nullValue ∨ s.Ready node k
  literal : k = .literal → s.Typed node
  place : k = .assign → ∀ target ∈ s.tree.child? node 0, (s.tree.facts target).lvalue = true

/-- What is learned elsewhere leaves a node ready. -/
theorem Learns.ready {s s' : Session} {node : NodeId} {k : NodeKind}
    (h : Learns (fun _ => False) s s') (hr : s.Ready node k) : s'.Ready node k := by
  have hchildren := Arena.children_congr (h.links node)
  refine ⟨hchildren ▸ hr.arity, fun o ho => ?_⟩
  rw [Session.Typed, h.facts not_false]
  exact hr.typed o (hchildren ▸ ho)

namespace Typing

open Pass

variable {busy : DeclId → Prop} {P : Session → Prop} {node : NodeId}

-- ---------------------------------------------------------------------------
-- Returns and declarations
-- ---------------------------------------------------------------------------

theorem candid_setUnit : Candid busy P (setType node .unit) fun _ _ => True :=
  .given (candid_setType fun _ h => h.1.built.clean_unit)

theorem candid_analyzeReturn (result : Option TypeId) (poisoned : Bool) :
    Candid busy P (analyzeReturn node result poisoned) fun _ _ => True := by
  have hcheck : ∀ {P : Session → Prop} (expected received : TypeId), Candid busy P (do
      if !(← converts received expected) then mismatch node expected received) fun _ _ => True :=
    fun expected received => .bind (.look fun _ => rfl) fun fits =>
      .ite (fun _ => (candid_mismatch _ _ _).imp (fun _ h => h) nofun) fun _ =>
        .pure fun _ _ => trivial
  refine .bind candid_setUnit fun _ => ?_
  split
  · exact (CandidTo.reportAt _ _).imp (fun _ h => h) nofun
  · next result =>
    refine .bind (.look fun _ => rfl) fun wrong => .ite (fun _ => .pure fun _ _ => trivial)
      fun _ => .bind (.look fun _ => rfl) fun value => ?_
    dsimp only
    split
    · exact .bind (.look fun _ => rfl) fun received => hcheck result received
    · exact .bind (Q := fun _ _ => True) (.pure fun _ _ => trivial) fun received =>
        hcheck result received

/-- A declared type is taken as it is, and else that of the initial value. -/
theorem candid_joinDeclared (declared initial : Option TypeId) :
    MakesClean busy (fun s => (declared.isSome = true ∨ initial.isSome = true) ∧
      (∀ t ∈ declared, s.types.Clean t) ∧ ∀ t ∈ initial, s.types.Clean t)
      (joinDeclared node declared initial) := by
  unfold joinDeclared
  split
  · refine .bind (.look fun _ => rfl) fun _ => .bind (.look fun _ => rfl) fun _ =>
      .bind (.look fun _ => rfl) fun _ => .ite (fun _ => ?_) fun _ =>
        .pure fun s h => h.2.1 _ rfl
    exact .bind (candid_mismatch _ _ _) fun _ => .pure nofun
  · exact .pure fun s h => h.2.1 _ rfl
  · exact .pure fun s h => h.2.2 _ rfl
  · exact .pure fun s h => by simp at h

theorem candid_referenceTo (type : Option TypeId) (keepReference : Bool) :
    Candid busy (fun s => ∀ t ∈ type, s.types.Clean t) (referenceTo type keepReference)
      fun reference s => reference.isSome = type.isSome ∧ ∀ t ∈ reference, s.types.Clean t := by
  unfold referenceTo
  split
  · exact .pure (by simp)
  · next type =>
    refine .bind (.look fun _ => rfl) fun _ => .ite (fun _ => .pure fun s h => ⟨rfl, h⟩) fun _ => ?_
    exact .map ((CandidTo.makeType (.reference type) (by simp)).imp (fun _ h => h)
      fun _ _ h => ⟨rfl, by simpa using h⟩)

theorem candid_constantOfType (value : ValueId) (type : TypeId) :
    Candid busy P (constantOfType value type) fun _ _ => True := by
  refine .bind (.look fun _ => rfl) fun s => .ite (fun _ => .map (candid_duplicate _)) fun _ =>
    .bind (.look fun _ => rfl) fun types => ?_
  split
  · exact .onValues? _
  · exact .map (.onValues _)

/-- A variable gets a clean type, for it is declared with one or has an initial value. -/
theorem candid_analyzeVarDecl {id : DeclId} {declared : Option TypeExpr} {isRef : Bool} :
    Candid busy (fun s => s.Scoped ∧ s.Ready node (.varDecl id declared isRef))
      (analyzeVarDecl node id declared isRef) fun _ _ => True := by
  refine .bind (Q := fun scope s => s.Scoped ∧ s.names.Has scope ∧
    s.Ready node (.varDecl id declared isRef))
    (.reads fun _ => ⟨rfl, fun _ h => ⟨h.1, h.1.nodes node, h.2⟩⟩) fun scope => ?_
  extract_lets afterDeclared
  -- each part of the declaration that may be missing is followed by the same rest
  have hdeclared : ∀ type, Candid busy (fun s => s.Ready node (.varDecl id declared isRef) ∧
      (declared.isSome = true → type.isSome = true) ∧ ∀ t ∈ type, s.types.Clean t)
      (afterDeclared type) fun _ _ => True := by
    intro type
    refine .bind (Q := fun initializer s => (∀ o ∈ initializer, s.Typed o) ∧
      (type.isSome = true ∨ initializer.isSome = true) ∧ ∀ t ∈ type, s.types.Clean t)
      (.reads fun s => ⟨rfl, fun _ h => ⟨fun o ho => ?_, ?_, h.2.2⟩⟩) fun initializer => ?_
    · exact h.1.typed o (List.mem_of_getElem? ho)
    · rcases h.1.arity with hcount | ⟨-, hsome, -⟩
      · obtain ⟨o, ho⟩ := List.length_eq_one_iff.mp hcount
        exact .inr (by simp [Arena.child?, ho])
      · exact .inl (h.2.1 hsome)
    extract_lets afterType afterInitial
    have htype : ∀ type, Candid busy (fun s => s.types.Clean type) (afterType type)
        fun _ _ => True := by
      intro type
      unfold afterType
      extract_lets afterValue afterConstant
      have hvalue : ∀ value, Candid busy (fun s => s.types.Clean type) (afterValue value)
          fun _ _ => True := fun value =>
        .bind (.modifyDecl (fun s h d _ => ⟨fun _ ht => Option.some.inj ht ▸ h, fun _ => rfl,
          fun _ _ => rfl⟩) (fun _ h => h) fun _ _ h => h) fun _ => candid_setUnit
      have hconstant : ∀ constant, Candid busy (fun s => s.types.Clean type)
          (afterConstant constant) fun _ _ => True := by
        intro constant
        unfold afterConstant
        split
        · exact .seq (candid_constantOfType _ _) (fun _ h => h) fun value =>
            (hvalue value).imp (fun _ h => h.1) fun _ _ h => h
        · exact .bind (.pure fun _ h => h) hvalue
      clear_value afterConstant
      split
      · exact .bind (.look fun _ => rfl) fun _ => .ite
          (fun _ => .bind (.look fun _ => rfl) hconstant)
          fun _ => .bind (.pure fun _ h => h) hconstant
      · exact .bind (.pure fun _ h => h) hconstant
    have hinitial : ∀ initial, Candid busy (fun s => (type.isSome = true ∨ initial.isSome = true) ∧
        (∀ t ∈ type, s.types.Clean t) ∧ ∀ t ∈ initial, s.types.Clean t) (afterInitial initial)
        fun _ _ => True := by
      intro initial
      refine .ite (fun _ => ?_) fun _ => .bind (candid_joinDeclared _ _) htype
      refine .seq (candid_referenceTo type true) (fun _ h => h.2.1) fun declared => ?_
      refine .seq (candid_referenceTo initial false) (fun _ h => h.1.2.2) fun initial => ?_
      refine .bind ((candid_joinDeclared declared initial).imp ?_ fun _ _ h => h) htype
      rintro s ⟨⟨⟨hsome, -⟩, hdeclared, hcleanDeclared⟩, hinitial, hcleanInitial⟩
      exact ⟨by rwa [hdeclared, hinitial], hcleanDeclared, hcleanInitial⟩
    clear_value afterInitial
    split
    · next init =>
      have hinit : Candid busy (fun s => (∀ o ∈ some init, s.Typed o) ∧
          (type.isSome = true ∨ (some init).isSome = true) ∧ ∀ t ∈ type, s.types.Clean t)
          (some <$> typeOf init) fun initial s => (type.isSome = true ∨ initial.isSome = true) ∧
            (∀ t ∈ type, s.types.Clean t) ∧ ∀ t ∈ initial, s.types.Clean t :=
        .map ((candid_typeOf fun s h => h.1 init rfl).imp (fun _ h => h)
          fun _ _ h => ⟨.inr rfl, h.1.2.2, by simpa using h.2⟩)
      exact hinit.bind hinitial
    · exact .bind (.pure fun s h => ⟨by simpa using h.2.1, h.2.2, by simp⟩) hinitial
  clear_value afterDeclared
  split
  · next expr =>
    have hresolve : Candid busy (fun s => s.Scoped ∧ s.names.Has scope ∧
        s.Ready node (.varDecl id (some expr) isRef)) (resolveType scope expr) fun type s =>
          s.types.Clean type ∧ s.Ready node (.varDecl id (some expr) isRef) := by
      refine ((candid_resolveType scope expr).imp (fun _ _ => trivial) fun _ _ h => h).and
        (T := fun _ s => s.Ready node (.varDecl id (some expr) isRef)) fun s h => ?_
      have hscope : ∀ n : Names, n = s.names → n.Has scope := fun n hn => hn ▸ h.2.1
      have hlearns := learner_resolveType (N := fun _ => False) (G := (· = s.names)) hscope expr s
        h.1 rfl
      exact (Returns.triple hlearns).imp fun _ _ hl => hl.ready h.2.2
    exact .bind (.map (hresolve.imp (fun _ h => h) fun _ _ h =>
      ⟨h.2, fun _ => rfl, by simpa using h.1⟩)) hdeclared
  · exact .bind (.pure fun s h => ⟨h.2.2, by simp, by simp⟩) hdeclared

-- ---------------------------------------------------------------------------
-- All steps
-- ---------------------------------------------------------------------------

theorem candid_typeUnlessPoisoned {analyze : Pass TypeId} (h : MakesClean busy P analyze) :
    Candid busy P (typeUnlessPoisoned false node analyze) fun _ _ => True := by
  unfold typeUnlessPoisoned
  exact .ite nofun fun _ => h.bind fun type => .bind (candid_setType fun _ h => h) fun _ =>
    .pure fun _ _ => trivial

theorem candid_plainStep {k : NodeKind} (hk : k.isStep = true) (hi : k.isInferred = false)
    (missing : Pass TypeId) (result : Option TypeId) :
    Candid nobody (fun s => s.Scoped ∧ s.Prepared node k) (plainStep missing node k result false)
      fun _ _ => True := by
  have hend : ∀ {p : Pass Unit}, Candid nobody (fun s => s.Scoped ∧ s.Prepared node k) p
      (fun _ _ => True) → Candid nobody (fun s => s.Scoped ∧ s.Prepared node k) (do
        p
        return node) fun _ _ => True := fun h => h.bind fun _ => .pure fun _ _ => trivial
  have hready : k ≠ .nullValue → ∀ s : Session, s.Scoped ∧ s.Prepared node k → s.Ready node k :=
    fun hne s h => h.2.ready.resolve_left hne
  unfold plainStep
  split
  · have hfacts : Candid nobody (fun s => s.Scoped ∧ s.Prepared node .literal) (factsOf node)
        fun facts _ => facts.type.isSome = true := .reads fun _ => ⟨rfl, fun _ h => h.2.literal rfl⟩
    refine hfacts.bind fun facts => .ite (fun hnone => ?_) fun _ => .pure fun _ _ => trivial
    refine .bind (candid_setType fun s h => ?_) fun _ => .pure fun _ _ => trivial
    simp [Option.isSome_iff_ne_none.mp h] at hnone
  · refine .bind (.onValues _) fun value => .bind (Q := fun _ _ => True) ?_ fun _ =>
      .pure fun _ _ => trivial
    exact .given (candid_setTypeAndValue (fun _ h => h.1.built.clean_unit) _)
  · simp [NodeKind.isStep] at hk
  · exact hend (candid_analyzeSymbol _)
  · exact .ite (by simp) fun _ => candid_analyzeOperator _ _
  · exact .ite (by simp) fun _ => candid_analyzeOperator _ _
  · exact .ite (by simp) fun _ => candid_analyzeCall _
  · simp [NodeKind.isInferred] at hi
  · simp [NodeKind.isInferred] at hi
  · exact candid_typeUnlessPoisoned (candid_analyzeAssign.imp
      (fun s h => ⟨hready (by simp) s h, h.2.place rfl⟩) fun _ _ h => h)
  · exact candid_typeUnlessPoisoned (candid_analyzeRefBind.imp (hready (by simp)) fun _ _ h => h)
  · exact hend (candid_analyzeTuple.imp (fun s h => (hready (by simp) s h).typed) fun _ _ h => h)
  · exact candid_typeUnlessPoisoned (candid_analyzeList.imp
      (fun s h => (hready (by simp) s h).typed) fun _ _ h => h)
  · exact .ite (by simp) fun _ => hend (candid_analyzeIndex.imp (hready (by simp)) fun _ _ h => h)
  · exact .ite (by simp) fun _ => hend (candid_analyzeField.imp (hready (by simp)) fun _ _ h => h)
  · exact hend (candid_analyzeReturn _ _)
  · exact hend (candid_analyzeVarDecl.imp (fun s h => ⟨h.1, hready (by simp) s h⟩) fun _ _ h => h)
  · exact .pure fun _ _ => trivial

end Typing
end BlockLang
