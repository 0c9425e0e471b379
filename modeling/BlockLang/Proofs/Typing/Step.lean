import BlockLang.Proofs.Typing.Notes
import BlockLang.Proofs.Typing.Resolve
import BlockLang.Proofs.Typing.Settles

/-!
# Steps that are only looked at

Every part of inference that leaves the tree alone learns about the node it is given, and
nothing else. In the end the node has a type. What is left are operators, calls and
conversions of their operands.
-/

namespace BlockLang.Typing

open Pass

variable {N : NodeId → Prop} {G : Names → Prop} {node : NodeId}

/-- The pass learns about the node and gives it a type. -/
abbrev Types (N : NodeId → Prop) (G : Names → Prop) (node : NodeId) (p : Pass α) : Prop :=
  Notes N G node (fun facts => facts.type.isSome = true) p

/-- The pass learns about the node, which has no value. -/
abbrev Idles (N : NodeId → Prop) (G : Names → Prop) (node : NodeId) (p : Pass α) : Prop :=
  Notes N G node (·.type = some .unit) p

theorem Idles.types {p : Pass α} (h : Idles N G node p) : Types N G node p :=
  h.mono fun _ ht => by simp [ht]

-- ---------------------------------------------------------------------------
-- Facts
-- ---------------------------------------------------------------------------

theorem notes_setType (hn : N node) (type : TypeId) :
    Notes N G node (·.type = some type) (setType node type) := .annotate hn fun _ => rfl

theorem types_setType (hn : N node) (type : TypeId) : Types N G node (setType node type) :=
  .annotate hn fun _ => rfl

theorem types_setTypeAndValue (hn : N node) (type : TypeId) (value : Option ValueId) :
    Types N G node (setTypeAndValue node type value) := .annotate hn fun _ => rfl

theorem learner_typeOf (node : NodeId) : Learner N G (typeOf node) := .reads fun _ => rfl
theorem learner_valueOf? (node : NodeId) : Learner N G (valueOf? node) := .reads fun _ => rfl
theorem learner_containsError (type : TypeId) : Learner N G (containsError type) :=
  .reads fun _ => rfl
theorem learner_converts (a b : TypeId) : Learner N G (converts a b) := .reads fun _ => rfl
theorem learner_display (type : TypeId) : Learner N G (display type) := .reads fun _ => rfl

theorem learner_mismatch (node : NodeId) (expected received : TypeId) :
    Learner N G (mismatch node expected received) :=
  (learner_display _).bind fun _ => (learner_display _).bind fun _ => .reportAt _ _

theorem learner_duplicate (value : ValueId) : Learner N G (duplicate value) := .onValues _

theorem learner_valuesOf? (nodes : List NodeId) : Learner N G (valuesOf? nodes) := by
  refine Learner.tree.bind fun tree => ?_
  split
  · exact .pure _
  · exact (Learner.mapM learner_duplicate _).bind fun _ => .pure _

theorem learner_elementOf? (base : NodeId) (index : Nat) : Learner N G (elementOf? base index) := by
  refine (learner_valueOf? base).bind fun value => ?_
  split
  · exact .pure _
  · exact .onValues? _

-- ---------------------------------------------------------------------------
-- Signatures and overloads
-- ---------------------------------------------------------------------------

theorem learner_functionSignature (id : DeclId) : Learner N G (functionSignature id) := by
  refine .ofDecl fun d => ?_
  dsimp only
  split
  · exact .pure _
  split
  · exact .pure _
  split
  · rename_i params result scope hk
    have hscope : ∀ n : Names, ((∀ params result scope,
        d.kind = .function params result scope → n.Has scope) ∧ G n) → n.Has scope :=
      fun n h => h.1 params result scope hk
    refine .bind (.modifyDecl _ fun _ => rfl) fun _ => .bind (.mapM (fun param => ?_) params)
      fun arguments => ?_
    · exact .bind (learner_resolveType hscope _) fun _ =>
        .bind (.modifyDecl _ fun _ => rfl) fun _ => .pure _
    · have hrest : ∀ result, Learner N (fun n : Names => (∀ params result scope,
          d.kind = .function params result scope → n.Has scope) ∧ G n) (do
            let arguments ← makeType (·.makePlainTuple arguments)
            let signature ← makeType (·.makeFunc arguments result)
            modifyDecl id ({ · with resolving := false, type := some signature, ready := true })
            return signature) := fun result =>
        .bind (.makeType _) fun _ => .bind (.makeType _) fun _ =>
          .bind (.modifyDecl _ fun _ => rfl) fun _ => .pure _
      split
      · exact .bind (learner_resolveType hscope _) hrest
      · exact .bind (.pure _) hrest
  · exact .pure _

theorem learner_resultOf (signature : TypeId) : Learner N G (resultOf signature) :=
  .reads fun _ => rfl

theorem learner_callableSignature? (id : DeclId) : Learner N G (callableSignature? id) := by
  refine .bind (.declOf id) fun d => ?_
  split
  · exact .bind (learner_functionSignature id) fun _ => .pure _
  · exact .pure _
  · exact .bind .types fun _ => .pure _
  · exact .bind .types fun _ => .pure _

theorem learner_candidate? (arguments : TypeId) (id : DeclId) :
    Learner N G (candidate? arguments id) := by
  refine .bind (learner_callableSignature? id) fun signature => ?_
  split
  · exact .pure _
  · exact .bind .types fun _ => .pure _

theorem learner_resolveOverload {scope : ScopeId} (hs : ∀ n, G n → n.Has scope) (name : String)
    (arguments : TypeId) : Learner N G (resolveOverload scope name arguments) :=
  .bind (.findVars hs name) fun found => .bind (.mapM (learner_candidate? arguments) found)
    fun _ => .pure _

theorem learner_argumentTuple (node : NodeId) : Learner N G (argumentTuple node) :=
  .bind (.childrenOf node) fun _ => .bind (.mapM learner_typeOf _) fun _ => .makeType _

theorem learner_isExactMatch (resolution : Resolution) (arguments : TypeId) :
    Learner N G (isExactMatch resolution arguments) := by
  unfold isExactMatch
  split
  · exact .bind .types fun _ => .pure _
  · exact .pure _

theorem learner_reportAmbiguity (node : NodeId) (name : String) (tied : List DeclId) :
    Learner N G (reportAmbiguity node name tied) :=
  .bind (.mapM (fun id => .bind (.declOf id) fun _ => .pure _) tied) fun _ =>
    .bind (.startOf node) fun _ => .report _

theorem notes_reportNoMatch (hn : N node) (name : String) (arguments : TypeId) :
    Notes N G node (·.type = some .error) (reportNoMatch node name arguments) :=
  .after (learner_display _) fun _ => .after (.reportAt _ _) fun _ =>
    (notes_setType hn _).before fun _ => .pure _

-- ---------------------------------------------------------------------------
-- Values
-- ---------------------------------------------------------------------------

/-- Only the value of the call is new. -/
theorem returns_foldCall (s : Session) (op : Builtin) :
    Returns (foldCall node op) s fun _ s' => Learns (· = node) s s' ∧
      (s'.tree.facts node).type = (s.tree.facts node).type ∧
      (s'.tree.facts node).binding = (s.tree.facts node).binding := by
  unfold foldCall
  simp only [triple_bind, triple_tree]
  split
  · exact ⟨.refl s, rfl, rfl⟩
  · simp only [typeOf, triple_bind, triple_factsOf, triple_pure, triple_get]
    split
    · next value heap _ =>
      simp only [triple_bind, triple_modify, triple_annotate]
      have hvalues : Learns (· = node) s { s with values := heap } :=
        .of_tree rfl rfl rfl (List.prefix_refl _)
      refine ⟨hvalues.trans (learns_annotate (N := (· = node)) rfl _), ?_⟩
      by_cases hlt : node.index < s.tree.size
      · simp [Arena.facts_annotate_self hlt]
      · rw [Arena.facts_congr (Arena.label_annotate_of_not_lt hlt _)]
        exact ⟨rfl, rfl⟩
    · simp only [triple_bind, triple_startOf, triple_report]
      exact ⟨.of_tree rfl rfl rfl (List.prefix_append _ _), trivial, trivial⟩
    · exact ⟨.refl s, rfl, rfl⟩

theorem notes_annotateCast {cast : NodeId} (hn : N cast) (operand : NodeId) (target : Primitive) :
    Notes N G cast (·.type = some target.typeId) (annotateCast cast operand target) := by
  have hset : ∀ value, Notes N G cast (·.type = some target.typeId)
      (setTypeAndValue cast target.typeId value) := fun _ => .annotate hn fun _ => rfl
  refine .after (learner_valueOf? operand) fun value => ?_
  dsimp only
  split
  · exact .after (.pure _) hset
  · exact .after (.onValues? _) hset

/-- A name is wrong, or it is bound to what it means. -/
theorem notes_analyzeSymbol (hn : N node) (name : String) :
    Notes N G node (·.Cover (.symbol name)) (analyzeSymbol node name) := by
  have herror : ∀ {G : Names → Prop},
      Notes N G node (·.Cover (.symbol name)) (setType node .error) :=
    (notes_setType hn _).mono fun _ => .of_error
  refine .scopeOf fun scope => .after (.findVars (fun _ h => h.1) name) fun found => ?_
  split
  · exact .after (.reportAt _ _) fun _ => herror
  · rename_i id others
    refine .after (.declOf id) fun d => .ite ?_ (.ite ?_ ?_)
    · refine .after (.filterM (fun other => .bind (.declOf other) fun _ => .pure _) _)
        fun callables => ?_
      have hrest : Notes N (fun n => n.Has scope ∧ G n) node (·.Cover (.symbol name)) (do
          let type := (← callableSignature? id).getD .error
          let value ← onValues (·.alloc (.function id type))
          annotate node fun _ => ⟨some type, some value, false, some (d.binding id)⟩) :=
        .after (learner_callableSignature? id) fun _ => .after (.onValues _) fun _ =>
          .annotate hn fun _ => .of_binding rfl rfl
      exact .ite (.after (learner_reportAmbiguity _ _ _) fun _ => hrest) hrest
    · exact .after (.reportAt _ _) fun _ => herror
    · dsimp only
      split
      · exact .after (learner_duplicate _).map fun _ => .annotate hn fun _ => .of_binding rfl rfl
      · exact .after (.pure _) fun _ => .annotate hn fun _ => .of_binding rfl rfl

-- ---------------------------------------------------------------------------
-- Stores, sequences and their parts
-- ---------------------------------------------------------------------------

theorem learner_isImmutable (node : NodeId) : Learner N G (isImmutable node) := by
  refine .bind (.factsOf node) fun facts => ?_
  split
  · exact .bind (.declOf _) fun _ => .pure _
  · exact .pure _
  · exact .pure _

theorem learner_analyzeAssign (node : NodeId) : Learner N G (analyzeAssign node) := by
  refine .bind (.childrenOf node) fun operands => ?_
  split
  · refine .bind (.factsOf _) fun facts => .ite (.pure _)
      (.bind (learner_isImmutable _) fun immutable => .ite ?_ ?_)
    · exact .bind (.reportAt _ _) fun _ => .pure _
    · refine .bind .types fun types => .bind (learner_typeOf _) fun target =>
        .bind (learner_typeOf _) fun received => .bind (learner_converts _ _) fun fits =>
        .ite (.pure _) ?_
      exact .bind (learner_mismatch _ _ _) fun _ => .pure _
  · exact .pure _

theorem learner_referentName (node : NodeId) : Learner N G (referentName node) := by
  refine .bind (.factsOf node) fun facts => ?_
  split
  · exact .bind (.declOf _) fun _ => .pure _
  · exact .pure _

theorem learner_analyzeRefBind (node : NodeId) : Learner N G (analyzeRefBind node) := by
  refine .bind (.childrenOf node) fun operands => ?_
  split
  · refine .bind (learner_typeOf _) fun expected => .bind .types fun types => .ite ?_ ?_
    · refine .bind (learner_typeOf _) fun type => .bind (.makeType _) fun received =>
        .bind (learner_converts _ _) fun fits => .ite (.pure _) ?_
      exact .bind (learner_mismatch _ _ _) fun _ => .pure _
    · exact .bind (learner_referentName _) fun _ => .bind (.reportAt _ _) fun _ => .pure _
  · exact .pure _

theorem learner_sequenceOf? (type : TypeId) (elements : List NodeId) :
    Learner N G (sequenceOf? type elements) := by
  refine .bind (learner_valuesOf? elements) fun values => ?_
  split
  · exact .pure _
  · exact (Learner.onValues _).map

theorem types_analyzeTuple (hn : N node) (names : List (Option String)) :
    Types N G node (analyzeTuple node names) :=
  .after (.childrenOf node) fun _ =>
    .after (.mapM (fun _ => .bind (learner_typeOf _) fun _ => .pure _) _) fun _ =>
    .after (.makeType _) fun _ => .after (learner_sequenceOf? _ _) fun _ =>
    types_setTypeAndValue hn _ _

theorem learner_firstMisfit? (expected : TypeId) (elements : List NodeId) :
    Learner N G (firstMisfit? expected elements) := by
  induction elements with
  | nil => exact .pure _
  | cons element elements ih =>
    exact .bind (learner_typeOf element) fun _ => .bind (learner_converts _ _) fun _ =>
      .ite ih (.pure _)

theorem learner_analyzeList (hn : N node) : Learner N G (analyzeList node) := by
  refine .bind (.childrenOf node) fun elements => ?_
  split
  · exact .makeType _
  · refine .bind (learner_typeOf _) fun expected => ?_
    refine .bind (learner_firstMisfit? _ _) fun misfit => ?_
    split
    · exact .bind (learner_typeOf _) fun _ => .bind (learner_mismatch _ _ _) fun _ => .pure _
    · exact .bind (.makeType _) fun _ => .bind (learner_sequenceOf? _ _) fun _ =>
        .bind (.annotate hn _) fun _ => .pure _

theorem types_reportOutOfBounds (hn : N node) (index : Int64) (length : UInt64) :
    Types N G node (reportOutOfBounds node index length) :=
  .after (.reportAt _ _) fun _ => types_setType hn _

theorem types_reportNotIndexable (hn : N node) (place : NodeId) (type : TypeId) :
    Types N G node (reportNotIndexable node place type) :=
  .after (learner_display _) fun _ => .after (.reportAt _ _) fun _ => types_setType hn _

theorem learner_constantIndex? (node : NodeId) : Learner N G (constantIndex? node) := by
  refine .bind (learner_valueOf? node) fun value => ?_
  split
  · exact .pure _
  · exact .bind .get fun _ => .pure _

theorem types_indexList (hn : N node) (base index : NodeId) (element : TypeId)
    (length : Option UInt64) : Types N G node (indexList node base index element length) := by
  refine .after (learner_typeOf index) fun type => .after .types fun types => .ite ?_ ?_
  · exact .after (learner_mismatch _ _ _) fun _ => types_setType hn _
  · refine .after (learner_constantIndex? index) fun i => ?_
    split
    · exact types_setTypeAndValue hn _ _
    · exact .ite (types_reportOutOfBounds hn _ _)
        (.after (learner_elementOf? _ _) fun _ => types_setTypeAndValue hn _ _)

theorem types_indexTuple (hn : N node) (base index : NodeId) (fields : List TypeField) :
    Types N G node (indexTuple node base index fields) := by
  refine .after (learner_constantIndex? index) fun i => ?_
  split
  · exact .after (learner_typeOf _) fun _ => types_reportNotIndexable hn _ _
  · split
    · exact types_reportOutOfBounds hn _ _
    · exact .after (learner_elementOf? _ _) fun _ => types_setTypeAndValue hn _ _

theorem types_analyzeIndex (hn : N node) : Types N G node (analyzeIndex node) := by
  refine .after (.childrenOf node) fun operands => ?_
  split
  · refine .after .types fun types => .after (learner_typeOf _) fun type => ?_
    split
    · exact types_indexList hn _ _ _ _
    · exact types_indexTuple hn _ _ _
    · exact .after (learner_typeOf _) fun _ => types_reportNotIndexable hn _ _
  · exact types_setType hn _

theorem types_analyzeField (hn : N node) (name : String) :
    Types N G node (analyzeField node name) := by
  refine .after (.child? node 0) fun base => ?_
  split
  · exact types_setType hn _
  · refine .after (learner_typeOf _) fun type => .after .types fun types => ?_
    dsimp only
    split
    · exact .after (learner_elementOf? _ _) fun _ => types_setTypeAndValue hn _ _
    · exact .after (learner_display _) fun _ => .after (.reportAt _ _) fun _ => types_setType hn _

-- ---------------------------------------------------------------------------
-- Statements
-- ---------------------------------------------------------------------------

theorem types_annotateContainer (hn : N node) : Types N G node (annotateContainer node) := by
  refine .after (.childrenOf node) fun children => ?_
  split
  · exact .annotate hn fun _ => rfl
  · exact .after (.factsOf _) fun _ => .annotate hn fun _ => rfl

theorem learner_checkCondition (condition : NodeId) : Learner N G (checkCondition condition) :=
  .bind (learner_typeOf condition) fun _ => .bind (learner_containsError _) fun _ =>
    .ite (.pure _) (.bind (learner_converts _ _) fun _ => .ite (learner_mismatch _ _ _) (.pure _))

theorem learner_constantCondition? (condition : NodeId) :
    Learner N G (constantCondition? condition) := by
  refine .bind .get fun s => .bind (learner_valueOf? condition) fun value => ?_
  split
  · exact .pure _
  · exact .bind (.startOf _) fun _ => .bind (.report _) fun _ => .pure _

theorem learner_producesValue (node : NodeId) : Learner N G (producesValue node) :=
  .reads fun _ => rfl

theorem learner_joinArms (node : NodeId) (first second : TypeId) :
    Learner N G (joinArms node first second) := by
  refine .bind (learner_containsError _) fun _ => .bind (learner_containsError _) fun _ =>
    .ite (.pure _) (.bind (learner_converts _ _) fun _ => .ite (.pure _)
      (.bind (learner_converts _ _) fun _ => .ite (.pure _) ?_))
  exact .bind (learner_mismatch _ _ _) fun _ => .pure _

theorem types_analyzeTypeDecl (hn : N node) (name : String) :
    Types N G node (analyzeTypeDecl node name) := by
  refine .scopeOf fun scope => .after (.findType? (fun _ h => h.1) name) fun found => ?_
  dsimp only
  split
  · exact .after (.startOf node) fun _ => .after (learner_resolveTypeDef _ _) fun _ =>
      types_setType hn _
  · exact types_setType hn _

theorem idles_analyzeReturn (hn : N node) (result : Option TypeId) (poisoned : Bool) :
    Idles N G node (analyzeReturn node result poisoned) := by
  refine (notes_setType hn _).before fun _ => ?_
  split
  · exact .reportAt _ _
  · refine .bind (learner_containsError _) fun wrong => .ite (.pure _)
      (.bind (.child? node 0) fun value => ?_)
    dsimp only
    split
    · exact .bind (learner_typeOf _) fun _ => .bind (learner_converts _ _) fun _ =>
        .ite (learner_mismatch _ _ _) (.pure _)
    · exact .bind (.pure _) fun _ => .bind (learner_converts _ _) fun _ =>
        .ite (learner_mismatch _ _ _) (.pure _)

theorem learner_joinDeclared (node : NodeId) (declared initial : Option TypeId) :
    Learner N G (joinDeclared node declared initial) := by
  unfold joinDeclared
  split
  · refine .bind (learner_containsError _) fun _ => .bind (learner_containsError _) fun _ =>
      .bind (learner_converts _ _) fun _ => .ite ?_ (.pure _)
    exact .bind (learner_mismatch _ _ _) fun _ => .pure _
  · exact .pure _
  · exact .pure _
  · exact .pure _

theorem learner_referenceTo (type : Option TypeId) (keepReference : Bool) :
    Learner N G (referenceTo type keepReference) := by
  unfold referenceTo
  split
  · exact .pure _
  · exact .bind .types fun _ => .ite (.pure _) (Learner.makeType _).map

theorem learner_constantOfType (value : ValueId) (type : TypeId) :
    Learner N G (constantOfType value type) := by
  refine .bind .get fun s => .ite (learner_duplicate _).map (.bind .types fun types => ?_)
  split
  · exact .onValues? _
  · exact (Learner.onValues _).map

theorem idles_analyzeVarDecl (hn : N node) (id : DeclId) (declared : Option TypeExpr)
    (isRef : Bool) : Idles N G node (analyzeVarDecl node id declared isRef) := by
  refine .scopeOf fun scope => ?_
  extract_lets afterDeclared
  -- each part of the declaration that may be missing is followed by the same rest
  have hdeclared : ∀ declared,
      Idles N (fun n => n.Has scope ∧ G n) node (afterDeclared declared) := by
    intro declared
    refine .after (.child? node 0) fun initializer => ?_
    extract_lets afterType afterInitial
    have htype : ∀ type, Idles N (fun n => n.Has scope ∧ G n) node (afterType type) := by
      intro type
      unfold afterType
      extract_lets afterValue afterConstant
      have hvalue : ∀ value, Idles N (fun n => n.Has scope ∧ G n) node (afterValue value) :=
        fun value => .after (.modifyDecl _ fun _ => rfl) fun _ => notes_setType hn _
      have hconstant : ∀ constant,
          Idles N (fun n => n.Has scope ∧ G n) node (afterConstant constant) := by
        intro constant
        unfold afterConstant
        split
        · exact .after (learner_constantOfType _ _) hvalue
        · exact .after (.pure _) hvalue
      clear_value afterConstant
      split
      · exact .after (.declOf id) fun _ => .ite (.after (learner_valueOf? _) hconstant)
          (.after (.pure _) hconstant)
      · exact .after (.pure _) hconstant
    have hinitial : ∀ initial,
        Idles N (fun n => n.Has scope ∧ G n) node (afterInitial initial) :=
      fun initial => .ite
        (.after (learner_referenceTo _ _) fun _ => .after (learner_referenceTo _ _) fun _ =>
          .after (learner_joinDeclared _ _ _) htype)
        (.after (learner_joinDeclared _ _ _) htype)
    clear_value afterInitial
    split
    · exact .after (learner_typeOf _).map hinitial
    · exact .after (.pure _) hinitial
  clear_value afterDeclared
  split
  · exact .after (learner_resolveType (fun _ h => h.1) _).map hdeclared
  · exact .after (.pure _) hdeclared

theorem learner_isPoisoned (node : NodeId) : Learner N G (isPoisoned node) :=
  .bind .types fun _ => .bind (.childrenOf node) fun _ => .bind (.mapM learner_typeOf _) fun _ =>
    .pure _

theorem types_unlessPoisoned (hn : N node) (poisoned : Bool) {analyze : Pass NodeId}
    (h : Types N G node analyze) : Types N G node (unlessPoisoned poisoned node analyze) :=
  .ite ((types_setType hn _).before fun _ => .pure _) h

theorem types_typeUnlessPoisoned (hn : N node) (poisoned : Bool) {analyze : Pass TypeId}
    (h : Learner N G analyze) : Types N G node (typeUnlessPoisoned poisoned node analyze) := by
  have hend : ∀ type, Types N G node (do
      setType node type
      return node) := fun type => (types_setType hn type).before fun _ => .pure _
  unfold typeUnlessPoisoned
  exact .ite (.after (.pure _) hend) (.after h hend)

/-- A literal that has no type is wrong. -/
theorem types_literal (hn : N node) : Types N G node (do
    if (← factsOf node).type.isNone then setType node .error
    return node) := by
  intro s hs hg
  simp only [triple_bind, triple_factsOf]
  split
  · refine (types_setType hn _ s hs hg).imp fun _ s' h => h
  · next htyped => exact ⟨.refl s, fun _ => by simpa [Option.isSome_iff_ne_none] using htyped⟩

/-- Every step that is there before inference and is no operation is taken note of. -/
theorem notes_plainStep (hn : N node) {kind : NodeKind} (hs : kind.isStep = true)
    (hk : kind.isOperation = false) (hi : kind.isInferred = false) (missing : Pass TypeId)
    (result : Option TypeId) (poisoned : Bool) :
    Notes N G node (·.Cover kind) (plainStep missing node kind result poisoned) := by
  have htypes : ∀ {p : Pass NodeId}, Types N G node p → kind.isUse = false →
      Notes N G node (·.Cover kind) p := fun h hu => h.mono fun _ ht => .of_type ht hu
  unfold plainStep
  split
  · exact htypes (types_literal hn) rfl
  · exact htypes (.after (.onValues _) fun _ =>
      (types_setTypeAndValue hn _ _).before fun _ => .pure _) rfl
  · simp [NodeKind.isStep] at hs
  · exact (notes_analyzeSymbol hn _).before fun _ => .pure _
  · simp [NodeKind.isOperation] at hk
  · simp [NodeKind.isOperation] at hk
  · simp [NodeKind.isOperation] at hk
  · simp [NodeKind.isInferred] at hi
  · simp [NodeKind.isInferred] at hi
  · exact htypes (types_typeUnlessPoisoned hn _ (learner_analyzeAssign _)) rfl
  · exact htypes (types_typeUnlessPoisoned hn _ (learner_analyzeRefBind _)) rfl
  · exact htypes ((types_analyzeTuple hn _).before fun _ => .pure _) rfl
  · exact htypes (types_typeUnlessPoisoned hn _ (learner_analyzeList hn)) rfl
  · exact htypes (types_unlessPoisoned hn _ ((types_analyzeIndex hn).before fun _ => .pure _)) rfl
  · exact htypes (types_unlessPoisoned hn _ ((types_analyzeField hn _).before fun _ => .pure _)) rfl
  · exact htypes ((idles_analyzeReturn hn _ _).types.before fun _ => .pure _) rfl
  · exact htypes ((idles_analyzeVarDecl hn _ _ _).types.before fun _ => .pure _) rfl
  · cases kind <;> simp_all [NodeKind.isStep, NodeKind.isExpression]

theorem gives_unlessPoisoned (poisoned : Bool) {analyze : Pass NodeId} (h : Gives analyze node) :
    Gives (unlessPoisoned poisoned node analyze) node :=
  .ite (.bind fun _ => .pure _) h

theorem gives_typeUnlessPoisoned (poisoned : Bool) (analyze : Pass TypeId) :
    Gives (typeUnlessPoisoned poisoned node analyze) node := by
  unfold typeUnlessPoisoned
  exact .ite (.bind fun _ => .bind fun _ => .pure _) (.bind fun _ => .bind fun _ => .pure _)

/-- A step that is no operation keeps its place. -/
theorem gives_plainStep {kind : NodeKind} (hk : kind.isOperation = false) (missing : Pass TypeId)
    (result : Option TypeId) (poisoned : Bool) :
    Gives (plainStep missing node kind result poisoned) node := by
  unfold plainStep
  split
  · exact .bind fun _ => .ite (.bind fun _ => .pure _) (.pure _)
  · exact .bind fun _ => .bind fun _ => .pure _
  · exact .bind fun _ => .pure _
  · exact .bind fun _ => .pure _
  · exact absurd hk (by simp [NodeKind.isOperation])
  · exact absurd hk (by simp [NodeKind.isOperation])
  · exact absurd hk (by simp [NodeKind.isOperation])
  · exact .bind fun _ => .pure _
  · exact .bind fun _ => .pure _
  · exact gives_typeUnlessPoisoned _ _
  · exact gives_typeUnlessPoisoned _ _
  · exact .bind fun _ => .pure _
  · exact gives_typeUnlessPoisoned _ _
  · exact gives_unlessPoisoned _ (.bind fun _ => .pure _)
  · exact gives_unlessPoisoned _ (.bind fun _ => .pure _)
  · exact .bind fun _ => .pure _
  · exact .bind fun _ => .pure _
  · exact .pure _

end BlockLang.Typing
