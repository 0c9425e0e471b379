import BlockLang.Proofs.Lowered.Definition
import BlockLang.Proofs.Session.Equipped
import BlockLang.Proofs.Types.Wrong
import BlockLang.Proofs.Typing.Promotion
import BlockLang.Proofs.Typing.Statement
import BlockLang.Proofs.Value.Conversion

/-!
# Computing the definition of a number

The steps that the definition of a number is lowered to are computed one after another. Each sign
becomes a call of the built-in, with the value of the step before negated, and the declaration
gets what the last step has (`returns_analyze_definition`).
-/

namespace BlockLang

open BlockLang.Tree (idsOf)
open BlockLang.Frame (plug)

namespace Heap

variable {h k : Heap} {v : ValueId} {n : Int64}

/-- The value is the number `n` with 64 bits. -/
def HoldsInt (h : Heap) (v : ValueId) (n : Int64) : Prop :=
  h.cell v = .scalar Primitive.int64.typeId .int64 ((Scalar.int n).encode .int64)

theorem HoldsInt.grows (hv : h.HoldsInt v n) (hg : h.Grows k) : k.HoldsInt v n := by
  have hcell : h.cell v = _ := hv
  exact (hg.cell v (has_of_cell_ne (by simp [hcell]))).trans hv

theorem holdsInt_ofScalar (h : Heap) (n : Int64) :
    (h.ofScalar Primitive.int64.typeId .int64 (.int n)).2.HoldsInt
      (h.ofScalar Primitive.int64.typeId .int64 (.int n)).1 n :=
  cell_alloc_self h _

theorem HoldsInt.duplicate (hv : h.HoldsInt v n) :
    (h.duplicate v).2.HoldsInt (h.duplicate v).1 n ∧ h.Grows (h.duplicate v).2 := by
  have hcell : h.cell v = _ := hv
  simp only [Heap.duplicate, duplicateWithin, hcell]
  exact ⟨cell_alloc_self h _, grows_alloc h _⟩

theorem HoldsInt.type? (hv : h.HoldsInt v n) : h.type? v = some Primitive.int64.typeId := by
  have hcell : h.cell v = _ := hv
  simp only [Heap.type?, hcell]

theorem HoldsInt.scalar? (hv : h.HoldsInt v n) : h.scalar? v = some (.int n) := by
  have hcell : h.cell v = _ := hv
  have hholds : Primitive.int64.Holds n :=
    ⟨Int64.le_toInt n, Int64.toInt_lt n, Int.ModEq.refl _⟩
  simp only [Heap.scalar?, hcell,
    Scalar.decode_encode_int (show Primitive.int64.isInteger from rfl)]
  exact congrArg (some ∘ Scalar.int) hholds.wrap_eq

theorem HoldsInt.fold_neg (hv : h.HoldsInt v n) :
    h.fold ⟨.unary .neg, .int64⟩ Primitive.int64.typeId [v] =
      .value (h.ofScalar Primitive.int64.typeId .int64 (.int (-n))) := by
  have hscalars : [v].mapM h.scalar? = some [.int n] := by simp [hv.scalar?]
  rw [fold, hscalars]
  rfl

end Heap

namespace Session

variable {s : Session} {id : DeclId}

theorem decl_modifyDecl_self (h : id.index < s.decls.size) (f : Decl → Decl) :
    (s.modifyDecl id f).decl id = f (s.decl id) := by
  simp only [decl, modifyDecl, Array.getElem?_modify, if_true, Array.getElem?_eq_getElem h,
    Option.map_some, Option.getD_some]

theorem lt_size_of_isConst (h : (s.decl id).isConst = true) : id.index < s.decls.size := by
  by_contra hge
  simp only [decl, Array.getElem?_eq_none (Nat.not_lt.mp hge)] at h
  cases h

end Session

theorem TypeTable.Built.containsError_typeId {t : TypeTable} (h : t.Built) (p : Primitive) :
    t.containsError p.typeId = false := by
  refine Bool.eq_false_iff.mpr fun herror => ?_
  rcases (containsErrorWithin_succ t _ _).mp herror with hk | ⟨part, hp, -⟩
  · simp [h.kind_typeId] at hk
  · simp [h.kind_typeId, TypeKind.inner, TypeKind.parts] at hp

/-- The node has a number with 64 bits for a value. -/
structure Known (s : Session) (id : NodeId) (n : Int64) : Prop where
  type : (s.tree.facts id).type = some Primitive.int64.typeId
  value : ∃ v, (s.tree.facts id).value = some v ∧ s.values.HoldsInt v n

theorem Known.lt_size {s : Session} {id : NodeId} {n : Int64} (h : Known s id n) :
    id.index < s.tree.size := by
  by_contra hge
  have hnone : s.tree.nodes[id.index]? = none := Table.getElem?_eq_none (Nat.not_lt.mp hge)
  have htype := h.type
  simp only [Arena.facts, Arena.get, hnone] at htype
  cases htype

/-- Nothing is touched but the nodes `N`. Types and values have come new. -/
structure Evaluates (N : NodeId → Prop) (s s' : Session) : Prop where
  proceeds : Proceeds N s s'
  types : s.types.Extends s'.types
  built : s.types.Built → s'.types.Built
  values : s.values.Grows s'.values
  rest : s' = { s with
    tree := s'.tree, temps := s'.temps, types := s'.types, values := s'.values }

section
variable {N M : NodeId → Prop} {s s' s'' : Session} {id : NodeId} {n : Int64}

theorem Evaluates.trans (h : Evaluates N s s') (h' : Evaluates M s' s'')
    (hm : ∀ id, M id → N id ∨ s.tree.size ≤ id.index) : Evaluates N s s'' := by
  refine ⟨h.proceeds.trans h'.proceeds hm, h.types.trans h'.types, fun hb => h'.built (h.built hb),
    h.values.trans h'.values, ?_⟩
  rw [h'.rest, h.rest]

theorem Evaluates.mono (h : Evaluates N s s') (hm : ∀ id, N id → M id) : Evaluates M s s' :=
  ⟨h.proceeds.mono hm, h.types, h.built, h.values, h.rest⟩

theorem Evaluates.equipped (h : Evaluates N s s') (hs : s.Equipped) : s'.Equipped := by
  refine ⟨h.proceeds.scoped hs.inScope, h.built hs.types, ?_⟩
  have hb := hs.builtins
  refine hb.congr ?_ ?_ ?_ h.types <;> rw [h.rest]

/-- A node is annotated, with a new value for instance. -/
theorem evaluates_annotate (s : Session) (id : NodeId) {values : Heap}
    (hg : s.values.Grows values) (f : Facts → Facts) :
    Evaluates (· = id) s { s with tree := s.tree.annotate id f, values } ∧
      ∀ ts, s.tree.Forest ts → (s.tree.annotate id f).Forest ts := by
  have hvalues : Learns (· = id) s { s with values } := .of_tree rfl rfl rfl (List.prefix_refl _)
  have hl := hvalues.trans (learns_annotate (N := (· = id)) rfl f)
  exact ⟨⟨hl.proceeds, .refl _, fun h => h, hg, rfl⟩, fun ts hf => hl.forest hf⟩

theorem Known.evaluates (h : Known s id n) (he : Evaluates N s s') (hid : ¬ N id) :
    Known s' id n := by
  have hfacts := he.proceeds.facts h.lt_size hid
  obtain ⟨v, hv, hholds⟩ := h.value
  exact ⟨hfacts ▸ h.type, v, hfacts ▸ hv, hholds.grows he.values⟩

end

-- ---------------------------------------------------------------------------
-- Passes that work on nodes
-- ---------------------------------------------------------------------------

/-- If the pass returns, it has worked on nodes and temporaries only. -/
def Rewires (p : Pass α) : Prop :=
  ∀ s, IfReturns p s fun _ s' => s' = { s with tree := s'.tree, temps := s'.temps }

namespace Rewires

open Pass

theorem bind {p : Pass α} {f : α → Pass β} (hp : Rewires p) (hf : ∀ a, Rewires (f a)) :
    Rewires (p >>= f) := by
  intro s
  refine triple_bind.mpr ((hp s).imp fun a s₁ h => (hf a s₁).imp fun _ s₂ h' => ?_)
  rw [h', h]

theorem tryTree (f : Arena → Except Fault Arena) : Rewires (Pass.tryTree f) := by
  intro s
  refine triple_tryTree.mpr ?_
  split
  · rfl
  · trivial

theorem addNode (kind : NodeKind) (span : Span) (scope : ScopeId) (children : List NodeId) :
    Rewires (Pass.addNode kind span scope children) :=
  .bind (fun _ => rfl) fun _ => .bind (fun _ => rfl) fun _ => .bind (.tryTree _) fun _ _ => rfl

theorem placeCall (user : NodeId) (op : Builtin) (result : TypeId) :
    Rewires (Typing.placeCall user op result) :=
  .bind (fun _ => rfl) fun _ => .bind (fun _ => rfl) fun _ => .bind (fun _ => rfl) fun _ =>
    .bind (.addNode _ _ _ _) fun _ => .bind (.bind (.tryTree _) fun _ _ => rfl) fun _ =>
    .bind (fun _ => rfl) fun _ _ => rfl

end Rewires

/-- What a step has become sets the temporaries that the step has set. -/
theorem Carries.moved {s s' : Session} {N : NodeId → Prop} {decl : DeclId}
    {p p' : NodeId} {count : Nat} {ts : List Tree} (h : Carries s.temps decl p count ts)
    (hh : Hands s s' {p} {p'}) (hp : Proceeds N s s') (hids : ∀ id ∈ idsOf ts, Spared N s id) :
    Carries s'.temps decl p' count ts := by
  induction h generalizing p' with
  | define set =>
    obtain ⟨q, hset, rfl⟩ := hh _ _ set rfl
    exact .define hset
  | @neg p i count ts j temp set _ ih =>
    obtain ⟨q, hset, rfl⟩ := hh _ _ set rfl
    have hself : Hands s s' {i} {i} := hp.hands fun q hq => hids q (by simp_all)
    exact .neg hset (ih hself fun id hid => hids id (by simp [hid]))

namespace Typing

open Pass

variable {s s' : Session} {f : Frame} {fs : List Frame} {us : List Tree} {i j p : NodeId}
  {temp : TempId} {n : Int64}

-- ---------------------------------------------------------------------------
-- Operands
-- ---------------------------------------------------------------------------

theorem triple_typeOf_known (h : Known s j n) {Q : TypeId → Session → Prop}
    {E : Fault → Session → Prop} :
    Triple (typeOf j) s Q E ↔ Q Primitive.int64.typeId s := by
  simp only [typeOf, triple_bind, triple_factsOf, triple_pure, h.type, Option.getD_some]

/-- A temporary gets a copy of the number that its producer has. -/
theorem returns_copyKnown (hset : s.temps[temp.index]? = some p) (hp : Known s p n)
    (hj : j.index < s.tree.size) (missing : Pass TypeId) :
    Returns (copyProducer missing j temp) s fun _ s' => Known s' j n ∧ Evaluates (· = j) s s' ∧
      s'.temps = s.temps ∧ ∀ ts, s.tree.Forest ts → s'.tree.Forest ts := by
  obtain ⟨v, hv, hholds⟩ := hp.value
  obtain ⟨hcopy, hgrown⟩ := hholds.duplicate
  unfold copyProducer
  simp only [Returns, triple_bind, triple_get, triple_factsOf, hset, Option.getD_some, hp.type, hv,
    triple_pure, triple_map, Typing.duplicate, triple_onValues, triple_annotate]
  obtain ⟨he, hforest⟩ := evaluates_annotate s j hgrown fun _ =>
    { s.tree.facts p with
      type := some Primitive.int64.typeId, value := some (s.values.duplicate v).1 }
  refine ⟨⟨?_, _, ?_, hcopy⟩, he, trivial, hforest⟩ <;> rw [Arena.facts_annotate_self hj]

/-- What stands for a number is not wrong. -/
theorem triple_isPoisoned_known (ht : s.types.Built) (hc : s.tree.children i = [j])
    (hj : Known s j n) {Q : Bool → Session → Prop} {E : Fault → Session → Prop} :
    Triple (isPoisoned i) s Q E ↔ Q false s := by
  simp only [isPoisoned, triple_bind, triple_types, triple_childrenOf, hc, triple_mapM_cons,
    triple_typeOf_known hj, triple_mapM_nil, triple_pure, List.any_cons, List.any_nil,
    ht.containsError_typeId, Bool.or_false]

-- ---------------------------------------------------------------------------
-- Signs
-- ---------------------------------------------------------------------------

/-- A call whose operand is constant is computed. -/
theorem triple_foldCall {op : Builtin} {v : ValueId} {type : TypeId} {r : ValueId × Heap}
    (hc : s.tree.children i = [j]) (hv : (s.tree.facts j).value = some v)
    (ht : (s.tree.facts i).type = some type) (hfold : s.values.fold op type [v] = .value r)
    {Q : Unit → Session → Prop} {E : Fault → Session → Prop} :
    Triple (foldCall i op) s Q E ↔
      Q () { s with values := r.2, tree := s.tree.annotate i ({ · with value := some r.1 }) } := by
  have hvalues : [j].mapM (fun operand => (s.tree.facts operand).value) = some [v] := by simp [hv]
  unfold foldCall
  simp only [triple_bind, triple_tree, hc, hvalues, typeOf, triple_factsOf, triple_pure, ht,
    Option.getD_some, triple_get, hfold, triple_modify, triple_annotate]

theorem returns_bindNegation {k : NodeKind} {id : DeclId} {signature parameters : TypeId}
    (hs : s.Scoped)
    (h : s.tree.Forest (plug (f :: fs) [.node i k [.node j (.temp temp) []]] ++ us))
    (hj : Known s j n) (hb : s.HasBuiltin id ⟨.unary .neg, .int64⟩ signature parameters) :
    Returns (bindTo i id signature) s fun call s' => Known s' call (-n) ∧
      Evaluates (· = i) s s' ∧ Hands s s' {i} {call} ∧ s'.tree.Forest (plug (f :: fs)
        [.node call (.builtinCall ⟨.unary .neg, .int64⟩) [.node j (.temp temp) []]] ++ us) := by
  unfold bindTo resultOf
  refine triple_bind.mpr (triple_bind.mpr (triple_types.mpr (triple_pure.mpr ?_)))
  refine triple_bind.mpr (triple_declOf.mpr ?_)
  simp only [hb.func?, Decl.binding, hb.kind, Option.map_some, Option.getD_some]
  rw [callBuiltin_eq]
  refine triple_bind.mpr (((returns_placeCall hs h ⟨.unary .neg, .int64⟩ _).and
    (Rewires.placeCall _ _ _ s)).imp ?_)
  rintro call s₁ ⟨⟨hnew, h₁, htype, -, hhands⟩, hrest⟩
  have hvalues : s₁.values = s.values := by rw [hrest]
  have htypes : s₁.types = s.types := by rw [hrest]
  have he₁ : Evaluates (· = i) s s₁ :=
    ⟨h₁.proceeds, htypes ▸ .refl _, htypes ▸ fun h => h, hvalues ▸ .refl _, by rw [hrest]⟩
  have hj₁ : Known s₁ j n := hj.evaluates he₁ (spared_below h j (by simp)).2
  obtain ⟨v, hv, hholds⟩ := hj₁.value
  have hchildren : s₁.tree.children call = [j] := h₁.forest.gap.children
  have hcall : call.index < s₁.tree.size := h₁.forest.lt_size_gap call (by simp)
  refine triple_bind.mpr ((triple_foldCall hchildren hv htype hholds.fold_neg).mpr ?_)
  rw [triple_pure]
  obtain ⟨he₂, hforest⟩ := evaluates_annotate s₁ call
    (Grammar.grows_ofScalar s₁.values Primitive.int64.typeId .int64 (.int (-n))) fun facts =>
    { facts with value := some (s₁.values.ofScalar Primitive.int64.typeId .int64 (.int (-n))).1 }
  refine ⟨⟨?_, _, ?_, Heap.holdsInt_ofScalar s₁.values (-n)⟩,
    he₁.trans he₂ (by rintro _ rfl; exact .inr hnew), hhands, hforest _ h₁.forest.drop⟩
  · rw [Arena.facts_annotate_self hcall]
    exact htype
  · rw [Arena.facts_annotate_self hcall]

theorem returns_negate {k : NodeKind} (hs : s.Equipped)
    (h : s.tree.Forest (plug (f :: fs) [.node i k [.node j (.temp temp) []]] ++ us))
    (hj : Known s j n) :
    Returns (analyzeOperator i UnaryOp.neg.symbol false) s fun call s' => Known s' call (-n) ∧
      Evaluates (· = i) s s' ∧ Hands s s' {i} {call} ∧ s'.tree.Forest (plug (f :: fs)
        [.node call (.builtinCall ⟨.unary .neg, .int64⟩) [.node j (.temp temp) []]] ++ us) := by
  have hchildren : s.tree.children i = [j] := h.gap.children
  have hhas : ∀ id ∈ [Primitive.int64.typeId], s.types.Has id := by
    simpa using hs.types.has_typeId .int64
  let s₁ : Session := { s with types := (s.types.makePlainTuple [Primitive.int64.typeId]).2 }
  have he : Evaluates (· = i) s s₁ :=
    ⟨Learns.proceeds (.of_tree rfl rfl rfl (List.prefix_refl _)), s.types.extends_intern _,
      fun ht => ht.request (.plainTuple [Primitive.int64.typeId]) hhas, .refl _, rfl⟩
  have hs₁ : s₁.Equipped := he.equipped hs
  have hj₁ : Known s₁ j n := ⟨hj.type, hj.value⟩
  have hscope : s₁.scopes.Has (s.tree.scope i) := hs₁.inScope.nodes i
  have hmem : (⟨.unary .neg, .int64⟩ : Builtin) ∈ Builtin.all := by decide +kernel
  obtain ⟨id, signature, parameters, hbuiltin, hresolve⟩ := resolves_exact hs₁.builtins hs₁.types
    hscope hmem (isOperator_unary .neg)
    (TypeTable.kind_intern s.types (.tuple [⟨none, Primitive.int64.typeId⟩]))
  have hbind := returns_bindNegation hs₁.inScope h hj₁ hbuiltin
  unfold analyzeOperator argumentTuple
  simp only [Returns, triple_bind, triple_scopeOf, triple_childrenOf, hchildren, triple_mapM_cons,
    triple_mapM_nil, triple_typeOf_known hj, triple_makeType]
  refine hresolve.mpr ?_
  obtain ⟨isExact, hexact, -⟩ := exists_isExactMatch s₁ (.resolved id signature)
    (s.types.makePlainTuple [Primitive.int64.typeId]).1
  refine hexact.mpr ?_
  simp only [Bool.false_and, Bool.false_eq_true, ↓reduceIte, triple_bind, triple_pure]
  refine hbind.imp ?_
  rintro call s' ⟨hcall, he', hhands, hforest⟩
  exact ⟨hcall, he.trans he' fun _ hi => .inl hi, hhands, hforest⟩

-- ---------------------------------------------------------------------------
-- Steps
-- ---------------------------------------------------------------------------

/-- The temporary below a step gets a copy of the number that its producer has. -/
theorem returns_readOperand {k : NodeKind} (hs : s.Equipped)
    (h : s.tree.Forest (plug (f :: fs) [.node i k [.node j (.temp temp) []]] ++ us))
    (hset : s.temps[temp.index]? = some p) (hp : Known s p n) (missing : Pass TypeId) :
    Returns (do
        readOperands missing i
        isPoisoned i) s fun poisoned s' => poisoned = false ∧ Known s' j n ∧
      Evaluates (· = j) s s' ∧ s'.temps = s.temps ∧
      s'.tree.Forest (plug (f :: fs) [.node i k [.node j (.temp temp) []]] ++ us) := by
  have hchildren : s.tree.children i = [j] := h.gap.children
  have hkind : s.tree.kind j = .temp temp := (h.gap.below).1.kind
  unfold readOperands
  simp only [Returns, triple_bind, triple_childrenOf, hchildren, triple_forM_cons, triple_kindOf,
    hkind, triple_forM_nil]
  refine (returns_copyKnown hset hp (h.lt_size_gap j (by simp)) missing).imp ?_
  rintro - s₁ ⟨hj, he, htemps, hforest⟩
  have h₁ := hforest _ h
  refine (triple_isPoisoned_known (he.built hs.types) h₁.gap.children hj).mpr ?_
  exact ⟨rfl, hj, he, htemps, h₁⟩

/-- A sign becomes a call that has the number negated. -/
theorem returns_analyzeStatement_neg (hs : s.Equipped)
    (h : s.tree.Forest (plug (f :: fs) [.node i (.unary .neg) [.node j (.temp temp) []]] ++ us))
    (hset : s.temps[temp.index]? = some p) (hp : Known s p n) (missing : Pass TypeId)
    (result : Option TypeId) (fuel : Nat) :
    Returns (analyzeStatement missing result (fuel + 2) i) s fun call s' => Known s' call (-n) ∧
      Evaluates (· ∈ (Tree.node i (.unary .neg) [.node j (.temp temp) []]).ids) s s' ∧
      Hands s s' {i} {call} ∧ s'.tree.Forest (plug (f :: fs)
        [.node call (.builtinCall ⟨.unary .neg, .int64⟩) [.node j (.temp temp) []]] ++ us) := by
  have hkind : s.tree.kind i = .unary .neg := h.gap.kind
  have hread := triple_bind.mp (returns_readOperand hs h hset hp missing)
  unfold analyzeStatement
  simp only [Returns, triple_bind, triple_kindOf, hkind]
  unfold analyzeStep
  simp only [triple_bind, triple_kindOf, hkind]
  refine hread.imp fun _ s₁ h₁ => h₁.imp ?_
  rintro _ s₂ ⟨rfl, hj, he, htemps, hforest⟩
  unfold plainStep unlessPoisoned
  rw [if_neg Bool.false_ne_true]
  refine (returns_negate (he.equipped hs) hforest hj).imp ?_
  rintro call s' ⟨hcall, he', hhands, hforest'⟩
  refine ⟨hcall, (he.mono fun _ hid => ?_).trans he' fun _ hid => ?_, ?_, hforest'⟩
  · simp [hid]
  · simp [hid]
  · exact (Hands.of_temps htemps Set.Subset.rfl).trans hhands

-- ---------------------------------------------------------------------------
-- Definitions
-- ---------------------------------------------------------------------------

/-- The declaration is a number with 64 bits now, and nothing has been reported on the way. -/
structure Determines (decl : DeclId) (n : Int64) (s s' : Session) : Prop where
  type : (s'.decl decl).type = some Primitive.int64.typeId
  value : ∃ v, (s'.decl decl).value = some v ∧ s'.values.HoldsInt v n
  report : s'.report = s.report
  scopes : s'.scopes = s.scopes
  modules : s'.modules = s.modules

theorem Determines.from {N : NodeId → Prop} {decl : DeclId} (h : Determines decl n s' s'')
    (he : Evaluates N s s') : Determines decl n s s'' := by
  refine ⟨h.type, h.value, h.report.trans ?_, h.scopes.trans ?_, h.modules.trans ?_⟩ <;>
    rw [he.rest]

theorem Determines.then {N : NodeId → Prop} {decl : DeclId} (h : Determines decl n s s')
    (he : Evaluates N s' s'') : Determines decl n s s'' := by
  have hdecl : s''.decl decl = s'.decl decl := by rw [he.rest]; rfl
  obtain ⟨v, hv, hholds⟩ := h.value
  refine ⟨hdecl ▸ h.type, ⟨v, hdecl ▸ hv, hholds.grows he.values⟩, Eq.trans ?_ h.report,
    Eq.trans ?_ h.scopes, Eq.trans ?_ h.modules⟩ <;> rw [he.rest]

theorem triple_constantOfType {v : ValueId} (h : s.values.HoldsInt v n)
    {Q : Option ValueId → Session → Prop} {E : Fault → Session → Prop} :
    Triple (constantOfType v Primitive.int64.typeId) s Q E ↔
      Q (some (s.values.duplicate v).1) { s with values := (s.values.duplicate v).2 } := by
  unfold constantOfType
  simp only [triple_bind, triple_get, h.type?, if_true, triple_map, duplicate, triple_onValues]

/-- A constant gets the number that its initial value has. -/
theorem returns_analyzeVarDecl {decl : DeclId} (hc : s.tree.children i = [j]) (hj : Known s j n)
    (hconst : (s.decl decl).isConst = true) :
    Returns (analyzeVarDecl i decl none false) s fun _ s' => Determines decl n s s' ∧
      ∀ ts, s.tree.Forest ts → s'.tree.Forest ts := by
  have hchild : s.tree.child? i 0 = some j := by simp [Arena.child?, hc]
  obtain ⟨v, hv, hholds⟩ := hj.value
  unfold analyzeVarDecl joinDeclared valueOf? setType
  simp only [Returns, triple_bind, triple_scopeOf, triple_pure, triple_child?, hchild, triple_map,
    triple_typeOf_known hj, Bool.false_eq_true, ↓reduceIte, triple_declOf, hconst, Bool.not_false,
    Bool.and_self, triple_factsOf, hv, triple_constantOfType hholds, triple_modifyDecl,
    triple_annotate]
  have hlt := Session.lt_size_of_isConst hconst
  refine ⟨⟨?_, ⟨_, ?_, hholds.duplicate.1⟩, rfl, rfl, rfl⟩, fun ts hf => ?_⟩
  · exact congrArg Decl.type (Session.decl_modifyDecl_self hlt _)
  · exact congrArg Decl.value (Session.decl_modifyDecl_self hlt _)
  · exact hf.congr fun id _ => Arena.links_annotate _

theorem returns_analyzeStatement_define {decl : DeclId} (hs : s.Equipped)
    (h : s.tree.Forest (plug (f :: fs)
      [.node i (.varDecl decl none false) [.node j (.temp temp) []]] ++ us))
    (hset : s.temps[temp.index]? = some p) (hp : Known s p n)
    (hconst : (s.decl decl).isConst = true) (missing : Pass TypeId) (result : Option TypeId)
    (fuel : Nat) :
    Returns (analyzeStatement missing result (fuel + 2) i) s fun node s' => node = i ∧
      Determines decl n s s' ∧ s'.tree.Forest (plug (f :: fs)
        [.node i (.varDecl decl none false) [.node j (.temp temp) []]] ++ us) := by
  have hkind : s.tree.kind i = .varDecl decl none false := h.gap.kind
  have hread := triple_bind.mp (returns_readOperand hs h hset hp missing)
  unfold analyzeStatement
  simp only [Returns, triple_bind, triple_kindOf, hkind]
  unfold analyzeStep
  simp only [triple_bind, triple_kindOf, hkind]
  refine hread.imp fun _ s₁ h₁ => h₁.imp ?_
  rintro _ s₂ ⟨rfl, hj, he, htemps, hforest⟩
  have hconst₂ : (s₂.decl decl).isConst = true := by rwa [he.rest]
  refine triple_bind.mpr ((returns_analyzeVarDecl hforest.gap.children hj hconst₂).imp ?_)
  rintro - s' ⟨hd, hkept⟩
  exact ⟨rfl, hd.from he, hkept _ hforest⟩

-- ---------------------------------------------------------------------------
-- Sequences of steps
-- ---------------------------------------------------------------------------

/-- A child that keeps its place is followed by the next one. -/
theorem returns_analyzeChildren_cons (left : List Tree) {ts : List Tree} {t : Tree}
    {kind : NodeKind} {missing : Pass TypeId} {result : Option TypeId} {fuel : Nat}
    {Q : PUnit → Session → Prop}
    (h : s.tree.Forest (plug (⟨i, kind, left, ts⟩ :: fs) [t] ++ us))
    (hrun : Returns (analyzeStatement missing result fuel t.handle) s fun node s' => ∃ t',
      node = t'.handle ∧ s'.tree.Forest (plug (⟨i, kind, left, ts⟩ :: fs) [t'] ++ us) ∧
      Returns (analyzeChildren missing result fuel i (left ++ [t']).length) s' Q) :
    Returns (analyzeChildren missing result (fuel + 1) i left.length) s Q := by
  rw [plug_child] at h
  refine triple_analyzeChildren_cons left h (hrun.imp ?_)
  rintro _ s' ⟨t', rfl, hf, hrest⟩
  exact ⟨[], t', rfl, by simpa [plug_child] using hf, hrest⟩

/-- Each sign negates the number that the step before has, and the declaration gets the last. -/
theorem returns_analyzeSteps (left : List Tree) {ts : List Tree} {decl : DeclId} {count fuel : Nat}
    (hs : s.Equipped) (h : s.tree.Forest (plug fs [.node i .basicBlock (left ++ ts)] ++ us))
    (hc : Carries s.temps decl p count ts) (hp : Known s p n)
    (hconst : (s.decl decl).isConst = true) (hfuel : (idsOf ts).length + 3 ≤ fuel)
    (missing : Pass TypeId) (result : Option TypeId) :
    Returns (analyzeChildren missing result fuel i left.length) s fun _ s' =>
      Determines decl ((-·)^[count] n) s s' ∧
        ∃ ts', s'.tree.Forest (plug fs [.node i .basicBlock ts'] ++ us) := by
  induction count generalizing s left ts p n fuel with
  | zero =>
    obtain ⟨fuel, rfl⟩ : ∃ m, fuel = m + 3 := Nat.exists_eq_add_of_le' (by omega)
    cases hc with
    | define set =>
      rw [← plug_child] at h
      refine returns_analyzeChildren_cons left h
        ((returns_analyzeStatement_define hs h set hp hconst missing result fuel).imp ?_)
      rintro _ s₁ ⟨rfl, hd, hf⟩
      refine ⟨_, rfl, hf, ?_⟩
      rw [plug_child] at hf
      exact (triple_analyzeChildren_nil hf).mpr ⟨hd, _, hf⟩
  | succ count ih =>
    obtain ⟨fuel, rfl⟩ : ∃ m, fuel = m + 3 := Nat.exists_eq_add_of_le' (by omega)
    cases hc with
    | @neg p k count ts j temp set hrest =>
      have hspared := spared_child h
      rw [← plug_child] at h
      refine returns_analyzeChildren_cons left h
        ((returns_analyzeStatement_neg hs h set hp missing result fuel).imp ?_)
      rintro call s₁ ⟨hcall, he, hhands, hf⟩
      refine ⟨_, rfl, hf, ?_⟩
      rw [plug_child, List.append_cons] at hf
      have hrest₁ := hrest.moved hhands he.proceeds fun id hid => hspared id (by simp [hid])
      have hconst₁ : (s₁.decl decl).isConst = true := by rwa [he.rest]
      have hfuel₁ : (idsOf ts).length + 3 ≤ fuel + 2 := by
        simp only [Tree.idsOf_cons, List.length_append] at hfuel
        have hpos := length_ids_pos (.node k (.unary .neg) [.node j (.temp temp) []])
        omega
      refine (ih _ (he.equipped hs) hf hrest₁ hcall hconst₁ hfuel₁).imp ?_
      rintro - s' ⟨hd, hforest⟩
      exact ⟨hd.from he, hforest⟩

/-- There is nothing to find out about a number that is known. -/
theorem triple_analyzeStatement_literal
    (h : s.tree.Forest (plug (f :: fs) [.node i .literal []] ++ us)) (hi : Known s i n)
    {missing : Pass TypeId} {result : Option TypeId} {fuel : Nat} {Q : NodeId → Session → Prop}
    {E : Fault → Session → Prop} :
    Triple (analyzeStatement missing result (fuel + 2) i) s Q E ↔ Q i s := by
  have hkind : s.tree.kind i = .literal := h.gap.kind
  have hchildren : s.tree.children i = [] := h.gap.children
  unfold analyzeStatement
  simp only [triple_bind, triple_kindOf, hkind]
  unfold analyzeStep readOperands isPoisoned
  simp only [triple_bind, triple_kindOf, hkind, triple_childrenOf, hchildren, triple_forM_nil,
    triple_types, triple_mapM_nil, triple_pure]
  unfold plainStep
  simp only [triple_bind, triple_factsOf, hi.type, Option.isNone_some, Bool.false_eq_true,
    ↓reduceIte, triple_pure]

theorem returns_evaluates_annotateContainer (s : Session) (i : NodeId) :
    Returns (annotateContainer i) s fun _ s' => Evaluates (· = i) s s' ∧
      ∀ ts, s.tree.Forest ts → s'.tree.Forest ts := by
  unfold annotateContainer
  refine triple_bind.mpr (triple_childrenOf.mpr ?_)
  split
  · exact evaluates_annotate s i (.refl _) _
  · exact triple_bind.mpr (triple_factsOf.mpr (evaluates_annotate s i (.refl _) _))

/-- The block that a definition is lowered to is worked through. -/
theorem returns_analyzeStatement_block {ts : List Tree} {l : NodeId} {decl : DeclId}
    {count fuel : Nat} (hs : s.Equipped)
    (h : s.tree.Forest (plug (f :: fs) [.node i .basicBlock (.node l .literal [] :: ts)] ++ us))
    (hc : Carries s.temps decl l count ts) (hl : Known s l n)
    (hconst : (s.decl decl).isConst = true) (hfuel : (idsOf ts).length + 5 ≤ fuel)
    (missing : Pass TypeId) (result : Option TypeId) :
    Returns (analyzeStatement missing result fuel i) s fun node s' => node = i ∧
      Determines decl ((-·)^[count] n) s s' ∧
        ∃ ts', s'.tree.Forest (plug (f :: fs) [.node i .basicBlock ts'] ++ us) := by
  obtain ⟨fuel, rfl⟩ : ∃ m, fuel = m + 4 := Nat.exists_eq_add_of_le' (by omega)
  have hkind : s.tree.kind i = .basicBlock := h.gap.kind
  have hfirst : s.tree.Forest
      (plug (⟨i, .basicBlock, [], ts⟩ :: f :: fs) [.node l .literal []] ++ us) := h
  have hrest : (idsOf ts).length + 3 ≤ fuel + 2 := by omega
  have hsteps := returns_analyzeSteps [.node l .literal []] hs h hc hl hconst hrest missing result
  unfold analyzeStatement
  simp only [Returns, triple_bind, triple_kindOf, hkind]
  refine (returns_analyzeChildren_cons [] hfirst ((triple_analyzeStatement_literal hfirst hl).mpr
    ⟨.node l .literal [], rfl, hfirst, hsteps⟩)).imp ?_
  rintro - s₁ ⟨hd, ts', hf⟩
  refine (returns_evaluates_annotateContainer s₁ i).imp ?_
  rintro - s₂ ⟨he, hkept⟩
  exact ⟨rfl, hd.then he, ts', hkept _ hf⟩

/-- A module that only has the definition of a number is inferred. -/
theorem returns_inferWith_definition {ts : List Tree} {name : String} {root l : NodeId}
    {decl : DeclId} {count : Nat} (hs : s.Equipped)
    (h : s.tree.Forest
      (.node root (.moduleRoot name) [.node i .basicBlock (.node l .literal [] :: ts)] :: us))
    (hc : Carries s.temps decl l count ts) (hl : Known s l n)
    (hconst : (s.decl decl).isConst = true) (missing : Pass TypeId) :
    Returns (inferWith missing root) s fun _ s' => Determines decl ((-·)^[count] n) s s' := by
  have hlength := h.length_le
  simp only [Tree.idsOf_cons, Tree.ids_node, List.length_append, List.length_singleton] at hlength
  have hblock : s.tree.Forest (plug [⟨root, .moduleRoot name, [], []⟩]
    [.node i .basicBlock (.node l .literal [] :: ts)] ++ us) := h
  obtain ⟨fuel, hfuel⟩ : ∃ m, 4 * (s.tree.size + 1) = m + 2 := ⟨4 * s.tree.size + 2, by omega⟩
  unfold inferWith
  refine triple_bind.mpr (triple_tree.mpr ?_)
  rw [hfuel]
  refine returns_analyzeChildren_cons [] hblock
    ((returns_analyzeStatement_block hs hblock hc hl hconst (by omega) missing none).imp ?_)
  rintro i s₁ ⟨rfl, hd, ts', hf⟩
  have hend : s₁.tree.Forest
      (plug [] [.node root (.moduleRoot name) ([] ++ [.node i .basicBlock ts'])] ++ us) := hf
  exact ⟨.node i .basicBlock ts', rfl, hf, (triple_analyzeChildren_nil hend).mpr hd⟩

end Typing
end BlockLang
