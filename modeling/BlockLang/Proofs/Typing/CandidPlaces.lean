import BlockLang.Proofs.Grammar.Shape
import BlockLang.Proofs.Typing.CandidTypes
import BlockLang.Typing.Place

/-!
# Stores, sequences and their parts are candid

A step whose operands have clean types gets a clean type, or what is wrong with it is reported.
There is one exception. A store into something that is not marked as a place is wrong without
a report; the mark is what normalization asks for.
-/

namespace BlockLang

/-- A type has been found for the node. -/
def Session.Typed (s : Session) (node : NodeId) : Prop := (s.tree.facts node).type.isSome = true

/-- The node has operands as it can be written with, and a type has been found for all of them. -/
structure Session.Ready (s : Session) (node : NodeId) (k : NodeKind) : Prop where
  arity : k.Arity (s.tree.children node).length
  typed : ∀ o ∈ s.tree.children node, s.Typed o

namespace Typing

open Pass

variable {busy : DeclId → Prop} {P : Session → Prop} {node : NodeId}

-- ---------------------------------------------------------------------------
-- Facts
-- ---------------------------------------------------------------------------

theorem candid_setType {type : TypeId} (h : ∀ s, P s → s.types.Clean type) :
    Candid busy P (setType node type) fun _ _ => True :=
  .annotate fun s _ hp _ ht => Option.some.inj ht ▸ h s hp

theorem candid_setTypeAndValue {type : TypeId} (h : ∀ s, P s → s.types.Clean type)
    (value : Option ValueId) : Candid busy P (setTypeAndValue node type value) fun _ _ => True :=
  .annotate fun s _ hp _ ht => Option.some.inj ht ▸ h s hp

/-- What is known of a node is clean. -/
theorem candid_typeOf (h : ∀ s, P s → s.Typed node) :
    Candid busy P (typeOf node) fun type s => P s ∧ s.types.Clean type := by
  refine .reads fun s => ⟨rfl, fun hs hp => ⟨hp, ?_⟩⟩
  obtain ⟨type, ht⟩ := Option.isSome_iff_exists.mp (h s hp)
  rw [ht]
  exact hs.nodes node type ht

theorem candid_childrenOf {k : NodeKind} :
    Candid busy (fun s => s.Ready node k) (childrenOf node) fun os s =>
      k.Arity os.length ∧ ∀ o ∈ os, s.Typed o :=
  .reads fun _ => ⟨rfl, fun _ h => ⟨h.arity, h.typed⟩⟩

theorem candid_mismatch (node : NodeId) (expected received : TypeId) :
    Candid busy P (mismatch node expected received) fun _ _ => False :=
  .bind (.look fun _ => rfl) fun _ => .bind (.look fun _ => rfl) fun _ => .reportAt _ _

theorem candid_duplicate (value : ValueId) :
    Candid busy P (duplicate value) fun _ _ => True := .onValues _

theorem candid_valuesOf? (nodes : List NodeId) :
    Candid busy P (valuesOf? nodes) fun _ _ => True := by
  refine .bind (.look fun _ => rfl) fun tree => ?_
  split
  · exact .pure fun _ _ => trivial
  · refine .bind (Q := fun _ _ => True) ?_ fun _ => .pure fun _ _ => trivial
    exact (CandidTo.mapM (P := fun _ => True) (Q := fun _ _ => True) fun value _ =>
      candid_duplicate value).imp (fun _ _ => trivial) fun _ _ _ => trivial

theorem candid_elementOf? (base : NodeId) (i : Nat) :
    Candid busy P (elementOf? base i) fun _ _ => True := by
  refine .bind (.look fun _ => rfl) fun value => ?_
  split
  · exact .pure fun _ _ => trivial
  · exact .onValues? _

-- ---------------------------------------------------------------------------
-- Stores
-- ---------------------------------------------------------------------------

/-- A store into a marked place. -/
theorem candid_analyzeAssign :
    MakesClean busy (fun s => s.Ready node .assign ∧
      ∀ target ∈ s.tree.child? node 0, (s.tree.facts target).lvalue = true)
      (analyzeAssign node) := by
  have hoperands : Candid busy (fun s => s.Ready node .assign ∧
      ∀ target ∈ s.tree.child? node 0, (s.tree.facts target).lvalue = true) (childrenOf node)
      fun os s => os.length = 2 ∧ (∀ o ∈ os, s.Typed o) ∧
        ∀ target ∈ os[0]?, (s.tree.facts target).lvalue = true :=
    .reads fun _ => ⟨rfl, fun _ h => ⟨h.1.arity, h.1.typed, h.2⟩⟩
  refine hoperands.bind fun os => ?_
  split
  · next target value =>
    refine .bind (Q := fun facts s => facts.lvalue = true ∧ s.Typed target ∧ s.Typed value)
      (.reads fun s => ⟨rfl, fun _ h => ⟨h.2.2 target rfl, h.2.1 _ (by simp), h.2.1 _ (by simp)⟩⟩)
      fun facts => ?_
    refine .ite (fun hplace => .pure fun s h => by simp [h.1] at hplace) fun _ => ?_
    refine .bind (.look fun s => ?_) fun immutable => .ite (fun _ => ?_) fun _ => ?_
    · unfold isImmutable
      simp only [triple_bind, triple_factsOf]
      split
      · exact rfl
      · exact rfl
      · exact rfl
    · exact .bind (.reportAt _ _) fun _ => .pure (by simp)
    refine .bind (Q := fun t s => t = s.types ∧ s.Typed target ∧ s.Typed value)
      (.reads fun _ => ⟨rfl, fun _ h => ⟨rfl, h.2⟩⟩) fun t => ?_
    refine .bind (candid_typeOf fun s h => h.2.1) fun type => ?_
    dsimp only
    refine .bind (Q := fun _ s => s.types.Clean (t.storage type)) (.reads fun s => ⟨rfl, ?_⟩)
      fun received => ?_
    · rintro - ⟨⟨rfl, -⟩, htype⟩
      exact htype.storage
    exact .bind (.look fun _ => rfl) fun fits => .ite (fun _ => .pure fun _ h => h) fun _ =>
      .bind (candid_mismatch _ _ _) fun _ => .pure (by simp)
  · next hother =>
    refine .pure fun s h => ?_
    obtain ⟨a, b, rfl⟩ := List.length_eq_two.mp h.1
    exact absurd rfl (hother a b)

theorem candid_analyzeRefBind :
    MakesClean busy (fun s => s.Ready node .refBind) (analyzeRefBind node) := by
  refine .bind candid_childrenOf fun os => ?_
  split
  · next target referent =>
    refine .bind (candid_typeOf fun s h => h.2 target (by simp)) fun expected => ?_
    refine .bind (.look fun _ => rfl) fun types => .ite (fun _ => ?_) fun _ => ?_
    · have htypes : Candid busy (fun s => (NodeKind.refBind.Arity [target, referent].length ∧
          ∀ o ∈ [target, referent], s.Typed o) ∧ s.types.Clean expected) (typeOf referent)
          fun type s => s.types.Clean expected ∧ s.types.Clean type :=
        (candid_typeOf fun s h => h.1.2 referent (by simp)).imp (fun _ h => h)
          fun _ _ h => ⟨h.1.2, h.2⟩
      refine htypes.bind fun type => .seq (.makeType (.reference type) (by simp)) (fun _ h => h.2)
        fun received => ?_
      exact .bind (.look fun _ => rfl) fun fits => .ite (fun _ => .pure fun _ h => h.1.1) fun _ =>
        .bind (candid_mismatch _ _ _) fun _ => .pure nofun
    · refine .bind (.look fun s => ?_) fun name => .bind (.reportAt _ _) fun _ => .pure nofun
      unfold referentName
      simp only [triple_bind, triple_factsOf]
      split <;> exact rfl
  · next hother =>
    refine .pure fun s h => ?_
    obtain ⟨a, b, rfl⟩ := List.length_eq_two.mp h.1
    exact absurd rfl (hother a b)

-- ---------------------------------------------------------------------------
-- Sequences
-- ---------------------------------------------------------------------------

theorem candid_sequenceOf? (type : TypeId) (elements : List NodeId) :
    Candid busy P (sequenceOf? type elements) fun _ _ => True := by
  refine .bind (candid_valuesOf? elements) fun values => ?_
  split
  · exact .pure fun _ _ => trivial
  · exact .map (.onValues _)

theorem candid_analyzeTuple {names : List (Option String)} :
    Candid busy (fun s => ∀ o ∈ s.tree.children node, s.Typed o) (analyzeTuple node names)
      fun _ _ => True := by
  refine .bind (Q := fun os s => ∀ o ∈ os, s.Typed o) (.reads fun _ => ⟨rfl, fun _ h => h⟩)
    fun elements => ?_
  have hfields : Candid busy (fun s => ∀ o ∈ elements, s.Typed o) ((elements.zip names).mapM
      fun entry => do return (⟨entry.2, ← typeOf entry.1⟩ : TypeField))
      fun fields s => ∀ f ∈ fields, s.types.Clean f.type := by
    refine .reads fun s => (triple_mapM_reads _ fun _ _ _ => Iff.rfl).mpr ⟨rfl, fun hs h => ?_⟩
    simp only [List.forall_mem_map]
    rintro ⟨element, name⟩ hmem
    obtain ⟨type, ht⟩ := Option.isSome_iff_exists.mp (h element (List.of_mem_zip hmem).1)
    exact hs.nodes element _ (by simp [ht])
  refine hfields.bind fun fields => .bind (.makeType (.tuple fields) (by simp)) fun type => ?_
  exact .seq (candid_sequenceOf? _ _) (fun _ h => h) fun value =>
    candid_setTypeAndValue (fun _ h => h.1) value

/-- Looking for an element that does not fit changes nothing. -/
theorem ifReturns_firstMisfit? (expected : TypeId) (elements : List NodeId) (s : Session) :
    IfReturns (firstMisfit? expected elements) s fun _ s' => s' = s := by
  induction elements with
  | nil => exact rfl
  | cons element elements ih =>
    unfold firstMisfit?
    simp only [triple_bind, triple_types, converts, typeOf, triple_factsOf, triple_pure]
    split
    · exact ih
    · exact rfl

theorem candid_analyzeList :
    MakesClean busy (fun s => ∀ o ∈ s.tree.children node, s.Typed o) (analyzeList node) := by
  refine .bind (Q := fun os s => ∀ o ∈ os, s.Typed o) (.reads fun _ => ⟨rfl, fun _ h => h⟩)
    fun elements => ?_
  split
  · exact .given (.makeType (.list .unit (some 0)) fun s h => by simpa using h.1.built.clean_unit)
  · next first others =>
    refine .bind (candid_typeOf fun s h => h first (by simp)) fun expected => ?_
    refine .bind (.look fun s => ifReturns_firstMisfit? expected others s) fun misfit => ?_
    split
    · exact .bind (.look fun _ => rfl) fun received => .bind (candid_mismatch _ _ _) fun _ =>
        .pure nofun
    · refine .bind (.makeType (.list expected _) fun s h => by simpa using h.2) fun type => ?_
      refine .seq (candid_sequenceOf? _ _) (fun _ h => h) fun value => ?_
      refine .seq (.annotate fun s hs _ => hs.nodes node) (fun _ h => h) fun _ =>
        .pure fun _ h => h.1.1

-- ---------------------------------------------------------------------------
-- Parts
-- ---------------------------------------------------------------------------

theorem candid_reportOutOfBounds (index : Int64) (length : UInt64) :
    Candid busy P (reportOutOfBounds node index length) fun _ _ => True :=
  .bind (.reportAt _ _) fun _ => candid_setType nofun

theorem candid_reportNotIndexable (place : NodeId) (type : TypeId) :
    Candid busy P (reportNotIndexable node place type) fun _ _ => True :=
  .bind (.look fun _ => rfl) fun _ => .bind (.reportAt _ _) fun _ => candid_setType nofun

theorem candid_constantIndex? (index : NodeId) :
    Candid busy P (constantIndex? index) fun _ => P := by
  refine .bind (.look fun _ => rfl) fun value => ?_
  split
  · exact .pure fun _ h => h
  · exact .bind (.look fun _ => rfl) fun _ => .pure fun _ h => h

theorem candid_indexList {base index : NodeId} {element : TypeId} {length : Option UInt64} :
    Candid busy (fun s => s.types.Clean element) (indexList node base index element length)
      fun _ _ => True := by
  refine .bind (.look fun _ => rfl) fun type => .bind (.look fun _ => rfl) fun types =>
    .ite (fun _ => ?_) fun _ => .bind (candid_constantIndex? index) fun i => ?_
  · exact .bind (candid_mismatch _ _ _) fun _ => candid_setType nofun
  split
  · exact candid_setTypeAndValue (fun _ h => h) _
  · exact .ite (fun _ => candid_reportOutOfBounds _ _) fun _ =>
      .seq (candid_elementOf? _ _) (fun _ h => h) fun value =>
        candid_setTypeAndValue (fun _ h => h.1) value

theorem candid_indexTuple {base index : NodeId} {fields : List TypeField} :
    Candid busy (fun s => ∀ f ∈ fields, s.types.Clean f.type) (indexTuple node base index fields)
      fun _ _ => True := by
  refine .bind (candid_constantIndex? index) fun i => ?_
  split
  · exact .bind (.look fun _ => rfl) fun type => candid_reportNotIndexable _ _
  split
  · exact candid_reportOutOfBounds _ _
  · next field hfield =>
    refine .seq (candid_elementOf? _ _) (fun _ h => h) fun value =>
      candid_setTypeAndValue (fun s h => h.1 field ?_) value
    split at hfield
    · cases hfield
    · exact List.mem_of_getElem? hfield

theorem candid_analyzeIndex :
    Candid busy (fun s => s.Ready node .index) (analyzeIndex node) fun _ _ => True := by
  refine .bind candid_childrenOf fun os => ?_
  split
  · next base index =>
    refine .bind (Q := fun t s => t = s.types ∧ s.Typed base)
      (.reads fun _ => ⟨rfl, fun _ h => ⟨rfl, h.2 base (by simp)⟩⟩) fun types => ?_
    refine .bind (candid_typeOf fun s h => h.2) fun type => ?_
    split
    · next element length hk =>
      refine candid_indexList.imp ?_ fun _ _ h => h
      rintro s ⟨⟨rfl, -⟩, htype⟩
      exact htype.stripAll.element hk
    · next fields hk =>
      refine candid_indexTuple.imp ?_ fun _ _ h => h
      rintro s ⟨⟨rfl, -⟩, htype⟩ field hfield
      exact htype.stripAll.field hk hfield
    · exact .bind (.look fun _ => rfl) fun type => candid_reportNotIndexable _ _
  · next hother =>
    refine candid_setType fun s h => ?_
    obtain ⟨a, b, rfl⟩ := List.length_eq_two.mp h.1
    exact absurd rfl (hother a b)

theorem candid_analyzeField {name : String} :
    Candid busy (fun s => s.Ready node (.field name)) (analyzeField node name) fun _ _ => True := by
  have hbase : Candid busy (fun s => s.Ready node (.field name)) (child? node 0)
      fun base s => ∃ o, base = some o ∧ s.Typed o := by
    refine .reads fun s => ⟨rfl, fun _ h => ?_⟩
    obtain ⟨o, ho⟩ := List.length_eq_one_iff.mp h.arity
    exact ⟨o, by simp [Arena.child?, ho], h.typed o (by simp [ho])⟩
  refine hbase.bind fun base => ?_
  split
  · exact candid_setType (by simp)
  · next base =>
    refine .bind (candid_typeOf fun s h => ?_) fun type => ?_
    · obtain ⟨o, ho, htyped⟩ := h
      exact Option.some.inj ho ▸ htyped
    refine .bind (Q := fun t s => t = s.types ∧ s.types.Clean type)
      (.reads fun _ => ⟨rfl, fun _ h => ⟨rfl, h.2⟩⟩) fun types => ?_
    dsimp only
    split
    · next index field hfound =>
      have hset : Candid busy (fun s => s.types.Clean field) (do
          setTypeAndValue node field (← elementOf? base index)) fun _ _ => True :=
        .seq (candid_elementOf? _ _) (fun _ h => h) fun value =>
          candid_setTypeAndValue (fun _ h => h.1) value
      refine hset.imp ?_ fun _ _ h => h
      rintro s ⟨rfl, htype⟩
      simp only [Option.bind_eq_bind, Option.bind_eq_some_iff, Option.pure_def, Option.some.injEq,
        Prod.mk.injEq] at hfound
      obtain ⟨fields, hfields, i, -, f, hf, rfl, rfl⟩ := hfound
      refine htype.stripAll.field ?_ (List.mem_of_getElem? hf)
      unfold TypeTable.fields? at hfields
      split at hfields
      · next hk => rw [hk, Option.some.inj hfields]
      · cases hfields
    · exact .bind (.look fun _ => rfl) fun _ => .bind (.reportAt _ _) fun _ => candid_setType nofun

end Typing
end BlockLang
