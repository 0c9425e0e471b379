import BlockLang.Proofs.Typing.Step
import BlockLang.Proofs.Typing.Widens

/-!
# Steps with a wrong operand

A step that reads a type with an error in it is not looked at further: it reports nothing
about its operands, and what it makes of them is wrong too. Each kind of step gets there in
its own way. Most give up at once, a tuple takes the wrong type in, and a declaration
compares its types only where neither is wrong.
-/

namespace BlockLang

open BlockLang.Tree (idsOf)

variable {s s' : Session} {os : List Tree} {o : Tree} {i : NodeId} {k : NodeKind}

-- ---------------------------------------------------------------------------
-- Operands
-- ---------------------------------------------------------------------------

/-- The node that the value of an operand comes from. -/
def Session.producer (s : Session) (operand : NodeId) : NodeId :=
  match s.tree.kind operand with
  | .temp τ => s.temps[τ.index]?.getD default
  | _ => operand

section
variable {N : NodeId → Prop} {j : NodeId}

theorem Learns.producer (h : Learns N s s') (j : NodeId) : s'.producer j = s.producer j := by
  simp only [Session.producer, Arena.kind_congr (h.links j), h.temps]

end

/-- What a step may report of itself although one of its operands is wrong: that it is out of
place, or that its written type cannot be resolved. -/
inductive NodeKind.Excuses : NodeKind → (result : Option TypeId) → Problem → Prop
  | outside : Excuses .returnStmt none .returnOutsideFunction
  | type (isOfType : problem.isOfType = true) :
    Excuses (.varDecl decl (some expr) isRef) result problem

/-- What a step of kind `k` leaves behind if an operand is wrong. It is wrong too, unless it
has no value. -/
structure Contained (k : NodeKind) (result : Option TypeId) (step : NodeId) (s s' : Session) :
    Prop where
  report : ∃ ds, s'.report = s.report ++ ds ∧ ∀ d ∈ ds, k.Excuses result d.problem
  idle : k.isIdle = true → (s'.tree.facts step).type = some .unit
  wrong : k.isIdle = false →
    ∃ type, (s'.tree.facts step).type = some type ∧ s'.types.containsError type = true

namespace Typing

open Pass

@[simp] theorem triple_typeOf {id : NodeId} {Q : TypeId → Session → Prop}
    {E : Fault → Session → Prop} :
    Triple (typeOf id) s Q E ↔ Q ((s.tree.facts id).type.getD .error) s := Iff.rfl

/-- The types of the operands are known, and one of them is wrong. -/
structure HasWrong (s : Session) (i : NodeId) (os : List Tree) (o : Tree) : Prop where
  table : s.types.Built
  children : s.tree.children i = os.map Tree.handle
  size : i.index < s.tree.size
  mem : o ∈ os
  has : s.types.Has ((s.tree.facts o.handle).type.getD .error)
  wrong : s.types.containsError ((s.tree.facts o.handle).type.getD .error) = true

theorem HasWrong.isPoisoned (h : HasWrong s i os o) :
    Returns (isPoisoned i) s fun poisoned s' => poisoned = true ∧ s' = s := by
  unfold Typing.isPoisoned
  simp only [triple_bind, triple_types, triple_childrenOf, triple_pure, h.children]
  refine (triple_mapM_reads _ fun id _ Q => triple_typeOf).mpr ⟨?_, rfl⟩
  exact List.any_eq_true.mpr
    ⟨_, List.mem_map_of_mem (List.mem_map_of_mem h.mem), h.wrong⟩

-- ---------------------------------------------------------------------------
-- Steps
-- ---------------------------------------------------------------------------

/-- The step is given up. -/
theorem HasWrong.returns_error (h : HasWrong s i os o) (hk : k.isIdle = false)
    (result : Option TypeId) :
    Returns (do setType i .error; return i) s fun node s' =>
      node = i ∧ Contained k result i s s' := by
  refine ⟨rfl, ⟨[], (List.append_nil _).symm, by simp⟩, by simp [hk], fun _ => ⟨.error, ?_, ?_⟩⟩
  · rw [Arena.facts_annotate_self h.size]
  · exact h.table.containsError_error

theorem widening_sequenceOf? {D : Problem → Prop} (type : TypeId) (elements : List NodeId) :
    Widening D (sequenceOf? type elements) := by
  have hduplicate : ∀ value, Widening D (duplicate value) := fun _ _ => .of_same rfl rfl
  have hvalues : Widening D (valuesOf? elements) := by
    refine .bind (fun s => .refl s) fun tree => ?_
    split
    · exact .pure _
    · exact .bind (.mapM hduplicate _) fun _ => .pure _
  refine hvalues.bind fun values => ?_
  split
  · exact .pure _
  · exact .map fun _ => .of_same rfl rfl

/-- A tuple has a place for each element, so it takes in the wrong type. -/
theorem HasWrong.returns_tuple (h : HasWrong s i os o) (hs : s.Scoped)
    {names : List (Option String)} (hl : os.length = names.length) (result : Option TypeId) :
    Returns (analyzeTuple i names) s fun _ s' => Contained (.tuple names) result i s s' := by
  let field (p : NodeId × Option String) : TypeField :=
    ⟨p.2, (s.tree.facts p.1).type.getD .error⟩
  let fields := ((os.map Tree.handle).zip names).map field
  have hmem : (s.tree.facts o.handle).type.getD .error ∈ (TypeKind.tuple fields).inner := by
    have hfst : ((os.map Tree.handle).zip names).map Prod.fst = os.map Tree.handle :=
      List.map_fst_zip (by simp [hl])
    obtain ⟨⟨j, name⟩, hz, hj⟩ := List.mem_map.mp (hfst ▸ List.mem_map_of_mem h.mem)
    obtain rfl : j = o.handle := hj
    exact List.mem_map_of_mem (List.mem_map_of_mem hz)
  unfold analyzeTuple
  simp only [triple_bind, triple_childrenOf, h.children]
  refine (triple_mapM_reads (g := field) _ fun _ _ _ => Iff.rfl).mpr ?_
  simp only [triple_makeType]
  let made : Session := { s with types := (s.types.makeTuple fields).2 }
  have hmade : Learns (fun _ => False) s made := .of_tree rfl rfl rfl (List.prefix_refl _)
  refine ((learner_sequenceOf? (N := fun _ => False) (G := fun _ => True) _ _ made
    (hmade.scoped hs) trivial).and (widening_sequenceOf? (D := fun _ => False) _ _ made)).imp ?_
  rintro value s₁ ⟨hlearns, hwidens⟩
  have hgrown : s.types.Extends made.types := s.types.extends_intern _
  have hkind : s₁.types.kind (s.types.makeTuple fields).1 = .tuple fields :=
    (hwidens.grown.kind (s.types.has_intern _)).trans (s.types.kind_intern _)
  obtain ⟨ds, hreport, hds⟩ := hwidens.report
  refine ⟨⟨ds, hreport, fun d hd => (hds d hd).elim⟩, by simp [NodeKind.isIdle],
    fun _ => ⟨(s.types.makeTuple fields).1, ?_, ?_⟩⟩
  · rw [Arena.facts_annotate_self (Nat.lt_of_lt_of_le h.size hlearns.size_le)]
  · exact h.table.settled.canonical.containsError_of_inner (hgrown.trans hwidens.grown) h.wrong
      h.has (hkind ▸ hmem)

/-- A return has no value and is only looked at for its place. -/
theorem HasWrong.returns_return (h : HasWrong s i os o) (result : Option TypeId) :
    Returns (analyzeReturn i result true) s fun _ s' => Contained .returnStmt result i s s' := by
  have htype : ((s.tree.annotate i ({ · with type := some .unit })).facts i).type = some .unit := by
    rw [Arena.facts_annotate_self h.size]
  unfold analyzeReturn
  simp only [setType, triple_bind, triple_annotate]
  cases result with
  | none =>
    refine ⟨⟨[_], rfl, ?_⟩, fun _ => htype, by simp [NodeKind.isIdle]⟩
    simpa using .outside
  | some result =>
    exact ⟨⟨[], (List.append_nil _).symm, by simp⟩, fun _ => htype, by simp [NodeKind.isIdle]⟩

/-- Types are not compared if the initial one is wrong. -/
theorem returns_joinDeclared {initial : TypeId} (h : s.types.containsError initial = true)
    (node : NodeId) (declared : Option TypeId) :
    Returns (joinDeclared node declared (some initial)) s fun _ s' => s' = s := by
  unfold joinDeclared
  cases declared with
  | none => rfl
  | some declared =>
    simp only [containsError, triple_bind, triple_types, triple_pure, h, Bool.true_or]
    rfl

theorem widening_constantOfType {D : Problem → Prop} (value : ValueId) (type : TypeId) :
    Widening D (constantOfType value type) := by
  have hvalues : ∀ {α : Type} (f : Heap → α × Heap), Widening D (onValues f) :=
    fun _ _ => .of_same rfl rfl
  refine .bind (fun s => .refl s) fun s => .ite (hvalues _).map (.bind (fun s => .refl s) ?_)
  intro types
  split
  · exact .onValues? _
  · exact (hvalues _).map

theorem widening_referenceTo {D : Problem → Prop} (type : Option TypeId) (keepReference : Bool) :
    Widening D (referenceTo type keepReference) := by
  unfold referenceTo
  split
  · exact .pure _
  · refine .bind (fun s => .refl s) fun types => .ite (.pure _) (.map (.makeType fun t => ?_))
    exact t.extends_intern _

/-- A variable is wrong if its initial value is, and so is a reference to that. -/
theorem HasWrong.widens_join (h : HasWrong s i os o) {D : Problem → Prop} (hw : Widens D s s')
    {afterType : TypeId → Pass β} (hafter : ∀ type, Widening D (afterType type))
    (declared : Option TypeId) (isRef : Bool) :
    let initial := some ((s.tree.facts o.handle).type.getD .error)
    IfReturns (if isRef then do
        let declared ← referenceTo declared true
        let initial ← referenceTo initial false
        let type ← joinDeclared i declared initial
        afterType type
      else do
        let type ← joinDeclared i declared initial
        afterType type) s' fun _ s'' => Widens D s s'' := by
  intro initial
  have hcanonical := h.table.settled.canonical
  have hend : ∀ declared type s₁, Widens D s s₁ → s₁.types.containsError type = true →
      IfReturns (joinDeclared i declared (some type) >>= afterType) s₁ fun _ s'' =>
        Widens D s s'' := by
    intro declared type s₁ hw hwrong
    refine triple_bind.mpr ((returns_joinDeclared hwrong i declared).triple.imp ?_)
    rintro type _ rfl
    exact (hafter type _).imp fun _ _ => hw.trans
  split
  · refine triple_bind.mpr ((widening_referenceTo (D := D) declared true s').imp ?_)
    intro declared s₁ hw₁
    let reference := TypeKind.reference ((s.tree.facts o.handle).type.getD .error)
    have hmade : Widens D s₁ { s₁ with types := (s₁.types.intern reference).2 } :=
      .of_report (s₁.types.extends_intern _) rfl
    have hw₂ := (hw.trans hw₁).trans hmade
    have hwrong : (s₁.types.intern reference).2.containsError (s₁.types.intern reference).1 =
        true := by
      refine hcanonical.containsError_of_inner hw₂.grown h.wrong h.has ?_
      rw [s₁.types.kind_intern]
      exact List.mem_singleton_self _
    exact hend declared (s₁.types.intern reference).1 _ hw₂ hwrong
  · exact hend declared _ s' hw (hcanonical.containsError_extends hw.grown h.wrong h.has)

/-- The type that a variable is declared with is all that is looked at. -/
theorem HasWrong.widens_varDecl (h : HasWrong s i os o) (hs : s.Scoped) (hl : os.length = 1)
    (id : DeclId) (declared : Option TypeExpr) (isRef : Bool) (result : Option TypeId) :
    IfReturns (analyzeVarDecl i id declared isRef) s fun _ s' =>
      Widens ((NodeKind.varDecl id declared isRef).Excuses result) s s' := by
  obtain ⟨o', rfl⟩ := List.length_eq_one_iff.mp hl
  obtain rfl : o = o' := by simpa using h.mem
  refine triple_bind.mpr (triple_scopeOf.mpr ?_)
  extract_lets afterDeclared
  let D := (NodeKind.varDecl id declared isRef).Excuses result
  have hdeclared : ∀ declared s₁, Learns (fun _ => False) s s₁ → Widens D s s₁ →
      IfReturns (afterDeclared declared) s₁ fun _ s' => Widens D s s' := by
    intro declared s₁ hlearns hw
    have hchild : s₁.tree.child? i 0 = some o.handle := by
      rw [Arena.child?, Arena.children_congr (hlearns.links i), h.children]
      rfl
    refine triple_bind.mpr (triple_child?.mpr ?_)
    rw [hchild]
    extract_lets afterType afterInitial
    have htype : ∀ type, Widening D (afterType type) := by
      intro type
      unfold afterType
      extract_lets afterValue afterConstant
      have hvalue : ∀ value, Widening D (afterValue value) :=
        fun value => .bind (fun _ => .of_same rfl rfl) fun _ _ => .of_same rfl rfl
      have hconstant : ∀ constant, Widening D (afterConstant constant) := by
        intro constant
        unfold afterConstant
        split
        · exact .bind (widening_constantOfType _ _) hvalue
        · exact .bind (.pure _) hvalue
      clear_value afterConstant
      exact .bind (fun s => .refl s) fun _ => .ite (.bind (fun s => .refl s) hconstant)
        (.bind (.pure _) hconstant)
    have hsame : s₁.tree.facts o.handle = s.tree.facts o.handle := hlearns.facts not_false
    refine triple_bind.mpr (triple_map.mpr (triple_typeOf.mpr ?_))
    rw [hsame]
    exact h.widens_join hw htype declared isRef
  clear_value afterDeclared
  split
  · next expr =>
    have hscope : ∀ n : Names, n = s.names → n.Has (s.tree.scope i) := by
      rintro _ rfl
      exact hs.nodes i
    have hresolve := (learner_resolveType (N := fun _ => False) (G := (· = s.names)) hscope expr s
      hs rfl).and (resolving_resolveType (s.tree.scope i) expr s)
    refine triple_bind.mpr (triple_map.mpr ((Returns.triple hresolve).imp ?_))
    rintro type s₁ ⟨hlearns, hw⟩
    exact hdeclared _ s₁ hlearns (hw.mono fun _ => .type)
  · exact triple_bind.mpr (triple_pure.mpr (hdeclared none s (.refl s) (.refl s)))

/-- A step that has a wrong operand keeps its place, and the error does not spread. -/
theorem HasWrong.returns_plainStep (h : HasWrong s i os o) (hs : s.Scoped)
    (hk : k.isStep = true) (ha : k.Arity os.length) (missing : Pass TypeId)
    (result : Option TypeId) :
    Returns (plainStep missing i k result true) s fun node s' =>
      node = i ∧ Contained k result i s s' := by
  have hcount : os.length ≠ 0 := List.length_pos_of_mem h.mem |>.ne'
  cases k with
  | binary _ | unary _ | call _ | index | field _ | assign | refBind | list =>
    exact h.returns_error rfl result
  | tuple names =>
    exact triple_bind.mpr ((h.returns_tuple hs ha result).imp fun _ _ hc => ⟨rfl, hc⟩)
  | returnStmt => exact triple_bind.mpr ((h.returns_return result).imp fun _ _ hc => ⟨rfl, hc⟩)
  | varDecl id declared isRef =>
    have hl : os.length = 1 := ha.resolve_right fun h => hcount h.1
    have hidles := idles_analyzeVarDecl (N := (· = i)) (G := fun _ => True) rfl id declared isRef s
      hs trivial
    refine triple_bind.mpr ((hidles.and (h.widens_varDecl hs hl id declared isRef result)).imp ?_)
    rintro - s' ⟨⟨-, htype⟩, hwidens⟩
    exact ⟨rfl, hwidens.report, fun _ => htype h.size, by simp [NodeKind.isIdle]⟩
  | literal | symbol _ => exact absurd ha hcount
  | builtinCall _ | cast _ | nullValue => exact ha.elim
  | _ => simp [NodeKind.isStep, NodeKind.isExpression] at hk

end Typing

end BlockLang
