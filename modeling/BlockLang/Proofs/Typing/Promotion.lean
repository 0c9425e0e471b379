import BlockLang.Proofs.Types.Nested
import BlockLang.Proofs.Typing.Operators

/-!
# Operands of different types

The operands of an arithmetic step are brought to one type, by a conversion before the step for
the one that does not have it, and the step becomes a call at that type
(`Typing.promoted_analyzeOperator`). Nothing but a division by zero is reported. That takes
operands with fewer names than costs can count (`Typing.not_promoted_analyzeOperator`).
-/

namespace BlockLang

open BlockLang.Tree (idsOf)
open BlockLang.Frame (plug)

/-- Two different arithmetic types have a common one, which is one of them. -/
theorem Primitive.exists_promote? {p q : Primitive} (hp : p.isArithmetic = true)
    (hq : q.isArithmetic = true) (hne : p ≠ q) :
    ∃ target, p.promote? q = some target ∧ (target = p ∨ target = q) := by
  unfold promote?
  rw [if_neg (by simp [hp, hq, hne])]
  repeat' split
  all_goals exact ⟨_, rfl, by simp⟩

/-- The names on an operand that needs no conversion to `target`. -/
def TypeTable.namesOver (t : TypeTable) (target : Primitive) (a : TypeId) : Nat :=
  if t.underlying? a = some target then t.nameCount a else 0

-- ---------------------------------------------------------------------------
-- What conversions leave alone
-- ---------------------------------------------------------------------------

/-- Types, scopes and declarations stay, and what has been reported is as `D` says. -/
structure Session.Confined (D : Problem → Prop) (s s' : Session) : Prop where
  types : s'.types = s.types
  scopes : s'.scopes = s.scopes
  universal : s'.universal = s.universal
  decls : s'.decls = s.decls
  report : ∃ ds, s'.report = s.report ++ ds ∧ ∀ d ∈ ds, D d.problem

/-- If the pass returns, it has worked on nodes, temporaries and values only. -/
def Confines (D : Problem → Prop) (p : Pass α) : Prop :=
  ∀ s, IfReturns p s fun _ s' => s.Confined D s'

section
variable {D : Problem → Prop} {s s' s'' : Session}

/-- Only nodes, temporaries and values have changed. -/
theorem Session.Confined.of_rest
    (h : s' = { s with tree := s'.tree, temps := s'.temps, values := s'.values }) :
    s.Confined D s' := by
  refine ⟨?_, ?_, ?_, ?_, [], ?_, by simp⟩ <;> rw [h]
  simp

theorem Session.Confined.trans (h : s.Confined D s') (h' : s'.Confined D s'') :
    s.Confined D s'' := by
  obtain ⟨ds, hr, hd⟩ := h.report
  obtain ⟨ds', hr', hd'⟩ := h'.report
  exact ⟨h'.types.trans h.types, h'.scopes.trans h.scopes, h'.universal.trans h.universal,
    h'.decls.trans h.decls, ds ++ ds', by rw [hr', hr, List.append_assoc],
    List.forall_mem_append.mpr ⟨hd, hd'⟩⟩

theorem Session.Confined.builtins (h : s.Confined D s') (hb : s.Builtins) : s'.Builtins :=
  hb.congr h.scopes h.universal h.decls (h.types ▸ .refl _)

theorem Session.Confined.report_eq (h : s.Confined (fun _ => False) s') :
    s'.report = s.report := by
  obtain ⟨ds, hr, hd⟩ := h.report
  rw [hr, List.eq_nil_iff_forall_not_mem.mpr hd, List.append_nil]

namespace Confines

open Pass

variable {p : Pass α} {f : α → Pass β}

theorem bind (hp : Confines D p) (hf : ∀ a, Confines D (f a)) : Confines D (p >>= f) := by
  intro s
  refine triple_bind.mpr ((hp s).imp fun a s₁ h => ?_)
  exact (hf a s₁).imp fun _ _ => h.trans

theorem pure (a : α) : Confines D (Pure.pure a : Pass α) := fun _ => .of_rest rfl

theorem tree : Confines D Pass.tree := fun _ => .of_rest rfl
theorem get : Confines D (MonadState.get : Pass Session) := fun _ => .of_rest rfl
theorem spanOf (id : NodeId) : Confines D (Pass.spanOf id) := fun _ => .of_rest rfl
theorem startOf (id : NodeId) : Confines D (Pass.startOf id) := fun _ => .of_rest rfl
theorem scopeOf (id : NodeId) : Confines D (Pass.scopeOf id) := fun _ => .of_rest rfl
theorem factsOf (id : NodeId) : Confines D (Pass.factsOf id) := fun _ => .of_rest rfl
theorem newTemp (id : NodeId) : Confines D (Pass.newTemp id) := fun _ => .of_rest rfl
theorem takeChildren (id : NodeId) : Confines D (Pass.takeChildren id) := fun _ => .of_rest rfl

theorem annotate (id : NodeId) (f : Facts → Facts) : Confines D (Pass.annotate id f) :=
  fun _ => .of_rest rfl

theorem retargetTemps (old new : NodeId) : Confines D (Pass.retargetTemps old new) :=
  fun _ => .of_rest rfl

theorem setValues (values : Heap) :
    Confines D (modify fun s => { s with values } : Pass PUnit) := fun _ => .of_rest rfl

theorem tryTree (f : Arena → Except Fault Arena) : Confines D (Pass.tryTree f) := by
  intro s
  refine triple_tryTree.mpr ?_
  split
  · exact .of_rest rfl
  · trivial

theorem addNode (kind : NodeKind) (span : Span) (scope : ScopeId) (children : List NodeId) :
    Confines D (Pass.addNode kind span scope children) :=
  .bind get fun _ => .bind (fun _ => .of_rest rfl) fun _ => .bind (.tryTree _) fun _ => .pure _

theorem addLike (origin : NodeId) (kind : NodeKind) : Confines D (Pass.addLike origin kind) :=
  .bind (.spanOf _) fun _ => .bind (.scopeOf _) fun _ => .addNode _ _ _ _

theorem onValues? (f : Heap → Option (α × Heap)) : Confines D (Pass.onValues? f) := by
  intro s
  refine triple_onValues?.mpr ?_
  split <;> exact .of_rest rfl

theorem report {d : Diagnostic} (h : D d.problem) : Confines D (Pass.report d) :=
  fun _ => ⟨rfl, rfl, rfl, rfl, [d], rfl, by simpa using h⟩

end Confines

namespace Typing

theorem confines_annotateCast (cast operand : NodeId) (target : Primitive) :
    Confines D (annotateCast cast operand target) := by
  have hset : ∀ value, Confines D (setTypeAndValue cast target.typeId value) :=
    fun _ => .annotate _ _
  refine .bind (.bind (.factsOf operand) fun _ => .pure _) fun value => ?_
  dsimp only
  split
  · exact .bind (.pure _) hset
  · exact .bind (.onValues? _) hset

theorem confines_insertCast (user operand : NodeId) (target : Primitive) :
    Confines D (insertCast user operand target) := by
  refine .bind (.addLike _ _) fun _ => .bind (.tryTree _) fun _ => .bind (.spanOf _) fun _ =>
    .bind (.scopeOf _) fun _ => .bind (.addNode _ _ _ _) fun _ =>
    .bind (confines_annotateCast _ _ _) fun _ => .bind .tree fun _ => ?_
  dsimp only
  split
  · exact .bind (.pure _) fun _ => .tryTree _
  · exact .bind (.tryTree _) fun _ => .bind (.newTemp _) fun _ => .bind (.addLike _ _) fun _ =>
      .bind (.factsOf _) fun _ => .bind (.annotate _ _) fun _ => .bind (.pure _) fun _ => .tryTree _

theorem confines_foldCall (node : NodeId) (op : Builtin) :
    Confines (· = .divisionByZero) (foldCall node op) := by
  refine .bind .tree fun _ => ?_
  split
  · exact .pure _
  · refine .bind (.bind (.factsOf node) fun _ => .pure _) fun _ => .bind .get fun _ => ?_
    split
    · exact .bind (.setValues _) fun _ => .annotate _ _
    · exact .bind (.startOf _) fun _ => .report rfl
    · exact .pure _

end Typing
end

namespace Typing

open Pass

variable {s s' : Session} {f : Frame} {fs : List Frame} {us : List Tree} {user : NodeId}
  {k : NodeKind} {l r o o' : Tree} {cs ls rs : List Tree} {a b : TypeId} {p q target : Primitive}
  {op : BinaryOp}

-- ---------------------------------------------------------------------------
-- Operands
-- ---------------------------------------------------------------------------

/-- An operand of type `p` has been brought to the type `target`: by a conversion `cs`, which
`o'` reads, unless it had that type before. -/
inductive Brought (s : Session) (p target : Primitive) (o : Tree) : List Tree → Tree → Prop
  | same (h : p = target) : Brought s p target o [] o
  | cast (h : p ≠ target) (hc : Casts s target c j τ) :
    Brought s p target o [.node c (.cast target.typeId) [o]] (.node j (.temp τ) [])

/-- A conversion stays while neither it nor the temporary is touched. -/
theorem Brought.proceeds {N : NodeId → Prop} (h : Brought s p target o cs o')
    (hp : Proceeds N s s') (hids : ∀ id ∈ idsOf cs ++ o'.ids, Spared N s id) :
    Brought s' p target o cs o' := by
  cases h with
  | same h => exact .same h
  | @cast c j τ h hc =>
    obtain ⟨hlt, hn⟩ := hids c (by simp)
    obtain ⟨hlt', hn'⟩ := hids j (by simp)
    refine .cast h ⟨hp.temps τ.index c hc.set hlt hn, ?_, ?_⟩
    · rw [hp.facts hlt hn, hc.type]
    · rw [hp.facts hlt' hn', hp.facts hlt hn, hc.facts]

/-- An operand has the primitive `p` under its names. -/
structure Operand (s : Session) (o : Tree) (a : TypeId) (p : Primitive) : Prop where
  type : (s.tree.facts o.handle).type = some a
  underlying : s.types.underlying? a = some p

theorem Operand.typeOf (h : Operand s o a p) {Q : TypeId → Session → Prop}
    {E : Fault → Session → Prop} : Triple (typeOf o.handle) s Q E ↔ Q a s := by
  simp only [Typing.typeOf, triple_bind, triple_factsOf, triple_pure, h.type, Option.getD_some]

/-- In a basic block stands a step with two operands of known primitives. -/
structure Operands (s : Session) (f : Frame) (fs : List Frame) (us : List Tree) (user : NodeId)
    (k : NodeKind) (l r : Tree) (a b : TypeId) (p q : Primitive) : Prop where
  session : s.Scoped
  types : s.types.Built
  builtins : s.Builtins
  block : f.kind = .basicBlock
  forest : s.tree.Forest (plug (f :: fs) [.node user k [l, r]] ++ us)
  left : Operand s l a p
  right : Operand s r b q

/-- One operand is brought to the common type. -/
theorem returns_bring (hf : f.kind = .basicBlock) (hs : s.Scoped)
    (h : s.tree.Forest (plug (f :: fs) [.node user k (ls ++ o :: rs)] ++ us))
    (ho : Operand s o a p) (target : Primitive) :
    Returns (do
        if (← types).underlying? (← typeOf o.handle) = some target then return false
        insertCast user o.handle target
        return true) s fun done s' => ∃ cs o', Brought s' p target o cs o' ∧
      (done = true ↔ p ≠ target) ∧ s.Confined (fun _ => False) s' ∧
      Reworks (fun _ => False) s
        (plug (f.after cs :: fs) [.node user k (ls ++ o' :: rs)] ++ us) s' := by
  have hsame : s.types.underlying? a = some target ↔ p = target := by
    rw [ho.underlying, Option.some.injEq]
  simp only [triple_bind, triple_types, ho.typeOf, hsame]
  split
  · next heq =>
    refine ⟨[], o, .same heq, by simp [heq], .of_rest rfl, ?_⟩
    rw [Frame.after_nil]
    exact .refl hs h
  · next hne =>
    refine triple_bind.mpr (((returns_insertCast hf hs h).and
      (confines_insertCast (D := fun _ => False) user o.handle target s)).imp ?_)
    rintro - s₁ ⟨⟨c, j, τ, -, hr, hc⟩, hconfined⟩
    exact ⟨_, _, .cast hne hc, by simp [hne], hconfined, hr⟩

/-- What an operand has become has the common type. A conversion takes its names away. -/
theorem Brought.operand (h : Brought s p target o cs o') (ht : s.types.Built)
    (ho : Operand s o a p) :
    ∃ a', Operand s o' a' target ∧
      s.types.nameCount a' = s.types.namesOver target a := by
  rw [TypeTable.namesOver, ho.underlying]
  cases h with
  | same h => exact ⟨a, h ▸ ho, (if_pos (congrArg some h)).symm⟩
  | cast h hc =>
    obtain ⟨hunderlying, hcount⟩ := ht.underlying_typeId target
    refine ⟨target.typeId, ⟨?_, hunderlying⟩, hcount.trans (if_neg (h ∘ Option.some.inj)).symm⟩
    rw [Tree.handle_node, hc.facts, hc.type]

theorem Operand.proceeds {N : NodeId → Prop} (h : Operand s o a p) (hp : Proceeds N s s')
    (ht : s'.types = s.types) (ho : Spared N s o.handle) : Operand s' o a p :=
  ⟨by rw [hp.facts ho.1 ho.2, h.type], ht ▸ h.underlying⟩

namespace Operands

theorem children (h : Operands s f fs us user k l r a b p q) :
    s.tree.children user = [l.handle, r.handle] := h.forest.gap.children

theorem promotion? (h : Operands s f fs us user k l r a b p q) :
    s.types.promotion? a b = p.promote? q := by
  simp only [TypeTable.promotion?, h.left.underlying, h.right.underlying, Option.bind_eq_bind,
    Option.bind_some]

/-- Nothing is done for operands that are of one type. -/
theorem triple_promoteOperands (h : Operands s f fs us user k l r a b p q)
    (hp : p.promote? q = none) {Q : Bool → Session → Prop} {E : Fault → Session → Prop} :
    Triple (promoteOperands user) s Q E ↔ Q false s := by
  unfold promoteOperands
  simp only [triple_bind, triple_tree, h.children, h.left.type, h.right.type, triple_types,
    h.promotion?, hp, triple_pure]

theorem spared {id : NodeId} (h : Operands s f fs us user k l r a b p q)
    (hid : id ∈ l.ids ++ r.ids) : Spared (fun _ => False) s id :=
  ⟨h.forest.lt_size_gap id (by simp at hid ⊢; grind), not_false⟩

/-- Each operand of another type is brought to the common one. -/
theorem returns_promoteOperands (h : Operands s f fs us user k l r a b p q)
    (hp : p.promote? q = some target) :
    Returns (promoteOperands user) s fun retry s' => retry = true ∧
      ∃ cl l' cr r' a' b', Brought s' p target l cl l' ∧ Brought s' q target r cr r' ∧
        Operands s' (f.after (cl ++ cr)) fs us user k l' r' a' b' target target ∧
        s'.types.nameCount a' + s'.types.nameCount b' =
          s.types.namesOver target a + s.types.namesOver target b ∧
        s.Confined (fun _ => False) s' ∧ Proceeds (fun _ => False) s s' := by
  have hforest : s.tree.Forest (plug (f :: fs) [.node user k ([] ++ l :: [r])] ++ us) := h.forest
  unfold promoteOperands
  refine triple_bind.mpr (triple_tree.mpr ?_)
  simp only [h.children, h.left.type, h.right.type]
  refine triple_bind.mpr (triple_types.mpr ?_)
  simp only [h.promotion?, hp]
  refine triple_bind.mpr (triple_mapM_cons.mpr
    ((returns_bring h.block h.session hforest h.left target).imp ?_))
  rintro doneLeft s₁ ⟨cl, l', hl, hdoneLeft, hconfined, hr⟩
  have hproceeds := hr.proceeds
  have hleft₁ := h.left.proceeds hproceeds hconfined.types
    (h.spared (List.mem_append_left _ l.handle_mem_ids))
  have hright₁ := h.right.proceeds hproceeds hconfined.types
    (h.spared (List.mem_append_right _ r.handle_mem_ids))
  have hold : ∀ id ∈ l.ids ++ r.ids, Spared (fun _ => False) s₁ id := fun id hid =>
    ⟨Nat.lt_of_lt_of_le (h.spared hid).1 hproceeds.size, not_false⟩
  have hnew : ∀ id ∈ idsOf cl ++ l'.ids, Spared (fun _ => False) s₁ id := by
    have hgap := Frame.plug_after f fs cl _ ▸ hr.forest
    exact fun id hid => ⟨hgap.lt_size_gap id (by simp at hid ⊢; grind), not_false⟩
  have hforest₁ : s₁.tree.Forest (plug (f.after cl :: fs) [.node user k ([l'] ++ r :: [])] ++ us) :=
    hr.forest
  have hblock₁ : (f.after cl).kind = .basicBlock := h.block
  refine triple_mapM_cons.mpr ((returns_bring hblock₁ hr.session hforest₁ hright₁ target).imp ?_)
  rintro doneRight s₂ ⟨cr, r', hr', hdoneRight, hconfined', hr₂⟩
  have hall := hconfined.trans hconfined'
  have hbuilt : s₂.types.Built := hall.types ▸ h.types
  have hl' := hl.proceeds hr₂.proceeds hnew
  obtain ⟨a', ha', hlea⟩ := hl'.operand hbuilt
    (hleft₁.proceeds hr₂.proceeds hconfined'.types (hold _ (by simp [Tree.handle_mem_ids])))
  obtain ⟨b', hb', hleb⟩ := hr'.operand hbuilt
    (hright₁.proceeds hr₂.proceeds hconfined'.types (hold _ (by simp [Tree.handle_mem_ids])))
  have hnames : s₂.types.nameCount a' + s₂.types.nameCount b' =
      s.types.namesOver target a + s.types.namesOver target b := by
    rw [hlea, hleb, hall.types]
  have hretry : [doneLeft, doneRight].any id = true := by
    have hne : p ≠ target ∨ q ≠ target := by
      rw [← not_and_or]
      rintro ⟨rfl, rfl⟩
      simp [Primitive.promote?] at hp
    simpa [hdoneLeft, hdoneRight] using hne
  refine triple_mapM_nil.mpr (triple_pure.mpr ⟨hretry, cl, l', cr, r', a', b', hl', hr', ?_,
    hnames, hall, hproceeds.trans hr₂.proceeds fun _ => False.elim⟩)
  refine ⟨hr₂.session, hbuilt, hall.builtins h.builtins, h.block, ?_, ha', hb'⟩
  rw [← Frame.after_after]
  exact hr₂.forest

/-- The types of the operands are put into a tuple, and nothing else happens. -/
theorem returns_argumentTuple (h : Operands s f fs us user k l r a b p q) :
    Returns (argumentTuple user) s fun args s' =>
      s'.types.kind args = .tuple [⟨none, a⟩, ⟨none, b⟩] ∧
      Operands s' f fs us user k l r a b p q ∧
      (s'.types.nameCount a = s.types.nameCount a ∧ s'.types.nameCount b = s.types.nameCount b) ∧
      Proceeds (fun _ => False) s s' ∧ s'.report = s.report := by
  have hhas : ∀ id ∈ [a, b], s.types.Has id := by
    simpa using ⟨TypeTable.has_of_underlying h.left.underlying,
      TypeTable.has_of_underlying h.right.underlying⟩
  have hcanonical := h.types.settled.canonical
  have hgrown : s.types.Extends (s.types.makePlainTuple [a, b]).2 := s.types.extends_intern _
  obtain ⟨hleft, hcountLeft⟩ := hcanonical.underlying_extends hgrown (hhas a (by simp))
  obtain ⟨hright, hcountRight⟩ := hcanonical.underlying_extends hgrown (hhas b (by simp))
  have hbuilt := h.types.request (.plainTuple [a, b]) hhas
  unfold argumentTuple
  simp only [triple_bind, triple_childrenOf, h.children, triple_mapM_cons, triple_mapM_nil,
    h.left.typeOf, h.right.typeOf, triple_makeType]
  refine ⟨TypeTable.kind_intern _ _, ⟨?_, hbuilt, h.builtins.congr rfl rfl rfl hgrown, h.block,
    h.forest, ⟨h.left.type, ?_⟩, ⟨h.right.type, ?_⟩⟩, ?_, ?_, trivial⟩
  · exact ⟨h.session.closed, h.session.universal, h.session.nodes, h.session.functions⟩
  · exact hleft.trans h.left.underlying
  · exact hright.trans h.right.underlying
  · exact ⟨hcountLeft, hcountRight⟩
  · exact Learns.proceeds (.of_tree rfl rfl rfl (List.prefix_refl _))

end Operands

/-- The step has become a call of the built-in `op`. -/
structure Called (s : Session) (f : Frame) (fs : List Frame) (us : List Tree) (user : NodeId)
    (os : List Tree) (op : Builtin) (call : NodeId) (s' : Session) : Prop where
  fresh : s.tree.size ≤ call.index
  reworks : Reworks (· = user) s (plug (f :: fs) [.node call (.builtinCall op) os] ++ us) s'
  type : (s'.tree.facts call).type = some op.result.typeId
  binding : (s'.tree.facts call).binding = some (.builtin op)
  hands : Hands s s' {user} {call}
  confined : s.Confined (· = .divisionByZero) s'

theorem confines_callBuiltin (user : NodeId) (op : Builtin) (result : TypeId) :
    Confines (· = .divisionByZero) (do
      let operands ← takeChildren user
      let call ← addNode (.builtinCall op) (← spanOf user) (← scopeOf user) operands
      substitute user call
      annotate call ({ · with type := some result, binding := some (.builtin op) })
      foldCall call op
      return call) :=
  .bind (.takeChildren _) fun _ => .bind (.spanOf _) fun _ => .bind (.scopeOf _) fun _ =>
    .bind (.addNode _ _ _ _) fun _ =>
    .bind (.bind (.tryTree _) fun _ => .retargetTemps _ _) fun _ =>
    .bind (.annotate _ _) fun _ => .bind (confines_foldCall _ _) fun _ => .pure _

theorem returns_bindTo {id : DeclId} {op : Builtin} {signature parameters : TypeId}
    {os : List Tree} (hs : s.Scoped) (h : s.tree.Forest (plug (f :: fs) [.node user k os] ++ us))
    (hb : s.HasBuiltin id op signature parameters) :
    Returns (bindTo user id signature) s fun call s' => Called s f fs us user os op call s' := by
  unfold bindTo resultOf
  refine triple_bind.mpr (triple_bind.mpr (triple_types.mpr (triple_pure.mpr ?_)))
  refine triple_bind.mpr (triple_declOf.mpr ?_)
  simp only [hb.func?, Decl.binding, hb.kind, Option.map_some, Option.getD_some]
  refine ((returns_callBuiltin hs h op op.result.typeId).and (confines_callBuiltin _ _ _ s)).imp ?_
  rintro call s' ⟨⟨hfresh, hr, htype, hbinding, hhands⟩, hconfined⟩
  exact ⟨hfresh, hr, htype, hbinding, hhands, hconfined⟩

/-- Operands of one type decide which built-in is called. -/
theorem Operands.returns_call {scope : ScopeId} {args : TypeId}
    (h : Operands s f fs us user k l r a b target target)
    (hargs : s.types.kind args = .tuple [⟨none, a⟩, ⟨none, b⟩]) (hscope : s.scopes.Has scope)
    (hop : op.promotesOperands = true) (ht : target.isArithmetic = true)
    (hnames : s.types.nameCount a + s.types.nameCount b < Cost.greatest) :
    ∃ id signature, (∀ {Q : Resolution → Session → Prop} {E : Fault → Session → Prop},
        Triple (resolveOverload scope op.symbol args) s Q E ↔ Q (.resolved id signature) s) ∧
      Returns (bindTo user id signature) s fun call s' =>
        Called s f fs us user [l, r] ⟨.binary op, target⟩ call s' := by
  obtain ⟨id, signature, parameters, hbuiltin, hresolve⟩ := resolves_operands h.builtins h.types
    hscope hop ht hargs h.left.underlying h.right.underlying hnames
  exact ⟨id, signature, hresolve, returns_bindTo h.session h.forest hbuiltin⟩

/-- The call has the operands of the step. -/
theorem Called.operands {call : NodeId} {b' : Builtin}
    (hc : Called s f fs us user [l, r] b' call s') (h : Operands s f fs us user k l r a b p q) :
    Operands s' f fs us call (.builtinCall b') l r a b p q := by
  have hproceeds := hc.reworks.proceeds
  have hforest : s.tree.Forest (plug (f :: fs) ([] ++ [.node user k [l, r]]) ++ us) := h.forest
  have htypes := hc.confined.types
  have hoperand : ∀ o ∈ [l, r], Spared (· = user) s o.handle := by
    intro o ho
    refine spared_beside hforest ?_
    simpa using Tree.handle_mem_idsOf ho
  exact ⟨hc.reworks.session, htypes ▸ h.types, hc.confined.builtins h.builtins, h.block,
    hc.reworks.forest, h.left.proceeds hproceeds htypes (hoperand l (by simp)),
    h.right.proceeds hproceeds htypes (hoperand r (by simp))⟩

/-- Whether exactly these arguments are asked for is only looked up. -/
theorem exists_isExactMatch (s : Session) (resolution : Resolution) (args : TypeId) :
    ∃ exact, (∀ {Q : Bool → Session → Prop} {E : Fault → Session → Prop},
        Triple (isExactMatch resolution args) s Q E ↔ Q exact s) ∧
      (exact = true → ∃ id signature result, resolution = .resolved id signature ∧
        s.types.func? signature = some (args, result)) := by
  cases resolution with
  | resolved id signature =>
    refine ⟨((s.types.func? signature).map (·.1)) == some args, Iff.rfl, fun h => ?_⟩
    obtain ⟨parts, hparts, hargs⟩ := Option.map_eq_some_iff.mp (beq_iff_eq.mp h)
    exact ⟨id, signature, parts.2, rfl, by rw [hparts, ← hargs]⟩
  | _ => exact ⟨false, Iff.rfl, nofun⟩

-- ---------------------------------------------------------------------------
-- Operators
-- ---------------------------------------------------------------------------

/-- The operands of a step have been brought to the type `target`, and the step has become the
call of `op` at that type. -/
structure Promoted (s : Session) (f : Frame) (fs : List Frame) (us : List Tree) (user : NodeId)
    (op : BinaryOp) (l r : Tree) (p q target : Primitive) (call : NodeId) (s' : Session)
    (cl : List Tree) (l' : Tree) (cr : List Tree) (r' : Tree) : Prop where
  left : Brought s' p target l cl l'
  right : Brought s' q target r cr r'
  reworks : Reworks (· = user) s (plug (f :: fs)
    (cl ++ cr ++ [.node call (.builtinCall ⟨.binary op, target⟩) [l', r']]) ++ us) s'
  type : (s'.tree.facts call).type = some (Builtin.result ⟨.binary op, target⟩).typeId
  binding : (s'.tree.facts call).binding = some (.builtin ⟨.binary op, target⟩)
  /-- A temporary that the step has set is set by the call. -/
  hands : Hands s s' {user} {call}
  report : ∃ ds, s'.report = s.report ++ ds ∧ ∀ d ∈ ds, d.problem = .divisionByZero
  /-- There is nothing left to convert. -/
  done : Returns (promoteOperands call) s' fun retry s'' => retry = false ∧ s'' = s'

/-- Once the operands are of one type, the call is what remains to be made. -/
theorem Called.promoted {s₀ : Session} {cl cr : List Tree} {l' r' : Tree} {call : NodeId}
    (hc : Called s (f.after (cl ++ cr)) fs us user [l', r'] ⟨.binary op, target⟩ call s')
    (h : Operands s (f.after (cl ++ cr)) fs us user k l' r' a b target target)
    (hl : Brought s p target l cl l') (hr : Brought s q target r cr r')
    (hp : Proceeds (fun _ => False) s₀ s) (hreport : s.report = s₀.report)
    (huser : user.index < s₀.tree.size) :
    Promoted s₀ f fs us user op l r p q target call s' cl l' cr r' := by
  have hforest := Frame.plug_after f fs (cl ++ cr) _ ▸ h.forest
  have hproceeds := hc.reworks.proceeds
  refine ⟨hl.proceeds hproceeds fun id hid => spared_beside hforest ?_,
    hr.proceeds hproceeds fun id hid => spared_beside hforest ?_, ?_, hc.type, hc.binding,
    ?_, ?_, ?_⟩
  · simp only [Tree.idsOf_append, Tree.idsOf_cons, Tree.idsOf_nil, List.mem_append] at hid ⊢
    grind
  · simp only [Tree.idsOf_append, Tree.idsOf_cons, Tree.idsOf_nil, List.mem_append] at hid ⊢
    grind
  · rw [← Frame.plug_after]
    exact ⟨hc.reworks.session, hc.reworks.forest,
      (hp.mono fun _ => False.elim).trans hproceeds fun _ => .inl⟩
  · exact (hp.hands fun id hid => ⟨Set.mem_singleton_iff.mp hid ▸ huser, not_false⟩).trans hc.hands
  · rw [← hreport]
    exact hc.confined.report
  · exact ((hc.operands h).triple_promoteOperands (if_pos (.inl rfl))).mpr ⟨rfl, rfl⟩

theorem Operands.lt_size (h : Operands s f fs us user k l r a b p q) :
    user.index < s.tree.size :=
  h.forest.lt_size_gap user (by simp)

/-- Operands of one type are not converted. -/
theorem Operands.returns_alike (h : Operands s f fs us user k l r a b p p)
    (hop : op.promotesOperands = true) (hp : p.isArithmetic = true)
    (hnames : s.types.nameCount a + s.types.nameCount b < Cost.greatest) :
    Returns (analyzeOperator user op.symbol op.promotesOperands) s fun call s' =>
      ∃ cl l' cr r', Promoted s f fs us user op l r p p p call s' cl l' cr r' := by
  unfold analyzeOperator
  refine triple_bind.mpr (triple_scopeOf.mpr ?_)
  refine triple_bind.mpr (h.returns_argumentTuple.imp ?_)
  rintro args s₁ ⟨hargs, h₁, ⟨hcountLeft, hcountRight⟩, hproceeds, hreport⟩
  have hscope : s₁.names.Has (s.tree.scope user) := hproceeds.names ▸ h.session.nodes user
  obtain ⟨id, signature, hresolve, hbind⟩ :=
    h₁.returns_call hargs hscope hop hp (by rwa [hcountLeft, hcountRight])
  refine triple_bind.mpr (hresolve.mpr ?_)
  obtain ⟨isExact, hexact, -⟩ := exists_isExactMatch s₁ (.resolved id signature) args
  refine triple_bind.mpr (hexact.mpr ?_)
  extract_lets bindFound afterRetry
  have hfound : Returns (bindFound (args, .resolved id signature)) s₁ fun call s' =>
      ∃ cl l' cr r', Promoted s f fs us user op l r p p p call s' cl l' cr r' := by
    refine hbind.imp fun call s' hc => ⟨[], l, [], r, ?_⟩
    rw [← Frame.after_nil f] at hc h₁
    exact hc.promoted h₁ (.same rfl) (.same rfl) hproceeds hreport h.lt_size
  clear_value bindFound
  have hafter : Returns (afterRetry false) s₁ fun call s' =>
      ∃ cl l' cr r', Promoted s f fs us user op l r p p p call s' cl l' cr r' := by
    unfold afterRetry
    rw [if_neg Bool.false_ne_true]
    exact triple_bind.mpr (triple_pure.mpr hfound)
  clear_value afterRetry
  -- Names on the operands keep a match from being exact, but leave nothing to convert.
  split
  · exact triple_bind.mpr ((h₁.triple_promoteOperands (if_pos (.inl rfl))).mpr hafter)
  · exact triple_bind.mpr (triple_pure.mpr hafter)

/-- Built-ins take operands of one type. -/
theorem eq_of_parameters {id : DeclId} {b' : Builtin} {signature parameters : TypeId}
    (h : s.HasBuiltin id b' signature parameters)
    (hargs : s.types.kind parameters = .tuple [⟨none, a⟩, ⟨none, b⟩]) : a = b := by
  have hfields := TypeKind.tuple.inj (hargs.symm.trans h.parameters)
  have hfield : ∀ field ∈ [(⟨none, a⟩ : TypeField), ⟨none, b⟩],
      field = ⟨none, b'.operand.typeId⟩ := fun field hfield =>
    List.eq_of_mem_replicate (hfields ▸ hfield)
  have hleft := hfield ⟨none, a⟩ (by simp)
  have hright := hfield ⟨none, b⟩ (by simp)
  exact congrArg TypeField.type (hleft.trans hright.symm)

/-- Operands of different types are converted before the operator is resolved again. -/
theorem Operands.returns_mixed (h : Operands s f fs us user k l r a b p q)
    (hop : op.promotesOperands = true) (ht : target.isArithmetic = true)
    (hpromote : p.promote? q = some target)
    (hnames : s.types.namesOver target a + s.types.namesOver target b < Cost.greatest) :
    Returns (analyzeOperator user op.symbol op.promotesOperands) s fun call s' =>
      ∃ cl l' cr r', Promoted s f fs us user op l r p q target call s' cl l' cr r' := by
  unfold analyzeOperator
  refine triple_bind.mpr (triple_scopeOf.mpr ?_)
  refine triple_bind.mpr (h.returns_argumentTuple.imp ?_)
  rintro args s₁ ⟨hargs, h₁, ⟨hcountLeft, hcountRight⟩, hproceeds, hreport⟩
  have hscope : s₁.names.Has (s.tree.scope user) := hproceeds.names ▸ h.session.nodes user
  obtain ⟨resolution, hresolve, hbuiltin⟩ := resolves_builtin h₁.builtins hscope op args
  refine triple_bind.mpr (hresolve.mpr ?_)
  obtain ⟨isExact, hexact, hmatch⟩ := exists_isExactMatch s₁ resolution args
  refine triple_bind.mpr (hexact.mpr ?_)
  -- A built-in takes operands of one type, so whatever was found does not match exactly.
  have hinexact : isExact = false := by
    refine Bool.eq_false_iff.mpr fun htrue => ?_
    obtain ⟨id, signature, result, hresolved, hfunc⟩ := hmatch htrue
    obtain ⟨b', parameters, hb⟩ := hbuiltin id signature hresolved
    obtain ⟨rfl, -⟩ := Prod.mk.inj (Option.some.inj (hfunc.symm.trans hb.func?))
    obtain rfl := eq_of_parameters hb hargs
    obtain rfl := Option.some.inj (h.left.underlying.symm.trans h.right.underlying)
    cases hpromote.symm.trans (if_pos (.inl rfl))
  extract_lets bindFound afterRetry
  have hfound : ∀ args' id signature s₃,
      Returns (bindTo user id signature) s₃ (fun call s' =>
        ∃ cl l' cr r', Promoted s f fs us user op l r p q target call s' cl l' cr r') →
      Returns (bindFound (args', .resolved id signature)) s₃ fun call s' =>
        ∃ cl l' cr r', Promoted s f fs us user op l r p q target call s' cl l' cr r' :=
    fun _ _ _ _ hbind => hbind
  clear_value bindFound
  rw [hop, hinexact]
  refine triple_bind.mpr ((h₁.returns_promoteOperands hpromote).imp ?_)
  rintro - s₂ ⟨rfl, cl, l', cr, r', a', b', hl, hr, h₂, hcount, hconfined, hproceeds₂⟩
  unfold afterRetry
  rw [if_pos rfl]
  refine triple_bind.mpr (h₂.returns_argumentTuple.imp ?_)
  rintro args' s₃ ⟨hargs', h₃, ⟨hcountLeft', hcountRight'⟩, hproceeds₃, hreport₃⟩
  have hall := (hproceeds.trans hproceeds₂ fun _ => False.elim).trans hproceeds₃ fun _ => False.elim
  have hscope' : s₃.names.Has (s.tree.scope user) := hall.names ▸ h.session.nodes user
  have hnames' : s₃.types.nameCount a' + s₃.types.nameCount b' < Cost.greatest := by
    rw [hcountLeft', hcountRight', hcount]
    simp only [TypeTable.namesOver, h₁.left.underlying, h₁.right.underlying, h.left.underlying,
      h.right.underlying, hcountLeft, hcountRight] at hnames ⊢
    exact hnames
  obtain ⟨id, signature, hresolve', hbind⟩ := h₃.returns_call hargs' hscope' hop ht hnames'
  refine triple_bind.mpr (hresolve'.mpr (triple_bind.mpr (triple_pure.mpr ?_)))
  refine hfound args' id signature s₃ (hbind.imp fun call s' hc => ⟨cl, l', cr, r', ?_⟩)
  have hforest := Frame.plug_after f fs (cl ++ cr) _ ▸ h₂.forest
  have hcasts : ∀ id ∈ idsOf (cl ++ cr ++ [l', r']), Spared (fun _ => False) s₂ id :=
    fun id hid => ⟨hforest.lt_size_gap id (by simp at hid ⊢; grind), not_false⟩
  refine hc.promoted h₃ (hl.proceeds hproceeds₃ fun id hid => hcasts id ?_)
    (hr.proceeds hproceeds₃ fun id hid => hcasts id ?_) hall
    (hreport₃.trans (hconfined.report_eq.trans hreport)) h.lt_size
  · simp only [Tree.idsOf_append, Tree.idsOf_cons, Tree.idsOf_nil, List.mem_append] at hid ⊢
    grind
  · simp only [Tree.idsOf_append, Tree.idsOf_cons, Tree.idsOf_nil, List.mem_append] at hid ⊢
    grind

/-- What has been reported is no matter for the operands. -/
theorem Operands.report (h : Operands s f fs us user k l r a b p q) (report : List Diagnostic) :
    Operands { s with report } f fs us user k l r a b p q where
  session := ⟨h.session.closed, h.session.universal, h.session.nodes, h.session.functions⟩
  types := h.types
  builtins := h.builtins.congr rfl rfl rfl (.refl _)
  block := h.block
  forest := h.forest
  left := ⟨h.left.type, h.left.underlying⟩
  right := ⟨h.right.type, h.right.underlying⟩

/-- So many names on operands of one type that costs stop growing make the operator ambiguous. -/
theorem Operands.returns_ambiguous (h : Operands s f fs us user k l r a b p p)
    (hop : op.promotesOperands = true) (hp : p.isArithmetic = true)
    (hmany : Cost.greatest ≤ s.types.nameCount a + s.types.nameCount b) :
    Returns (analyzeOperator user op.symbol op.promotesOperands) s fun _ s' =>
      ∃ d ds tied, s'.report = s.report ++ d :: ds ∧
        d.problem = .ambiguousOverload op.symbol tied := by
  unfold analyzeOperator
  refine triple_bind.mpr (triple_scopeOf.mpr ?_)
  refine triple_bind.mpr (h.returns_argumentTuple.imp ?_)
  rintro args s₁ ⟨hargs, h₁, ⟨hcountLeft, hcountRight⟩, hproceeds, hreport⟩
  have hscope : s₁.names.Has (s.tree.scope user) := hproceeds.names ▸ h.session.nodes user
  obtain ⟨id, signature, tied, ⟨b', parameters, hbuiltin⟩, hresolve⟩ :=
    resolves_ambiguous h₁.builtins h₁.types hscope hop hp hargs h₁.left.underlying
      h₁.right.underlying (by rwa [hcountLeft, hcountRight])
  refine triple_bind.mpr (hresolve.mpr ?_)
  -- Nothing is asked for exactly, but there is nothing to convert.
  rw [hop]
  refine triple_bind.mpr (triple_bind.mpr ?_)
  refine (h₁.triple_promoteOperands (if_pos (.inl rfl))).mpr ?_
  refine triple_bind.mpr (triple_pure.mpr (triple_bind.mpr (triple_bind.mpr ?_)))
  refine (triple_mapM_reads tied fun _ _ _ => Iff.rfl).mpr ?_
  refine triple_bind.mpr (triple_startOf.mpr (triple_report.mpr ?_))
  refine Triple.imp (returns_bindTo (h₁.report _).session (h₁.report _).forest
    (hbuiltin.mono rfl (.refl _))) fun _ s' hc => ?_
  obtain ⟨ds, hds, -⟩ := hc.confined.report
  simp only [hreport, List.append_assoc, List.singleton_append] at hds
  exact ⟨_, ds, tied.length, hds, rfl⟩

/-- Mixed operands are brought to the type `p.promote? q`, operands of one type stay as they are,
and the operator becomes a call at that type. Costs are numbers of 32 bits whose sums stop at
the greatest one, so the names on the operands of that type must be too few to hide it. -/
theorem promoted_analyzeOperator (h : Operands s f fs us user (.binary op) l r a b p q)
    (hp : p.isArithmetic = true) (hq : q.isArithmetic = true) (hand : op ≠ .and) (hor : op ≠ .or) :
    ∃ target, (if p = q then some p else p.promote? q) = some target ∧
      (s.types.namesOver target a + s.types.namesOver target b < Cost.greatest →
        Returns (analyzeOperator user op.symbol op.promotesOperands) s fun call s' =>
          ∃ cl l' cr r', Promoted s f fs us user op l r p q target call s' cl l' cr r') := by
  have hop : op.promotesOperands = true := by cases op <;> first | rfl | contradiction
  by_cases hpq : p = q
  · subst hpq
    refine ⟨p, if_pos rfl, fun hnames => h.returns_alike hop hp ?_⟩
    rwa [TypeTable.namesOver, TypeTable.namesOver, if_pos h.left.underlying,
      if_pos h.right.underlying] at hnames
  · obtain ⟨target, hpromote, htarget⟩ := Primitive.exists_promote? hp hq hpq
    have ht : target.isArithmetic = true := by rcases htarget with rfl | rfl <;> assumption
    exact ⟨target, (if_neg hpq).trans hpromote, h.returns_mixed hop ht hpromote⟩

-- ---------------------------------------------------------------------------
-- Sums of lengths
-- ---------------------------------------------------------------------------

/-- Lengths are floats under `n` names. -/
def lengths (t : TypeTable) : Nat → TypeId × TypeTable
  | 0 => (Primitive.float64.typeId, t)
  | n + 1 =>
    let length := lengths t n
    length.2.makeNamed length.1 "Length" [] []

/-- The type `length` of `t'`, which came after `t`, is a float under `n` names. -/
structure IsLength (t : TypeTable) (n : Nat) (length : TypeId) (t' : TypeTable) : Prop where
  built : t'.Built
  grown : t.Extends t'
  underlying : t'.underlying? length = some .float64
  names : t'.nameCount length = n

theorem isLength_lengths {t : TypeTable} (h : t.Built) (n : Nat) :
    IsLength t n (lengths t n).1 (lengths t n).2 := by
  induction n with
  | zero =>
    obtain ⟨hunderlying, hnames⟩ := h.underlying_typeId .float64
    exact ⟨h, .refl t, hunderlying, hnames⟩
  | succ n ih =>
    rw [lengths]
    generalize lengths t n = length at ih
    obtain ⟨length, t'⟩ := length
    have hhas : t'.Has length := TypeTable.has_of_underlying ih.underlying
    rcases hid : t'.makeNamed length "Length" [] [] with ⟨named, u⟩
    have hmade := ih.built.settled.instances hhas 
      ⟨List.forall_mem_nil _, List.forall_mem_nil _, .nil⟩ ⟨List.forall_mem_nil _, rfl⟩ hid
    have hbuilt := ih.built.request (.named length "Length" [] []) (by simpa [TypeRequest.handles])
    rw [TypeRequest.answer, hid] at hbuilt
    have hcanonical := hmade.settled.canonical
    obtain ⟨hstrip, hcount⟩ := hcanonical.strip_named
      (hmade.isInstance.kind_nil hcanonical (hmade.grown.has hhas))
    obtain ⟨hunderlying, hnames⟩ :=
      ih.built.settled.canonical.underlying_extends hmade.grown hhas
    refine ⟨hbuilt, ih.grown.trans hmade.grown, ?_, ?_⟩
    · rw [← ih.underlying, ← hunderlying]
      simp only [TypeTable.underlying?, hstrip]
    · rw [hcount, hnames, ih.names]

/-- The last step of a block adds two values. -/
def sumNodes (s : Session) (left right : TypeId) : List Node :=
  let node kind type parent children : Node :=
    ⟨kind, default, s.universal, { Facts.none with type }, parent, children⟩
  [node .basicBlock none none [⟨1⟩, ⟨2⟩, ⟨3⟩],
    node (.symbol "n") none (some ⟨0⟩) [],
    node (.symbol "x") none (some ⟨0⟩) [],
    node (.binary .add) none (some ⟨0⟩) [⟨4⟩, ⟨5⟩],
    node (.temp ⟨0⟩) (some left) (some ⟨3⟩) [],
    node (.temp ⟨1⟩) (some right) (some ⟨3⟩) []]

def withSum (s : Session) (types : TypeTable) (left right : TypeId) : Session :=
  { s with types, temps := #[⟨1⟩, ⟨2⟩], tree := ⟨.ofList (sumNodes s left right)⟩ }

theorem nodes_withSum (s : Session) (types : TypeTable) (left right : TypeId) (i : Nat) :
    (withSum s types left right).tree.nodes[i]? = (sumNodes s left right)[i]? :=
  Table.getElem?_ofList ..

/-- What stands before the last step. -/
def beforeSum : Frame :=
  ⟨⟨0⟩, .basicBlock, [.node ⟨1⟩ (.symbol "n") [], .node ⟨2⟩ (.symbol "x") []], []⟩

theorem operands_withSum (h : s.Declaring Builtin.all) (hs : s.Scoped) {types : TypeTable}
    (ht : types.Built) (hgrown : s.types.Extends types) (ha : types.underlying? a = some p)
    (hb : types.underlying? b = some q) :
    Operands (withSum s types a b) beforeSum [] [] ⟨3⟩ (.binary .add) (.node ⟨4⟩ (.temp ⟨0⟩) [])
      (.node ⟨5⟩ (.temp ⟨1⟩) []) a b p q := by
  have hscope : ∀ id, s.scopes.Has ((withSum s types a b).tree.scope id) := by
    intro id
    rw [Arena.scope, Arena.get, nodes_withSum]
    obtain ⟨_ | _ | _ | _ | _ | _ | _⟩ := id
    all_goals first | exact hs.universal | exact Nat.zero_lt_of_lt hs.universal
  have hleft : ((withSum s types a b).tree.facts ⟨4⟩).type = some a := by
    rw [Arena.facts, Arena.get, nodes_withSum]
    rfl
  have hright : ((withSum s types a b).tree.facts ⟨5⟩).type = some b := by
    rw [Arena.facts, Arena.get, nodes_withSum]
    rfl
  refine ⟨⟨hs.closed, hs.universal, hscope, hs.functions⟩, ht,
    h.builtins.congr rfl rfl rfl hgrown, rfl, ⟨?_, by decide⟩, ⟨hleft, ha⟩, ⟨hright, hb⟩⟩
  simp only [plug, beforeSum, List.append_nil, List.cons_append, List.nil_append,
    Arena.holdsAll_cons, Arena.holdsAll_nil, Arena.holds_node, and_true, Arena.links,
    nodes_withSum]
  refine ⟨rfl, rfl, rfl, rfl, rfl, rfl⟩

/-- A length of `n` names is added to an integer. -/
def mixedSum (n : Nat) : Session :=
  let length := lengths (Session.new "main").types n
  withSum (.new "main") length.2 Primitive.int32.typeId length.1

theorem operands_mixedSum (n : Nat) :
    ∃ a b, Operands (mixedSum n) beforeSum [] [] ⟨3⟩ (.binary .add) (.node ⟨4⟩ (.temp ⟨0⟩) [])
      (.node ⟨5⟩ (.temp ⟨1⟩) []) a b .int32 .float64 ∧ (mixedSum n).types.nameCount b = n := by
  have hnew := Session.declaring_new "main"
  have hlength := isLength_lengths hnew.types n
  exact ⟨_, _, operands_withSum hnew (Session.scoped_new "main") hlength.built hlength.grown
    (hlength.built.underlying_typeId .int32).1 hlength.underlying, hlength.names⟩

/-- The integer is converted, and the sum is one of floats. -/
theorem promoted_analyzeOperator_mixedSum :
    ∃ a b, Operands (mixedSum 1) beforeSum [] [] ⟨3⟩ (.binary .add) (.node ⟨4⟩ (.temp ⟨0⟩) [])
      (.node ⟨5⟩ (.temp ⟨1⟩) []) a b .int32 .float64 ∧
    (mixedSum 1).types.namesOver .float64 a + (mixedSum 1).types.namesOver .float64 b <
      Cost.greatest ∧
    Returns (analyzeOperator ⟨3⟩ BinaryOp.add.symbol BinaryOp.add.promotesOperands) (mixedSum 1)
      fun call s' => ∃ cl l' cr r', Promoted (mixedSum 1) beforeSum [] [] ⟨3⟩ .add
        (.node ⟨4⟩ (.temp ⟨0⟩) []) (.node ⟨5⟩ (.temp ⟨1⟩) []) .int32 .float64 .float64 call s'
        cl l' cr r' := by
  obtain ⟨a, b, h, hcount⟩ := operands_mixedSum 1
  have hnames : (mixedSum 1).types.namesOver .float64 a + (mixedSum 1).types.namesOver .float64 b <
      Cost.greatest := by
    rw [TypeTable.namesOver, TypeTable.namesOver, h.left.underlying, h.right.underlying, hcount,
      if_neg nofun, if_pos rfl]
    decide
  refine ⟨a, b, h, hnames, ?_⟩
  -- What the session is no longer matters, and computing it would be slow.
  generalize mixedSum 1 = s at h hnames ⊢
  obtain ⟨target, htarget, hrun⟩ := promoted_analyzeOperator h rfl rfl nofun nofun
  obtain rfl : .float64 = target := Option.some.inj htarget
  exact hrun hnames

/-- Two lengths of `n` names are added. -/
def lengthSum (n : Nat) : Session :=
  let length := lengths (Session.new "main").types n
  withSum (.new "main") length.2 length.1 length.1

theorem operands_lengthSum (n : Nat) :
    ∃ a, Operands (lengthSum n) beforeSum [] [] ⟨3⟩ (.binary .add) (.node ⟨4⟩ (.temp ⟨0⟩) [])
      (.node ⟨5⟩ (.temp ⟨1⟩) []) a a .float64 .float64 ∧ (lengthSum n).types.nameCount a = n := by
  have hnew := Session.declaring_new "main"
  have hlength := isLength_lengths hnew.types n
  exact ⟨_, operands_withSum hnew (Session.scoped_new "main") hlength.built hlength.grown
    hlength.underlying hlength.underlying, hlength.names⟩

/-- With 2³¹ names on both operands every conversion costs as much as the names alone, and the
sum of two floats is ambiguous. -/
theorem not_promoted_analyzeOperator :
    ∃ a, Operands (lengthSum (2 ^ 31)) beforeSum [] [] ⟨3⟩ (.binary .add)
      (.node ⟨4⟩ (.temp ⟨0⟩) []) (.node ⟨5⟩ (.temp ⟨1⟩) []) a a .float64 .float64 ∧
    ¬ Returns (analyzeOperator ⟨3⟩ BinaryOp.add.symbol BinaryOp.add.promotesOperands)
      (lengthSum (2 ^ 31)) fun call s' => ∃ cl l' cr r', Promoted (lengthSum (2 ^ 31)) beforeSum []
        [] ⟨3⟩ .add (.node ⟨4⟩ (.temp ⟨0⟩) []) (.node ⟨5⟩ (.temp ⟨1⟩) []) .float64 .float64
        .float64 call s' cl l' cr r' := by
  obtain ⟨a, h, hcount⟩ := operands_lengthSum (2 ^ 31)
  refine ⟨a, h, ?_⟩
  generalize lengthSum (2 ^ 31) = s at h hcount ⊢
  intro hpromoted
  have hmany : Cost.greatest ≤ s.types.nameCount a + s.types.nameCount a := by
    rw [hcount]
    decide
  have hambiguous : Returns (analyzeOperator ⟨3⟩ BinaryOp.add.symbol
      BinaryOp.add.promotesOperands) s _ := h.returns_ambiguous rfl rfl hmany
  obtain ⟨call, s', hrun, cl, l', cr, r', hp⟩ := hpromoted.exists
  obtain ⟨call', s'', hrun', d, ds, tied, hreport, hproblem⟩ := hambiguous.exists
  obtain rfl := (Prod.mk.inj (hrun.symm.trans hrun')).2
  obtain ⟨ds', hreport', honly⟩ := hp.report
  obtain rfl : ds' = d :: ds := List.append_cancel_left (hreport'.symm.trans hreport)
  have hzero := honly d List.mem_cons_self
  rw [hproblem] at hzero
  cases hzero

end Typing

end BlockLang
