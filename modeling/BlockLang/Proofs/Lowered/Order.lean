import BlockLang.Proofs.Lowered.Form

/-!
# Order and wiring

Lowering keeps the nodes of a tree in their order. What is dropped are the nodes that
only group others, and what is added are basic blocks, pairs, temporaries and values
of the empty tuple. Each operand of a step is a temporary, set by the node that the
value of the operand comes from.
-/

namespace BlockLang

/-- Whether lowering adds nodes of this kind. -/
def NodeKind.isAdded : NodeKind → Bool
  | .basicBlock | .pair | .temp _ | .nullValue => true
  | _ => false

theorem NodeKind.of_isControlFlow {k : NodeKind} (h : k.isControlFlow = true) :
    k.isStep = false ∧ k.isGroup = false ∧ k.isIdle = false ∧ k.isAdded = false := by
  cases k <;> first
    | exact ⟨rfl, rfl, rfl, rfl⟩
    | exact absurd h (by simp [isControlFlow])

theorem NodeKind.of_isExpression {k : NodeKind} (h : k.isExpression = true) :
    k.isGroup = false ∧ k.isIdle = false := by
  cases k <;> first | exact ⟨rfl, rfl⟩ | exact absurd h (by simp [isExpression])

namespace Tree

/-- The handles of trees without the nodes of erased kinds, each after those below it. -/
def keptOf (erased : NodeKind → Bool) (ts : List Tree) : List NodeId :=
  ((subtreesOf ts).filter fun u => !erased u.kind).map handle

/-- The handles of a tree without the nodes of erased kinds. -/
def kept (erased : NodeKind → Bool) (t : Tree) : List NodeId := keptOf erased [t]

variable {erased : NodeKind → Bool}

@[simp] theorem keptOf_nil : keptOf erased [] = [] := rfl

@[simp] theorem keptOf_append (ts us : List Tree) :
    keptOf erased (ts ++ us) = keptOf erased ts ++ keptOf erased us := by
  simp [keptOf]

theorem keptOf_singleton (t : Tree) : keptOf erased [t] = kept erased t := rfl

theorem keptOf_cons (t : Tree) (ts : List Tree) :
    keptOf erased (t :: ts) = kept erased t ++ keptOf erased ts := by
  simp [kept, keptOf]

theorem kept_erased (h : erased k = true) :
    kept erased (node i k cs) = keptOf erased cs := by
  simp [kept, keptOf, h]

theorem kept_node (h : erased k = false) :
    kept erased (node i k cs) = keptOf erased cs ++ [i] := by
  simp [kept, keptOf, h]

mutual
/-- The node that the value of a tree comes from, if it has a value: the last statement
decides for a group. -/
def valueNode : Tree → Option NodeId
  | node id kind children =>
    if kind.isGroup then lastValue children else if kind.isIdle then none else some id
def lastValue : List Tree → Option NodeId
  | [] => none
  | [t] => t.valueNode
  | _ :: t :: ts => lastValue (t :: ts)
end

theorem valueNode_last (h : k.isGroup = true) (ts : List Tree) (t : Tree) :
    (node i k (ts ++ [t])).valueNode = t.valueNode := by
  have hlast : lastValue (ts ++ [t]) = t.valueNode := by
    induction ts with
    | nil => rw [List.nil_append, lastValue]
    | cons u us ih =>
      cases us with
      | nil => rw [List.cons_append, List.nil_append, lastValue, lastValue]
      | cons v vs => rw [List.cons_append, List.cons_append, lastValue, ← List.cons_append, ih]
  rw [valueNode, if_pos h, hlast]

theorem valueNode_nothing (h : k.isGroup = true) : (node i k []).valueNode = none := by
  rw [valueNode, if_pos h, lastValue]

theorem valueNode_idle {t : Tree} (h : t.kind.isIdle = true) : t.valueNode = none := by
  cases t with
  | node i k cs =>
    rw [kind_node] at h
    have hg : k.isGroup = false := by
      cases k <;> first | rfl | exact absurd h (by simp [NodeKind.isIdle])
    rw [valueNode, if_neg (by simp [hg]), if_pos h]

theorem valueNode_self (hg : k.isGroup = false) (hi : k.isIdle = false) :
    (node i k cs).valueNode = some i := by
  rw [valueNode, if_neg (by simp [hg]), if_neg (by simp [hi])]

end Tree

open BlockLang.Tree (subtreesOf kept keptOf)

-- ---------------------------------------------------------------------------
-- Order
-- ---------------------------------------------------------------------------

theorem Packs.kept (h : Packs first steps t) :
    kept NodeKind.isAdded t = keptOf NodeKind.isAdded steps := by
  induction h with
  | run => exact Tree.kept_erased rfl
  | single => rfl
  | pair _ _ _ iha ihb =>
    rw [Tree.kept_erased rfl, Tree.keptOf_cons, Tree.keptOf_singleton, iha, ihb,
      Tree.keptOf_append]

/-- Lowering keeps the nodes in their order. -/
def Lowers.Keeps : Judgement → Prop
  | .statement t t' => t.Source → kept NodeKind.isAdded t' = kept NodeKind.isGroup t
  | .statements ts ts' | .effects ts ts' =>
    (∀ t ∈ ts, t.Source) → keptOf NodeKind.isAdded ts' = keptOf NodeKind.isGroup ts
  | .value t steps _ => t.Source → keptOf NodeKind.isAdded steps = kept NodeKind.isGroup t
  | .values ts steps temps => (∀ t ∈ ts, t.Source) →
    keptOf NodeKind.isAdded steps = keptOf NodeKind.isGroup ts ∧
      keptOf NodeKind.isAdded temps = []

theorem keptOf_null (j : NodeId) : keptOf NodeKind.isAdded [.node j .nullValue []] = [] := rfl

/-- A step of the source is neither a group nor added. -/
theorem not_isAdded_of_step (hs : (Tree.node i k cs).Source) (h : k.isStep = true) :
    k.isGroup = false ∧ k.isAdded = false := by
  have harity := hs.shaped.arity
  cases k <;> first
    | exact ⟨rfl, rfl⟩
    | exact False.elim harity
    | exact absurd h (by simp [NodeKind.isStep, NodeKind.isExpression])

theorem kept_step (hs : (Tree.node i k cs).Source) (h : k.isStep = true)
    (hout : keptOf NodeKind.isAdded out = keptOf NodeKind.isGroup cs)
    (htemps : keptOf NodeKind.isAdded ts = []) :
    keptOf NodeKind.isAdded (out ++ [.node i k ts]) = kept NodeKind.isGroup (.node i k cs) := by
  obtain ⟨hg, ha⟩ := not_isAdded_of_step hs h
  rw [Tree.keptOf_append, hout, Tree.keptOf_singleton, Tree.kept_node ha, htemps, Tree.kept_node hg,
    List.nil_append]

theorem Lowers.keeps (h : Lowers first temps judgement) : Keeps judgement := by
  induction h with
  | pair _ _ iha ihb =>
    intro hs
    rw [Tree.kept_erased rfl, Tree.kept_erased rfl]
    simp only [Tree.keptOf_cons, iha (hs.child (by simp)), ihb (hs.child (by simp)),
      Tree.keptOf_nil]
  | emptyBlock => exact fun _ => rfl
  | block _ ih =>
    intro hs
    rw [ih (hs.child (by simp)), Tree.kept_erased rfl, Tree.keptOf_singleton]
  | funcDecl _ ih =>
    intro hs
    rw [Tree.kept_node rfl, Tree.kept_node rfl, Tree.keptOf_singleton, Tree.keptOf_singleton,
      ih (hs.child (by simp))]
  | typeDecl => exact fun _ => rfl
  | importDecl => exact fun _ => rfl
  | packed _ packs ih => exact fun hs => packs.kept.trans (ih (by simpa using hs))
  | noStatements => exact fun _ => rfl
  | moreStatements _ _ ih ihs =>
    intro hs
    rw [Tree.keptOf_cons, Tree.keptOf_cons, ih (hs _ (by simp)),
      ihs fun t ht => hs t (by simp [ht])]
  | noEffects => exact fun _ => rfl
  | moreEffects _ _ ih ihs =>
    intro hs
    rw [Tree.keptOf_append, Tree.keptOf_cons, ih (by simpa using hs _ (by simp)),
      ihs fun t ht => hs t (by simp [ht]), Tree.keptOf_singleton]
  | group kind _ ih =>
    intro hs
    simp only [List.mem_singleton, forall_eq] at hs
    rw [ih fun c hc => hs.child hc, Tree.keptOf_singleton, Tree.kept_erased kind]
  | idle kind _ ih =>
    intro hs
    simp only [List.mem_singleton, forall_eq] at hs
    obtain ⟨hout, htemps⟩ := ih fun c hc => hs.child hc
    exact kept_step hs kind hout htemps
  | declaration _ _ _ ih => exact fun hs => ih (by simpa using hs)
  | drop _ ih => exact fun hs => ih (by simpa using hs)
  | last kind _ _ ihe ihv =>
    intro hs
    rw [Tree.keptOf_append, ihe fun c hc => hs.child (by simp [hc]), ihv (hs.child (by simp)),
      Tree.kept_erased kind, Tree.keptOf_append, Tree.keptOf_singleton]
  | nothing kind _ =>
    intro _
    rw [keptOf_null, Tree.kept_erased kind, Tree.keptOf_nil]
  | branch kind _ packs _ ihc iha =>
    intro hs
    have hc := packs.kept.trans (ihc (hs.child (by simp)))
    have ha := iha fun a ha => hs.child (by simp [ha])
    obtain ⟨-, hgroup, -, hadded⟩ := NodeKind.of_isControlFlow kind
    rw [Tree.keptOf_singleton, Tree.kept_node hadded, Tree.kept_node hgroup, Tree.keptOf_cons,
      Tree.keptOf_cons, hc, ha]
  | expression kind _ _ ih =>
    intro hs
    obtain ⟨hout, htemps⟩ := ih fun c hc => hs.child hc
    exact kept_step hs kind hout htemps
  | null _ _ _ ih =>
    intro hs
    rw [Tree.keptOf_append, ih (by simpa using hs), keptOf_null, List.append_nil,
      Tree.keptOf_singleton]
  | noValues => exact fun _ => ⟨rfl, rfl⟩
  | moreValues _ _ _ _ ih ihs =>
    intro hs
    obtain ⟨hout, htemps⟩ := ihs fun t ht => hs t (by simp [ht])
    refine ⟨?_, ?_⟩
    · rw [Tree.keptOf_append, ih (hs _ (by simp)), hout, Tree.keptOf_cons]
    · rw [Tree.keptOf_cons, htemps, Tree.kept_erased rfl, Tree.keptOf_nil, List.append_nil]

-- ---------------------------------------------------------------------------
-- Wiring
-- ---------------------------------------------------------------------------

/-- `setter` gives the value of `t`. If there is none, it is a new node among `out`. -/
def Sets (first : Nat) (out : List Tree) (t : Tree) (setter : NodeId) : Prop :=
  t.valueNode = some setter ∨
    t.valueNode = none ∧ first ≤ setter.index ∧ .node setter .nullValue [] ∈ out

/-- `t'` is a temporary for the value of `t`. -/
def Wired (first : Nat) (temps : Array NodeId) (out : List Tree) (t t' : Tree) : Prop :=
  ∃ j temp setter, t' = .node j (.temp temp) [] ∧ temps[temp.index]? = some setter ∧
    Sets first out t setter

/-- A lowered step is one of `ts` with temporaries for its operands, or new. -/
def StepOf (first : Nat) (temps : Array NodeId) (ts out : List Tree) (u' : Tree) : Prop :=
  (∃ u ∈ ts, u.handle = u'.handle ∧ u.kind = u'.kind ∧
    List.Forall₂ (Wired first temps out) u.children u'.children) ∨
  ∃ j, u' = .node j .nullValue [] ∧ first ≤ j.index

/-- Every step below `out` is one of those below `ts`. -/
def Wires (first : Nat) (temps : Array NodeId) (ts out : List Tree) : Prop :=
  ∀ u' ∈ subtreesOf out, u'.kind.isStep = true →
    StepOf first temps (subtreesOf ts) (subtreesOf out) u'

variable {first : Nat} {temps : Array NodeId} {ts us out out' : List Tree}

theorem Sets.mono (h : Sets first out t setter) (ho : out ⊆ out') : Sets first out' t setter :=
  h.imp_right fun ⟨hn, hf, hm⟩ => ⟨hn, hf, ho hm⟩

theorem Wired.mono (h : Wired first temps out t t') (ho : out ⊆ out') :
    Wired first temps out' t t' := by
  obtain ⟨j, temp, setter, he, ht, hs⟩ := h
  exact ⟨j, temp, setter, he, ht, hs.mono ho⟩

theorem StepOf.mono (h : StepOf first temps ts out u) (ht : ts ⊆ us) (ho : out ⊆ out') :
    StepOf first temps us out' u := by
  rcases h with ⟨v, hv, hh, hk, hw⟩ | h
  · exact .inl ⟨v, ht hv, hh, hk, hw.imp fun _ _ h => h.mono ho⟩
  · exact .inr h

theorem Wires.append (h : Wires first temps ts out) (h' : Wires first temps us out') :
    Wires first temps (ts ++ us) (out ++ out') := by
  intro u hu hk
  simp only [Tree.subtreesOf_append] at hu ⊢
  rcases List.mem_append.mp hu with hu | hu
  · exact (h u hu hk).mono (List.subset_append_left _ _) (List.subset_append_left _ _)
  · exact (h' u hu hk).mono (List.subset_append_right _ _) (List.subset_append_right _ _)

/-- More trees to take the steps from. -/
theorem Wires.below (h : Wires first temps cs out) : Wires first temps [.node i k cs] out := by
  intro u hu hk
  refine (h u hu hk).mono ?_ (List.Subset.refl _)
  simp

/-- The same steps in other surroundings. -/
theorem Wires.regroup (h : Wires first temps ts out) (hold : subtreesOf out ⊆ subtreesOf out')
    (hnew : ∀ u ∈ subtreesOf out', u.kind.isStep = true → u ∈ subtreesOf out) :
    Wires first temps ts out' := by
  intro u hu hk
  exact (h u (hnew u hu hk) hk).mono (List.Subset.refl _) hold

/-- A node that is no step is put over the steps. -/
theorem Wires.over (h : Wires first temps ts out) (hk : k.isStep = false) :
    Wires first temps ts [.node i k out] := by
  refine h.regroup (by simp) fun u hu hs => ?_
  simp only [Tree.subtreesOf_cons, Tree.subtrees_node, Tree.subtreesOf_nil, List.append_nil,
    List.mem_append, List.mem_singleton] at hu
  rcases hu with hu | rfl
  · exact hu
  · rw [Tree.kind_node, hk] at hs
    exact absurd hs (by simp)

theorem Wires.nil : Wires first temps ts [] := by
  intro u hu
  simp at hu

theorem Wires.null (h : first ≤ j.index) : Wires first temps ts [.node j .nullValue []] := by
  intro u hu _
  obtain rfl : u = .node j .nullValue [] := by simpa using hu
  exact .inr ⟨j, rfl, h⟩

theorem Packs.subtrees_subset (h : Packs first out t) : subtreesOf out ⊆ t.subtrees := by
  induction h with
  | run => simp
  | single => simp
  | pair _ _ _ iha ihb =>
    simp only [Tree.subtreesOf_append, Tree.subtrees_node, Tree.subtreesOf_cons,
      Tree.subtreesOf_nil, List.append_nil]
    exact List.append_subset.mpr ⟨fun u hu => by simp [iha hu], fun u hu => by simp [ihb hu]⟩

theorem Packs.step_mem (h : Packs first out t) (hu : u ∈ t.subtrees) (hk : u.kind.isStep = true) :
    u ∈ subtreesOf out := by
  induction h with
  | run =>
    simp only [Tree.subtrees_node, List.mem_append, List.mem_singleton] at hu
    rcases hu with hu | rfl
    · exact hu
    · simp [NodeKind.isStep, NodeKind.isExpression] at hk
  | single => simpa using hu
  | pair _ _ _ iha ihb =>
    simp only [Tree.subtrees_node, Tree.subtreesOf_cons, Tree.subtreesOf_nil, List.append_nil,
      List.mem_append, List.mem_singleton] at hu
    rw [Tree.subtreesOf_append, List.mem_append]
    rcases hu with (hu | hu) | rfl
    · exact .inl (iha hu)
    · exact .inr (ihb hu)
    · simp [NodeKind.isStep, NodeKind.isExpression] at hk

theorem Packs.wires (h : Packs first out t) (hw : Wires first temps ts out) :
    Wires first temps ts [t] := by
  refine hw.regroup ?_ fun u hu hk => ?_
  · simpa using h.subtrees_subset
  · exact h.step_mem (by simpa using hu) hk

/-- Steps are wired to what gives the values of their operands. -/
def Lowers.Wiring (first : Nat) (temps : Array NodeId) : Judgement → Prop
  | .statement t t' => Wires first temps [t] [t']
  | .statements ts ts' | .effects ts ts' => Wires first temps ts ts'
  | .value t steps setter => Wires first temps [t] steps ∧ Sets first (subtreesOf steps) t setter
  | .values ts steps us => Wires first temps ts steps ∧
    List.Forall₂ (Wired first temps (subtreesOf steps)) ts us

/-- A step follows the steps of its operands. -/
theorem Wires.step (h : Wires first temps cs out)
    (ho : List.Forall₂ (Wired first temps (subtreesOf out)) cs us) :
    Wires first temps [.node i k cs] (out ++ [.node i k us]) := by
  have hout : subtreesOf out ⊆ subtreesOf (out ++ [.node i k us]) := by simp
  have htemps : ∀ u ∈ subtreesOf us, u.kind.isStep = false := by
    clear h hout
    induction ho with
    | nil => simp
    | cons hw _ ih =>
      obtain ⟨j, temp, setter, rfl, -, -⟩ := hw
      simpa [NodeKind.isStep] using ih
  intro u hu hk
  simp only [Tree.subtreesOf_append, Tree.subtreesOf_cons, Tree.subtrees_node, Tree.subtreesOf_nil,
    List.append_nil, List.mem_append, List.mem_singleton] at hu
  rcases hu with hu | hu | rfl
  · exact (h.below u hu hk).mono (List.Subset.refl _) hout
  · rw [htemps u hu] at hk
    exact absurd hk (by simp)
  · exact .inl ⟨.node i k cs, by simp, rfl, rfl, ho.imp fun _ _ hw => hw.mono hout⟩

theorem Lowers.wires (h : Lowers first temps judgement) : Wiring first temps judgement := by
  induction h with
  | pair _ _ iha ihb => exact ((Wires.append iha ihb).over rfl).below
  | emptyBlock => exact Wires.nil.over rfl
  | block _ ih => exact Wires.below ih
  | funcDecl _ ih => exact (Wires.over ih rfl).below
  | typeDecl => exact Wires.nil.over rfl
  | importDecl => exact Wires.nil.over rfl
  | packed _ packs ih => exact packs.wires ih
  | noStatements => exact .nil
  | moreStatements _ _ ih ihs => exact Wires.append ih ihs
  | noEffects => exact .nil
  | moreEffects _ _ ih ihs => exact Wires.append ih ihs
  | group _ _ ih => exact Wires.below ih
  | idle _ _ ih => exact ih.1.step ih.2
  | declaration _ _ _ ih => exact ih
  | drop _ ih => exact ih.1
  | last kind _ _ ihe ihv =>
    refine ⟨(Wires.append ihe ihv.1).below, ?_⟩
    rw [Tree.subtreesOf_append, Sets, Tree.valueNode_last kind]
    exact ihv.2.mono (List.subset_append_right _ _)
  | nothing kind fresh =>
    exact ⟨.null fresh, .inr ⟨Tree.valueNode_nothing kind, fresh, by simp⟩⟩
  | branch kind _ packs _ ihc iha =>
    obtain ⟨hs, hg, hi, -⟩ := NodeKind.of_isControlFlow kind
    exact ⟨((Wires.append (packs.wires ihc.1) iha).over hs).below,
      .inl (Tree.valueNode_self hg hi)⟩
  | expression _ value _ ih =>
    obtain ⟨hg, hi⟩ := NodeKind.of_isExpression value
    exact ⟨ih.1.step ih.2, .inl (Tree.valueNode_self hg hi)⟩
  | null kind _ fresh ih =>
    refine ⟨by simpa using Wires.append ih (Wires.null fresh), ?_⟩
    exact .inr ⟨Tree.valueNode_idle kind, fresh, by simp⟩
  | noValues => exact ⟨.nil, .nil⟩
  | moreValues _ _ set _ ih ihs =>
    refine ⟨Wires.append ih.1 ihs.1, ?_⟩
    rw [Tree.subtreesOf_append]
    refine .cons ⟨_, _, _, rfl, set, ih.2.mono (List.subset_append_left _ _)⟩ ?_
    exact ihs.2.imp fun _ _ hw => hw.mono (List.subset_append_right _ _)

end BlockLang
