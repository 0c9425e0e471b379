import BlockLang.Proofs.Lowered.Feeds

/-!
# What inference makes of a tree

`Settles` relates lowered statements to what inference leaves of them, apart from any
arena. Conversions come before the operations that need them, calls of built-in operators
take the place of operations, and a branch whose condition is known gives way to the arm
that is taken, or to nothing. As in lowering, new nodes have handles from `first` on.
-/

namespace BlockLang

/-- The steps whose place another node may take. -/
def NodeKind.isOperation : NodeKind → Bool
  | .binary _ | .unary _ | .call _ => true
  | _ => false

/-- The nodes that only inference makes. -/
def NodeKind.isInferred : NodeKind → Bool
  | .builtinCall _ | .cast _ => true
  | _ => false

/-- A temporary, with nothing below it. -/
def IsTemp (t : Tree) : Prop := ∃ j temp, t = .node j (.temp temp) []

/-- A new conversion of a temporary. -/
structure IsCast (first : Nat) (t : Tree) : Prop where
  kind : ∃ target, t.kind = .cast target
  operands : ∀ c ∈ t.children, IsTemp c
  fresh : first ≤ t.handle.index

/-- What a step becomes. -/
inductive Resolves (first : Nat) : Tree → List Tree → Prop
  | same : Resolves first t [t]
  | kept (kind : k.isOperation = true) (casts : ∀ c ∈ cs, IsCast first c)
    (operands : ∀ o ∈ os', IsTemp o) : Resolves first (.node i k os) (cs ++ [.node i k os'])
  | builtin (kind : k.isOperation = true) (casts : ∀ c ∈ cs, IsCast first c)
    (operands : ∀ o ∈ os', IsTemp o) (fresh : first ≤ j.index) :
    Resolves first (.node i k os) (cs ++ [.node j (.builtinCall op) os'])

/-- What a statement becomes. -/
inductive Settles (first : Nat) : Tree → Tree → Prop
  | basicBlock (steps : List.Forall₂ (Resolves first) cs rs) :
    Settles first (.node i .basicBlock cs) (.node i .basicBlock rs.flatten)
  | pair (left : Settles first a a') (right : Settles first b b') :
    Settles first (.node i .pair [a, b]) (.node i .pair [a', b'])
  | ifThen (condition : Settles first c c') (arm : Settles first a a') :
    Settles first (.node i .ifElse [c, a]) (.node i .ifElse [c', a'])
  | ifElse (condition : Settles first c c') (arm : Settles first a a')
    (other : Settles first b b') :
    Settles first (.node i .ifElse [c, a, b]) (.node i .ifElse [c', a', b'])
  | whileLoop (condition : Settles first c c') (body : Settles first b b') :
    Settles first (.node i .whileLoop [c, b]) (.node i .whileLoop [c', b'])
  /-- The condition holds. -/
  | taken (condition : Settles first c c') (arm : Settles first a a') :
    Settles first (.node i .ifElse (c :: a :: bs)) a'
  /-- The condition does not hold. -/
  | notTaken (condition : Settles first c c') (other : Settles first b b') :
    Settles first (.node i .ifElse [c, a, b]) b'
  /-- The condition does not hold, and nothing is left. -/
  | dropped (kind : k.isControlFlow = true) (condition : Settles first c c')
    (fresh : first ≤ j.index) : Settles first (.node i k [c, b]) (.node j .basicBlock [])
  | funcDecl (body : Settles first b b') :
    Settles first (.node i (.funcDecl d) [b]) (.node i (.funcDecl d) [b'])
  | typeDecl : Settles first (.node i (.typeDecl name) []) (.node i (.typeDecl name) [])
  | importDecl : Settles first (.node i (.importDecl name isPublic) [])
      (.node i (.importDecl name isPublic) [])

variable {first first' : Nat} {t t' : Tree}

theorem IsCast.mono (h : IsCast first t) (hf : first' ≤ first) : IsCast first' t :=
  ⟨h.kind, h.operands, Nat.le_trans hf h.fresh⟩

theorem Resolves.mono {rs : List Tree} (h : Resolves first t rs) (hf : first' ≤ first) :
    Resolves first' t rs := by
  cases h with
  | same => exact .same
  | kept kind casts operands => exact .kept kind (fun c hc => (casts c hc).mono hf) operands
  | builtin kind casts operands fresh =>
    exact .builtin kind (fun c hc => (casts c hc).mono hf) operands (Nat.le_trans hf fresh)

theorem Settles.mono (h : Settles first t t') (hf : first' ≤ first) : Settles first' t t' := by
  induction h with
  | basicBlock steps => exact .basicBlock (steps.imp fun _ _ hr => hr.mono hf)
  | pair _ _ iha ihb => exact .pair iha ihb
  | ifThen _ _ ihc iha => exact .ifThen ihc iha
  | ifElse _ _ _ ihc iha ihb => exact .ifElse ihc iha ihb
  | whileLoop _ _ ihc ihb => exact .whileLoop ihc ihb
  | taken _ _ ihc iha => exact .taken ihc iha
  | notTaken _ _ ihc ihb => exact .notTaken ihc ihb
  | dropped kind _ fresh ihc => exact .dropped kind ihc (Nat.le_trans hf fresh)
  | funcDecl _ ih => exact .funcDecl ih
  | typeDecl => exact .typeDecl
  | importDecl => exact .importDecl

/-- All arms of a conditional are kept. -/
theorem Settles.conditional {as as' : List Tree} (hlen : as.length = 1 ∨ as.length = 2)
    (hc : Settles first c c') (ha : List.Forall₂ (Settles first) as as') :
    Settles first (.node i .ifElse (c :: as)) (.node i .ifElse (c' :: as')) := by
  rcases ha with _ | ⟨ha, _ | ⟨hb, _ | _⟩⟩
  · simp at hlen
  · exact .ifThen hc ha
  · exact .ifElse hc ha hb
  · simp at hlen

-- ---------------------------------------------------------------------------
-- Lowered form is kept
-- ---------------------------------------------------------------------------

theorem IsCast.step (h : IsCast first t) : Step t := by
  obtain ⟨target, hk⟩ := h.kind
  exact ⟨by rw [hk]; rfl, h.operands⟩

/-- Steps stay steps. -/
theorem Resolves.steps {rs : List Tree} (h : Resolves first t rs) (hs : Step t) :
    ∀ r ∈ rs, Step r := by
  cases h with
  | same => simpa using hs
  | kept _ casts operands =>
    exact List.forall_mem_append.mpr ⟨fun c hc => (casts c hc).step,
      by simpa using ⟨hs.kind, operands⟩⟩
  | builtin _ casts operands =>
    exact List.forall_mem_append.mpr ⟨fun c hc => (casts c hc).step, by simpa using ⟨rfl, operands⟩⟩

theorem Settles.lowered (h : Settles first t t') (hl : Lowered t) : Lowered t' := by
  induction h with
  | basicBlock steps =>
    cases hl with
    | basicBlock hs =>
      refine .basicBlock fun r hr => ?_
      induction steps with
      | nil => simp at hr
      | cons head _ ih =>
        rcases List.mem_append.mp hr with hr | hr
        · exact head.steps (hs _ List.mem_cons_self) r hr
        · exact ih (fun c hc => hs c (List.mem_cons_of_mem _ hc)) hr
  | pair _ _ iha ihb =>
    cases hl with
    | pair ha hb => exact .pair (iha ha) (ihb hb)
  | ifThen _ _ ihc iha =>
    cases hl with
    | ifThen hc ha => exact .ifThen (ihc hc) (iha ha)
  | ifElse _ _ _ ihc iha ihb =>
    cases hl with
    | ifElse hc ha hb => exact .ifElse (ihc hc) (iha ha) (ihb hb)
  | whileLoop _ _ ihc ihb =>
    cases hl with
    | whileLoop hc hb => exact .whileLoop (ihc hc) (ihb hb)
  | taken _ _ _ iha =>
    cases hl with
    | ifThen _ ha => exact iha ha
    | ifElse _ ha _ => exact iha ha
  | notTaken _ _ _ ihb =>
    cases hl with
    | ifElse _ _ hb => exact ihb hb
  | dropped => exact .basicBlock (by simp)
  | funcDecl _ ih =>
    cases hl with
    | funcDecl hb => exact .funcDecl (ih hb)
  | typeDecl => exact .typeDecl
  | importDecl => exact .importDecl

theorem importFree_step (hk : k.isImport = false) (ho : ∀ o ∈ os, IsTemp o) :
    (Tree.node i k os).ImportFree := by
  refine Tree.importFree_node.mpr ⟨fun o hm => ?_, hk⟩
  obtain ⟨j, τ, rfl⟩ := ho o hm
  exact .leaf rfl

theorem IsCast.importFree (h : IsCast first t) : t.ImportFree := by
  obtain ⟨⟨target, hk⟩, ho, -⟩ := h
  cases t with
  | node i k os =>
    obtain rfl : k = .cast target := hk
    exact importFree_step rfl ho

theorem isStep_of_isOperation {k : NodeKind} (h : k.isOperation = true) : k.isStep = true := by
  cases k <;> first | rfl | simp [NodeKind.isOperation] at h

theorem Resolves.importFree {rs : List Tree} (h : Resolves first t rs) (ht : t.ImportFree) :
    ∀ r ∈ rs, r.ImportFree := by
  cases h with
  | same => simpa using ht
  | kept kind casts operands =>
    exact List.forall_mem_append.mpr ⟨fun c hc => (casts c hc).importFree, by
      simpa using importFree_step (isImport_of_isStep (isStep_of_isOperation kind)) operands⟩
  | builtin _ casts operands =>
    exact List.forall_mem_append.mpr ⟨fun c hc => (casts c hc).importFree, by
      simpa using importFree_step rfl operands⟩

/-- Imports do not come new. -/
theorem Settles.importFree (h : Settles first t t') (ht : t.ImportFree) : t'.ImportFree := by
  induction h with
  | basicBlock steps =>
    obtain ⟨hcs, hk⟩ := Tree.importFree_node.mp ht
    refine Tree.importFree_node.mpr ⟨fun r hr => ?_, hk⟩
    clear ht
    induction steps with
    | nil => simp at hr
    | cons head _ ih =>
      rw [List.forall_mem_cons] at hcs
      rcases List.mem_append.mp hr with hr | hr
      · exact head.importFree hcs.1 r hr
      · exact ih hcs.2 hr
  | pair _ _ iha ihb =>
    exact Tree.importFree_node.mpr
      ⟨by simpa using ⟨iha (ht.child (by simp)), ihb (ht.child (by simp))⟩, rfl⟩
  | ifThen _ _ ihc iha =>
    exact Tree.importFree_node.mpr
      ⟨by simpa using ⟨ihc (ht.child (by simp)), iha (ht.child (by simp))⟩, rfl⟩
  | ifElse _ _ _ ihc iha ihb =>
    exact Tree.importFree_node.mpr ⟨by
      simpa using ⟨ihc (ht.child (by simp)), iha (ht.child (by simp)), ihb (ht.child (by simp))⟩,
      rfl⟩
  | whileLoop _ _ ihc ihb =>
    exact Tree.importFree_node.mpr
      ⟨by simpa using ⟨ihc (ht.child (by simp)), ihb (ht.child (by simp))⟩, rfl⟩
  | taken _ _ _ iha => exact iha (ht.child (by simp))
  | notTaken _ _ _ ihb => exact ihb (ht.child (by simp))
  | dropped => exact .leaf rfl
  | funcDecl _ ih =>
    exact Tree.importFree_node.mpr ⟨by simpa using ih (ht.child (by simp)), rfl⟩
  | typeDecl => exact ht
  | importDecl => exact ht

theorem Settles.lowered_all {ts ts' : List Tree} (h : List.Forall₂ (Settles first) ts ts')
    (hl : ∀ t ∈ ts, Lowered t) : ∀ t ∈ ts', Lowered t := by
  induction h with
  | nil => exact nofun
  | cons head _ ih =>
    obtain ⟨ht, hts⟩ := List.forall_mem_cons.mp hl
    exact List.forall_mem_cons.mpr ⟨head.lowered ht, ih hts⟩

end BlockLang
