import BlockLang.Lowered.Build
import BlockLang.Proofs.Session.Build
import BlockLang.Proofs.Lowered.Relation

/-!
# Lowering builds what the relation says

Every function of the lowering pass takes detached trees, returns and leaves detached
trees that `Lowers` relates to them. The rest of the forest stays where it is.
-/

namespace BlockLang

open BlockLang.Frame (plug)

namespace Lower

variable {s : Session} {E : Fault → Session → Prop} {us : List Tree}

-- ---------------------------------------------------------------------------
-- New nodes
-- ---------------------------------------------------------------------------

theorem Builds.newTemp (s : Session) (node : NodeId) :
    Builds s { s with temps := s.temps.push node } := by
  refine ⟨.refl _, fun id => .inr ⟨id, rfl⟩, fun i n hn => ?_, rfl⟩
  have hlt : i < s.temps.size := (Array.getElem?_eq_some_iff.mp hn).1
  simp only [Array.getElem?_push, Nat.ne_of_lt hlt, ↓reduceIte, hn]

theorem triple_tempFor {producer : NodeId} (h : s.tree.Forest us) :
    Triple (tempFor producer) s (fun j s' => ∃ temp,
      s'.tree.Forest (.node j (.temp temp) [] :: us) ∧
      s'.temps[temp.index]? = some producer ∧ s.tree.size ≤ j.index ∧ Builds s s') E := by
  unfold tempFor
  simp only [triple_bind, Pass.triple_newTemp]
  refine (Pass.triple_addLike (s := { s with temps := s.temps.push producer }) h).imp ?_
  rintro j s' ⟨hf, rfl, hg⟩
  refine ⟨_, hf, ?_, Nat.le_refl _,
    (Builds.newTemp s producer).trans (hg.builds (.inr ⟨producer, rfl⟩))⟩
  rw [hg.rest]
  exact Array.getElem?_push_size

theorem triple_nullStep {origin : NodeId} (h : s.tree.Forest us) :
    Triple (nullStep origin) s (fun r s' => ∃ j temp, r.1 = [j] ∧
      s'.tree.Forest (.node r.2 (.temp temp) [] :: .node j .nullValue [] :: us) ∧
      s'.temps[temp.index]? = some j ∧ s.tree.size ≤ j.index ∧ s.tree.size ≤ r.2.index ∧
      Builds s s') E := by
  unfold nullStep
  simp only [triple_bind, triple_pure]
  refine (Pass.triple_addLike h).imp ?_
  rintro j s₁ ⟨hf₁, rfl, hg⟩
  have hb₁ := hg.builds (.inr ⟨origin, rfl⟩)
  refine (triple_tempFor hf₁).imp ?_
  rintro t s₂ ⟨temp, hf₂, hset, hle, hb₂⟩
  exact ⟨_, temp, rfl, hf₂, hset, Nat.le_refl _, Nat.le_trans hb₁.size_le hle, hb₁.trans hb₂⟩

-- ---------------------------------------------------------------------------
-- Packing
-- ---------------------------------------------------------------------------

theorem triple_basicBlock {steps : List Tree} (h : s.tree.Forest (steps ++ us)) :
    Triple (basicBlock (steps.map Tree.handle)) s (fun j s' =>
      s'.tree.Forest (.node j .basicBlock steps :: us) ∧ s.tree.size ≤ j.index ∧
      Builds s s') E := by
  have hadd : ∀ span scope, s.Uses scope →
      Triple (Pass.addNode .basicBlock span scope (steps.map Tree.handle)) s (fun j s' =>
        s'.tree.Forest (.node j .basicBlock steps :: us) ∧ s.tree.size ≤ j.index ∧
          Builds s s') E := by
    intro span scope hs
    refine (Pass.triple_addNode h rfl).imp ?_
    rintro j s' ⟨hf, rfl, hg⟩
    exact ⟨hf, Nat.le_refl _, hg.builds hs⟩
  unfold basicBlock
  simp only [triple_bind, Pass.triple_tree]
  split
  · exact hadd _ _ (.inr ⟨_, rfl⟩)
  · simp only [triple_bind, triple_get]
    exact hadd _ _ (.inl rfl)

/-- Steps cut into segments. -/
inductive Segments (first : Nat) : List Tree → List Tree → Prop
  | nil : Segments first [] []
  | cons (head : Packs first xs g) (tail : Segments first ys gs) :
    Segments first (xs ++ ys) (g :: gs)

theorem Segments.mono (h : Segments first out gs) (hf : first' ≤ first) :
    Segments first' out gs := by
  induction h with
  | nil => exact .nil
  | cons head _ ih => exact .cons (head.mono hf) ih

theorem triple_segments {run steps : List Tree} (h : s.tree.Forest (run ++ (steps ++ us)))
    (hr : ∀ step ∈ run, step.kind.splitsBlock = false) :
    Triple (segments (run.map Tree.handle) (steps.map Tree.handle)) s (fun ids s' => ∃ gs,
      ids = gs.map Tree.handle ∧ s'.tree.Forest (gs ++ us) ∧
        Segments s.tree.size (run ++ steps) gs ∧ Builds s s') E := by
  induction steps generalizing run s us with
  | nil =>
    rw [List.map_nil, segments]
    cases run with
    | nil => exact ⟨[], rfl, h, .nil, .refl s⟩
    | cons step run =>
      simp only [List.map_cons, List.isEmpty_cons, Bool.false_eq_true, ↓reduceIte, triple_bind,
        triple_pure]
      refine (triple_basicBlock h).imp ?_
      rintro j s' ⟨hf, hle, hb⟩
      exact ⟨[_], rfl, hf, .cons (.run hle hr) .nil, hb⟩
  | cons step steps ih =>
    have hkind : s.tree.kind step.handle = step.kind :=
      (Arena.holdsAll_iff.mp h.1 step (by simp)).kind
    rw [List.map_cons, segments]
    simp only [triple_bind, Pass.triple_kindOf, hkind]
    cases hsplit : step.kind.splitsBlock with
    | false =>
      simp only [Bool.false_eq_true, ↓reduceIte]
      have h' : s.tree.Forest (run ++ [step] ++ (steps ++ us)) := by simpa using h
      have hr' : ∀ x ∈ run ++ [step], x.kind.splitsBlock = false := by
        simpa [or_imp, forall_and] using ⟨hr, hsplit⟩
      simpa using ih h' hr'
    | true =>
      simp only [↓reduceIte]
      -- the step and the run before it are set aside
      have hrest : ∀ s₁ before, s₁.tree.Forest (before ++ (steps ++ us)) →
          Triple (segments [] (steps.map Tree.handle)) s₁ (fun ids s' => ∃ gs,
            ids = gs.map Tree.handle ∧ s'.tree.Forest (before ++ (gs ++ us)) ∧
              Segments s₁.tree.size steps gs ∧ Builds s₁ s') E := by
        intro s₁ before h₁
        have h₂ : s₁.tree.Forest ([] ++ (steps ++ (before ++ us))) := h₁.swap before steps
        refine (ih h₂ (by simp)).imp ?_
        rintro ids s' ⟨gs, hids, hf, hsegs, hb⟩
        exact ⟨gs, hids, hf.swap gs before, hsegs, hb⟩
      cases run with
      | nil =>
        simp only [List.map_nil, List.isEmpty_nil, ↓reduceIte, triple_bind, triple_pure]
        refine (hrest s [step] (by simpa using h)).imp ?_
        rintro ids s' ⟨gs, rfl, hf, hsegs, hb⟩
        have hcons : Segments s.tree.size ([step] ++ steps) (step :: gs) :=
          .cons (.single hsplit) hsegs
        exact ⟨step :: gs, rfl, by simpa using hf, hcons, hb⟩
      | cons x run =>
        simp only [List.map_cons, List.isEmpty_cons, Bool.false_eq_true, ↓reduceIte, triple_bind,
          triple_pure]
        refine (triple_basicBlock h).imp ?_
        rintro j s₁ ⟨hf₁, hle, hb₁⟩
        refine (hrest s₁ [.node j .basicBlock (x :: run), step] (by simpa using hf₁)).imp ?_
        rintro ids s' ⟨gs, rfl, hf, hsegs, hb⟩
        refine ⟨.node j .basicBlock (x :: run) :: step :: gs, rfl, by simpa using hf, ?_,
          hb₁.trans hb⟩
        exact .cons (.run hle hr) (.cons (.single hsplit) (hsegs.mono hb₁.size_le))

/-- Segments are chained into one tree. -/
theorem triple_chainSegments {gs out : List Tree} (h : s.tree.Forest (gs ++ us))
    (hg : Segments first out gs) (hfirst : first ≤ s.tree.size) :
    Triple (chainSegments (gs.map Tree.handle)) s (fun id s' =>
      (id = none ∧ out = [] ∧ s'.tree.Forest us ∨
        ∃ t, id = some t.handle ∧ s'.tree.Forest (t :: us) ∧ Packs first out t) ∧
      Builds s s') E := by
  induction hg generalizing s us with
  | nil => exact ⟨.inl ⟨rfl, rfl, h⟩, .refl s⟩
  | @cons xs g ys gs head tail ih =>
    cases gs with
    | nil =>
      cases tail
      exact ⟨.inr ⟨g, rfl, h, by simpa using head⟩, .refl s⟩
    | cons g' gs =>
      have hrest : s.tree.Forest (g' :: gs ++ g :: us) := h.perm List.perm_middle.symm
      simp only [List.map_cons, chainSegments, triple_bind]
      refine (ih hrest hfirst).imp ?_
      rintro id s₁ ⟨⟨rfl, rfl, hf⟩ | ⟨t, rfl, hf, hp⟩, hb₁⟩
      · exact ⟨.inr ⟨g, rfl, hf, by simpa using head⟩, hb₁⟩
      · simp only [triple_bind, Pass.triple_tree]
        have hf' : s₁.tree.Forest ([g, t] ++ us) := hf.perm (.swap _ _ _)
        refine (Pass.triple_addNode hf' rfl).imp ?_
        rintro j s₂ ⟨hf₂, rfl, hg⟩
        refine ⟨.inr ⟨_, rfl, hf₂, .pair ?_ head hp⟩, hb₁.trans (hg.builds (.inr ⟨_, rfl⟩))⟩
        exact Nat.le_trans hfirst hb₁.size_le

theorem triple_pack {origin : NodeId} {out : List Tree} (h : s.tree.Forest (out ++ us)) :
    Triple (pack origin (out.map Tree.handle)) s (fun id s' => ∃ t, t.handle = id ∧
      s'.tree.Forest (t :: us) ∧ Packs s.tree.size out t ∧ Builds s s') E := by
  unfold pack
  simp only [triple_bind]
  have h' : s.tree.Forest ([] ++ (out ++ us)) := h
  refine (triple_segments h' (by simp)).imp ?_
  rintro ids s₁ ⟨gs, rfl, hf₁, hsegs, hb₁⟩
  refine (triple_chainSegments hf₁ hsegs hb₁.size_le).imp ?_
  rintro id s₂ ⟨⟨rfl, hout, hf⟩ | ⟨t, rfl, hf, hp⟩, hb₂⟩
  · refine (Pass.triple_addLike hf).imp ?_
    rintro j s₃ ⟨hf₃, rfl, hg⟩
    have hb₃ := hg.builds (.inr ⟨origin, rfl⟩)
    obtain rfl : out = [] := by simpa using hout
    refine ⟨_, rfl, hf₃, .run ?_ (by simp), (hb₁.trans hb₂).trans hb₃⟩
    exact (hb₁.trans hb₂).size_le
  · exact ⟨t, rfl, hf, by simpa using hp, hb₁.trans hb₂⟩

-- ---------------------------------------------------------------------------
-- The functions of the pass
-- ---------------------------------------------------------------------------

/-- The kinds that `statement` does not hand on to be flattened. -/
def isUnpacked : NodeKind → Bool
  | .pair | .block => true
  | kind => kind.isDeclaration

/-- A statement is lowered. -/
def StatementWorks (lower : NodeId → Pass NodeId) (t : Tree) : Prop :=
  ∀ s us, s.tree.Forest (t :: us) → Returns (lower t.handle) s fun id s' => ∃ t', t'.handle = id ∧
    s'.tree.Forest (t' :: us) ∧ Builds s s' ∧ Lowers s.tree.size s'.temps (.statement t t') ∧
    (t.kind.isDeclaration = true → t'.kind = t.kind)

/-- The steps of a statement are returned. -/
def EffectWorks (flatten : NodeId → Pass (List NodeId)) (t : Tree) : Prop :=
  ∀ s us, s.tree.Forest (t :: us) → Returns (flatten t.handle) s fun ids s' => ∃ out,
    ids = out.map Tree.handle ∧ s'.tree.Forest (out ++ us) ∧ Builds s s' ∧
    Lowers s.tree.size s'.temps (.effects [t] out)

/-- The steps of a value and a temporary for it, from session `s` to `s'`. -/
def Valued (s s' : Session) (us : List Tree) (t : Tree) (r : List NodeId × NodeId) : Prop :=
  ∃ out temp setter, r.1 = out.map Tree.handle ∧
    s'.tree.Forest (.node r.2 (.temp temp) [] :: (out ++ us)) ∧ Builds s s' ∧
    s.tree.size ≤ r.2.index ∧ s'.temps[temp.index]? = some setter ∧
    Lowers s.tree.size s'.temps (.value t out setter)

/-- The steps of a value and a temporary for it are returned. -/
def ValueWorks (flatten : NodeId → Pass (List NodeId × NodeId)) (t : Tree) : Prop :=
  ∀ s us, s.tree.Forest (t :: us) → Returns (flatten t.handle) s fun r s' => Valued s s' us t r

theorem returns_effects {flatten : NodeId → Pass (List NodeId)} {cs : List Tree}
    (hf : ∀ c ∈ cs, EffectWorks flatten c) (h : s.tree.Forest (cs ++ us)) :
    Returns ((cs.map Tree.handle).mapM flatten) s fun idss s' => ∃ out,
      idss.flatten = out.map Tree.handle ∧ s'.tree.Forest (out ++ us) ∧ Builds s s' ∧
        Lowers s.tree.size s'.temps (.effects cs out) := by
  induction cs generalizing s us with
  | nil => exact ⟨[], rfl, h, .refl s, .noEffects⟩
  | cons c cs ih =>
    simp only [List.map_cons, Returns, triple_mapM_cons]
    refine (hf c (by simp) s (cs ++ us) h).imp ?_
    rintro ids s₁ ⟨out, rfl, h₁, hb₁, hl₁⟩
    refine (ih (fun d hd => hf d (by simp [hd])) (h₁.swap out cs)).imp ?_
    rintro idss s₂ ⟨outs, hids, h₂, hb₂, hl₂⟩
    refine ⟨out ++ outs, by simp [hids], ?_, hb₁.trans hb₂, ?_⟩
    · rw [List.append_assoc]
      exact h₂.swap outs out
    · exact .moreEffects (hl₁.mono (Nat.le_refl _) hb₂.temps)
        (hl₂.mono hb₁.size_le fun _ _ hn => hn)

/-- Lowered statements take their places below a node one after another. -/
theorem returns_pushAll {lower : NodeId → Pass NodeId} {cs done : List Tree}
    (hf : ∀ c ∈ cs, StatementWorks lower c) (h : s.tree.Forest (.node i k done :: (cs ++ us))) :
    Returns ((cs.map Tree.handle).forM fun child => do Pass.pushChild i (← lower child)) s
      fun _ s' => ∃ cs', s'.tree.Forest (.node i k (done ++ cs') :: us) ∧ Builds s s' ∧
        Lowers s.tree.size s'.temps (.statements cs cs') := by
  induction cs generalizing s done with
  | nil => exact ⟨[], by simpa using h, .refl s, .noStatements⟩
  | cons c cs ih =>
    simp only [List.map_cons, Returns, triple_forM_cons, triple_bind]
    have hc : s.tree.Forest (c :: ([.node i k done] ++ (cs ++ us))) :=
      h.swap [.node i k done] [c]
    refine (hf c (by simp) s _ hc).imp ?_
    rintro id s₁ ⟨c', rfl, h₁, hb₁, hl₁, -⟩
    have h₁' : s₁.tree.Forest (plug [] [.node i k done] ++ c' :: (cs ++ us)) :=
      h₁.swap [c'] [.node i k done]
    refine (Pass.triple_pushChild h₁').imp ?_
    rintro - s₂ ⟨h₂, hr₂⟩
    have hb₂ := hr₂.builds
    refine (ih (fun d hd => hf d (by simp [hd])) h₂).imp ?_
    rintro - s₃ ⟨cs', h₃, hb₃, hl₃⟩
    have hb := hb₁.trans hb₂
    refine ⟨c' :: cs', by simpa using h₃, hb.trans hb₃, ?_⟩
    exact .moreStatements (hl₁.mono (Nat.le_refl _) (hb₂.trans hb₃).temps)
      (hl₃.mono hb.size_le fun _ _ hn => hn)

/-- Temporaries take the places of the operands of a node one after another. -/
theorem returns_operands {flatten : NodeId → Pass (List NodeId × NodeId)} {cs done : List Tree}
    (hf : ∀ c ∈ cs, ValueWorks flatten c) (h : s.tree.Forest (.node i k done :: (cs ++ us))) :
    Returns ((cs.map Tree.handle).mapM fun operand => do
      let (steps, temp) ← flatten operand
      Pass.pushChild i temp
      return steps) s fun idss s' => ∃ out ts, idss.flatten = out.map Tree.handle ∧
        s'.tree.Forest (.node i k (done ++ ts) :: (out ++ us)) ∧ Builds s s' ∧
        Lowers s.tree.size s'.temps (.values cs out ts) := by
  induction cs generalizing s us done with
  | nil => exact ⟨[], [], rfl, by simpa using h, .refl s, .noValues⟩
  | cons c cs ih =>
    simp only [List.map_cons, Returns, triple_mapM_cons, triple_bind, triple_pure]
    have hc : s.tree.Forest (c :: ([.node i k done] ++ (cs ++ us))) :=
      h.swap [.node i k done] [c]
    refine (hf c (by simp) s _ hc).imp ?_
    rintro ⟨ids, j⟩ s₁ ⟨out, temp, setter, rfl, h₁, hb₁, hle, hset, hl₁⟩
    have h₁' : s₁.tree.Forest (plug [] [.node i k done] ++ .node j (.temp temp) [] ::
        (cs ++ (out ++ us))) := by
      have hnode := h₁.swap ([.node j (.temp temp) []] ++ out) [.node i k done]
      rw [List.append_assoc] at hnode
      refine hnode.perm (.cons _ (.cons _ ?_))
      rw [← List.append_assoc, ← List.append_assoc]
      exact List.perm_append_comm.append_right us
    refine (Pass.triple_pushChild h₁').imp ?_
    rintro - s₂ ⟨h₂, hr₂⟩
    have hb₂ := hr₂.builds
    refine (ih (fun d hd => hf d (by simp [hd])) h₂).imp ?_
    rintro idss s₃ ⟨outs, ts, hids, h₃, hb₃, hl₃⟩
    have hb := hb₁.trans hb₂
    refine ⟨out ++ outs, .node j (.temp temp) [] :: ts, by simp [hids], ?_, hb.trans hb₃, ?_⟩
    · rw [List.append_assoc done] at h₃
      refine h₃.perm (.cons _ ?_)
      rw [← List.append_assoc]
      exact List.perm_append_comm.append_right us
    · have hlater := (hb₂.trans hb₃).temps
      exact .moreValues (hl₁.mono (Nat.le_refl _) hlater) hle (hlater _ _ hset)
        (hl₃.mono hb.size_le fun _ _ hn => hn)

/-- Every function of the pass works on trees that are low enough for the fuel. A call
takes one unit of fuel. There are at most four calls from a node down to its children,
and fewer where the first of them are left out. -/
structure Works (fuel : Nat) : Prop where
  statement : ∀ t : Tree, t.Source →
    4 * t.height ≤ fuel + (if isUnpacked t.kind then 3 else 0) → StatementWorks (statement fuel) t
  effect : ∀ t : Tree, t.Source → 4 * t.height ≤ fuel + 1 → EffectWorks (statementSteps fuel) t
  value : ∀ t : Tree, t.Source → 4 * t.height ≤ fuel + (if t.kind.isIdle then 0 else 2) →
    ValueWorks (valueSteps fuel) t
  sequence : ∀ i k cs, (Tree.node i k cs).Source → k.isGroup = true →
    4 * (Tree.node i k cs).height ≤ fuel + 3 → ∀ s us, s.tree.Forest (cs ++ us) →
    Returns (sequenceSteps fuel i (cs.map Tree.handle)) s fun r s' =>
      Valued s s' us (.node i k cs) r
  operands : ∀ i k cs, (Tree.node i k cs).Source → 4 * (Tree.node i k cs).height ≤ fuel + 3 →
    ∀ s us, s.tree.Forest (.node i k cs :: us) → Returns (operandSteps fuel i) s fun ids s' =>
      ∃ out ts, ids = out.map Tree.handle ∧ s'.tree.Forest (.node i k ts :: (out ++ us)) ∧
        Builds s s' ∧ Lowers s.tree.size s'.temps (.values cs out ts)
  branches : ∀ i k c as, (Tree.node i k (c :: as)).Source →
    4 * (Tree.node i k (c :: as)).height ≤ fuel + 3 → ∀ s us,
    s.tree.Forest (.node i k (c :: as) :: us) → Returns (branches fuel i) s fun _ s' =>
      ∃ out setter c' as', s'.tree.Forest (.node i k (c' :: as') :: us) ∧ Builds s s' ∧
        Lowers s.tree.size s'.temps (.value c out setter) ∧ Packs s.tree.size out c' ∧
        Lowers s.tree.size s'.temps (.statements as as')

variable {fuel : Nat} {i : NodeId} {k : NodeKind} {cs : List Tree}

theorem height_child {c : Tree} (hc : c ∈ cs) (h : 4 * (Tree.node i k cs).height ≤ n + 4) :
    4 * c.height ≤ n := by
  have := Tree.height_le_heightOf hc
  rw [Tree.height_node] at h
  omega

theorem Works.operands_succ (hw : Works fuel) (hs : (Tree.node i k cs).Source)
    (hh : 4 * (Tree.node i k cs).height ≤ fuel + 1 + 3)
    (h : s.tree.Forest (.node i k cs :: us)) :
    Returns (operandSteps (fuel + 1) i) s fun ids s' =>
      ∃ out ts, ids = out.map Tree.handle ∧ s'.tree.Forest (.node i k ts :: (out ++ us)) ∧
        Builds s s' ∧ Lowers s.tree.size s'.temps (.values cs out ts) := by
  have hvalue : ∀ c ∈ cs, ValueWorks (valueSteps fuel) c := fun c hc =>
    hw.value c (hs.child hc) (Nat.le_add_right_of_le (height_child hc hh))
  rw [operandSteps]
  simp only [Returns, triple_bind, triple_pure]
  have h' : s.tree.Forest (plug [] [.node i k cs] ++ us) := h
  refine (Pass.triple_take h').imp ?_
  rintro ids s₁ ⟨rfl, h₁, hr⟩
  refine (returns_operands hvalue h₁).imp ?_
  rintro idss s₂ ⟨out, ts, hids, h₂, hb, hl⟩
  have hb₁ := hr.builds
  exact ⟨out, ts, hids, h₂, hb₁.trans hb, hl.mono hb₁.size_le fun _ _ hn => hn⟩

theorem Works.branches_succ {c : Tree} {as : List Tree} (hw : Works fuel)
    (hs : (Tree.node i k (c :: as)).Source)
    (hh : 4 * (Tree.node i k (c :: as)).height ≤ fuel + 1 + 3)
    (h : s.tree.Forest (.node i k (c :: as) :: us)) :
    Returns (Lower.branches (fuel + 1) i) s fun _ s' =>
      ∃ out setter c' as', s'.tree.Forest (.node i k (c' :: as') :: us) ∧ Builds s s' ∧
        Lowers s.tree.size s'.temps (.value c out setter) ∧ Packs s.tree.size out c' ∧
        Lowers s.tree.size s'.temps (.statements as as') := by
  have harm : ∀ a ∈ as, StatementWorks (Lower.statement fuel) a := fun a ha =>
    hw.statement a (hs.child (by simp [ha]))
      (Nat.le_add_right_of_le (height_child (by simp [ha]) hh))
  rw [Lower.branches]
  simp only [Returns, triple_bind]
  have h' : s.tree.Forest (plug [] [.node i k (c :: as)] ++ us) := h
  refine (Pass.triple_take h').imp ?_
  rintro ids s₁ ⟨rfl, h₁, hr₁⟩
  have hb₁ := hr₁.builds
  simp only [List.map_cons, triple_bind]
  have hc : s₁.tree.Forest (c :: ([.node i k []] ++ (as ++ us))) := h₁.swap [.node i k []] [c]
  refine (hw.value c (hs.child (by simp))
    (Nat.le_add_right_of_le (height_child (by simp) hh)) s₁ _ hc).imp ?_
  rintro ⟨ids, j⟩ s₂ ⟨out, temp, setter, rfl, h₂, hb₂, -, -, hl₂⟩
  -- the temporary for the condition is not used
  refine (triple_pack h₂.tail).imp ?_
  rintro id s₃ ⟨c', rfl, h₃, hp, hb₃⟩
  have h₃' : s₃.tree.Forest (plug [] [.node i k []] ++ c' :: (as ++ us)) :=
    h₃.swap [c'] [.node i k []]
  refine (Pass.triple_pushChild h₃').imp ?_
  rintro - s₄ ⟨h₄, hr₄⟩
  have hb₄ := hr₄.builds
  refine (returns_pushAll harm h₄).imp ?_
  rintro - s₅ ⟨as', h₅, hb₅, hl₅⟩
  have hb₁₂ := hb₁.trans hb₂
  have hb₁₄ := (hb₁₂.trans hb₃).trans hb₄
  refine ⟨out, setter, c', as', h₅, hb₁₄.trans hb₅, ?_, hp.mono hb₁₂.size_le, ?_⟩
  · exact hl₂.mono hb₁.size_le ((hb₃.trans hb₄).trans hb₅).temps
  · exact hl₅.mono hb₁₄.size_le fun _ _ hn => hn

/-- A group hands its children on, and is dropped itself. -/
theorem Works.group_succ (hw : Works fuel) (hs : (Tree.node i k cs).Source)
    (hk : k.isGroup = true) (hh : 4 * (Tree.node i k cs).height ≤ fuel + 3)
    (h : s.tree.Forest (.node i k cs :: us)) :
    Returns (do sequenceSteps fuel i (← Pass.takeChildren i)) s fun r s' =>
      Valued s s' us (.node i k cs) r := by
  simp only [Returns, triple_bind]
  have h' : s.tree.Forest (plug [] [.node i k cs] ++ us) := h
  refine (Pass.triple_take h').imp ?_
  rintro ids s₁ ⟨rfl, h₁, hr⟩
  have hb := hr.builds
  refine (hw.sequence i k cs hs hk hh s₁ us h₁.tail).imp ?_
  rintro r s₂ ⟨out, temp, setter, hids, h₂, hb₂, hle, hset, hl⟩
  exact ⟨out, temp, setter, hids, h₂, hb.trans hb₂, Nat.le_trans hb.size_le hle, hset,
    hl.mono hb.size_le fun _ _ hn => hn⟩

theorem returns_nullStep (hk : k.isGroup = true) (h : s.tree.Forest us) :
    Returns (nullStep i) s fun r s' => Valued s s' us (.node i k []) r := by
  refine (triple_nullStep h).imp ?_
  rintro ⟨ids, j'⟩ s' ⟨j, temp, rfl, hf, hset, hj, hj', hb⟩
  exact ⟨[.node j .nullValue []], temp, j, rfl, hf, hb, hj', hset, .nothing hk hj⟩

theorem Works.sequence_succ (hw : Works fuel) (hs : (Tree.node i k cs).Source)
    (hk : k.isGroup = true) (hh : 4 * (Tree.node i k cs).height ≤ fuel + 1 + 3)
    (h : s.tree.Forest (cs ++ us)) :
    Returns (sequenceSteps (fuel + 1) i (cs.map Tree.handle)) s fun r s' =>
      Valued s s' us (.node i k cs) r := by
  rw [sequenceSteps]
  rcases List.eq_nil_or_concat cs with rfl | ⟨front, last, rfl⟩
  · exact returns_nullStep hk h
  · have heffect : ∀ c ∈ front, EffectWorks (statementSteps fuel) c := fun c hc =>
      hw.effect c (hs.child (by simp [hc]))
        (Nat.le_add_right_of_le (height_child (by simp [hc]) hh))
    have hsource : last.Source := hs.child (by simp)
    have hheight : 4 * last.height ≤ fuel := height_child (by simp) hh
    simp only [List.map_append, List.map_cons, List.map_nil, List.getLast?_concat,
      List.dropLast_concat, List.concat_eq_append, Returns, triple_bind]
    have hfront : s.tree.Forest (front ++ (last :: us)) := by simpa using h
    refine (returns_effects heffect hfront).imp ?_
    rintro idss s₁ ⟨outs, hids, h₁, hb₁, hl₁⟩
    have h₁' : s₁.tree.Forest (last :: (outs ++ us)) := h₁.swap outs [last]
    simp only [Pass.triple_kindOf, h₁'.head.1.kind]
    have hfinish : ∀ r s₂, Valued s₁ s₂ (outs ++ us) last r →
        Valued s s₂ us (.node i k (front ++ [last])) (idss.flatten ++ r.1, r.2) := by
      rintro ⟨ids, j⟩ s₂ ⟨out, temp, setter, rfl, h₂, hb₂, hle, hset, hl₂⟩
      refine ⟨outs ++ out, temp, setter, by simp [hids], ?_, hb₁.trans hb₂,
        Nat.le_trans hb₁.size_le hle, hset, ?_⟩
      · rw [List.append_assoc]
        exact h₂.perm (.cons _ (List.perm_append_comm_assoc _ _ _))
      · exact .last hk (hl₁.mono (Nat.le_refl _) hb₂.temps)
          (hl₂.mono hb₁.size_le fun _ _ hn => hn)
    have hgroup : last.kind.isGroup = true → Returns (do
        sequenceSteps fuel last.handle (← Pass.takeChildren last.handle)) s₁ fun r s' =>
          Valued s₁ s' (outs ++ us) last r := by
      intro hlast
      cases last
      exact hw.group_succ hsource hlast (Nat.le_add_right_of_le hheight) h₁'
    split
    · rename_i hlast
      simp only [triple_bind, triple_pure]
      exact (triple_bind.mp (hgroup (by rw [hlast]; rfl))).imp fun _ _ ht => ht.imp hfinish
    · rename_i hlast
      simp only [triple_bind, triple_pure]
      exact (triple_bind.mp (hgroup (by rw [hlast]; rfl))).imp fun _ _ ht => ht.imp hfinish
    · simp only [triple_bind, triple_pure]
      exact (hw.value last hsource (Nat.le_add_right_of_le hheight) s₁ _ h₁').imp hfinish

theorem Works.branch_succ (hw : Works fuel) (hs : (Tree.node i k cs).Source)
    (hk : k = .ifElse ∨ k = .whileLoop) (hh : 4 * (Tree.node i k cs).height ≤ fuel + 3)
    (h : s.tree.Forest (.node i k cs :: us)) :
    Returns (Lower.branches fuel i) s fun _ s' => ∃ cs', s'.tree.Forest (.node i k cs' :: us) ∧
      Builds s s' ∧ Lowers s.tree.size s'.temps (.value (.node i k cs) [.node i k cs'] i) := by
  obtain ⟨c, as, rfl⟩ : ∃ c as, cs = c :: as := by
    obtain rfl | rfl := hk
    · obtain ⟨c, as, rfl, -⟩ := hs.shaped.ifElse
      exact ⟨c, as, rfl⟩
    · obtain ⟨c, body, rfl, -⟩ := hs.shaped.whileLoop
      exact ⟨c, [body], rfl⟩
  have hflow : k.isControlFlow = true := by obtain rfl | rfl := hk <;> rfl
  refine (hw.branches i k c as hs hh s us h).imp ?_
  rintro - s' ⟨out, setter, c', as', hf, hb, hc, hp, ha⟩
  exact ⟨c' :: as', hf, hb, .branch hflow hc hp ha⟩

/-- The temporary for a step that stands on its own. -/
theorem returns_tempFor {cs' : List Tree} {t : Tree} {s₀ : Session} (out : List Tree)
    (hb : Builds s₀ s)
    (h : s.tree.Forest (.node i k cs' :: (out ++ us)))
    (hl : Lowers s₀.tree.size s.temps (.value t (out ++ [.node i k cs']) i)) :
    Returns (tempFor i) s fun j s' =>
      Valued s₀ s' us t ((out ++ [Tree.node i k cs']).map Tree.handle, j) := by
  refine (triple_tempFor h).imp ?_
  rintro j s' ⟨temp, hf, hset, hle, hb'⟩
  refine ⟨out ++ [Tree.node i k cs'], temp, i, rfl, ?_, hb.trans hb', Nat.le_trans hb.size_le hle,
    hset, hl.mono (Nat.le_refl _) hb'.temps⟩
  refine hf.perm (.cons _ ?_)
  rw [List.append_assoc]
  exact List.perm_middle.symm

theorem Works.expression_succ (hw : Works fuel) (hs : (Tree.node i k cs).Source)
    (hk : k.isStep = true) (he : k.isExpression = true)
    (hh : 4 * (Tree.node i k cs).height ≤ fuel + 3) (h : s.tree.Forest (.node i k cs :: us)) :
    Returns (do
      let steps ← operandSteps fuel i
      return (steps ++ [i], ← tempFor i)) s fun r s' => Valued s s' us (.node i k cs) r := by
  simp only [Returns, triple_bind, triple_pure]
  refine (hw.operands i k cs hs hh s us h).imp ?_
  rintro ids s₁ ⟨out, ts, rfl, h₁, hb, hl⟩
  refine (returns_tempFor out hb h₁ (.expression hk he hl)).imp ?_
  rintro j s₂ hv
  simpa using hv

theorem Works.idle_succ (hw : Works fuel) (hs : (Tree.node i k cs).Source)
    (hk : k.isIdle = true) (hh : 4 * (Tree.node i k cs).height ≤ fuel + 1)
    (h : s.tree.Forest (.node i k cs :: us)) :
    Returns (do
      let steps ← statementSteps fuel i
      let (null, temp) ← nullStep i
      return (steps ++ null, temp)) s fun r s' => Valued s s' us (.node i k cs) r := by
  simp only [Returns, triple_bind, triple_pure]
  refine (hw.effect _ hs hh s us h).imp ?_
  rintro ids s₁ ⟨out, rfl, h₁, hb₁, hl⟩
  refine (triple_nullStep h₁).imp ?_
  rintro ⟨ids, j'⟩ s₂ ⟨j, temp, rfl, hf, hset, hj, hj', hb₂⟩
  refine ⟨out ++ [.node j .nullValue []], temp, j, by simp, ?_, hb₁.trans hb₂,
    Nat.le_trans hb₁.size_le hj', hset, ?_⟩
  · rw [List.append_assoc]
    exact hf.perm (.cons _ List.perm_middle.symm)
  · exact .null hk (hl.mono (Nat.le_refl _) hb₂.temps) (Nat.le_trans hb₁.size_le hj)

theorem Works.value_succ {t : Tree} (hw : Works fuel) (hs : t.Source)
    (hh : 4 * t.height ≤ fuel + 1 + (if t.kind.isIdle then 0 else 2)) :
    ValueWorks (valueSteps (fuel + 1)) t := by
  intro s us h
  obtain ⟨i, k, cs⟩ := t
  have hkind : s.tree.kind i = k := h.head.1.kind
  have harity := hs.shaped.arity
  rw [valueSteps]
  simp only [Returns, triple_bind, Pass.triple_kindOf, hkind, Tree.handle_node]
  cases k with
  | block | pair => exact hw.group_succ hs rfl hh h
  | exprStmt =>
    obtain ⟨e, rfl, -⟩ := hs.shaped.exprStmt
    have h' : s.tree.Forest (plug [] [.node i .exprStmt [e]] ++ us) := h
    simp only [triple_bind]
    refine (Pass.triple_take h').imp ?_
    rintro ids s₁ ⟨rfl, h₁, hr⟩
    have hb := hr.builds
    have he : 4 * e.height ≤ fuel := height_child (by simp) (Nat.le_succ_of_le hh)
    refine (hw.value e (hs.child (by simp)) (Nat.le_add_right_of_le he) s₁ us h₁.tail).imp ?_
    rintro r s₂ ⟨out, temp, setter, hids, h₂, hb₂, hle, hset, hl⟩
    have hlast : Lowers s.tree.size s₂.temps
        (.value (.node i .exprStmt ([] ++ [e])) ([] ++ out) setter) :=
      .last rfl .noEffects (hl.mono hb.size_le fun _ _ hn => hn)
    exact ⟨out, temp, setter, hids, h₂, hb.trans hb₂, Nat.le_trans hb.size_le hle, hset, hlast⟩
  | ifElse | whileLoop =>
    simp only [triple_bind, triple_pure]
    refine (hw.branch_succ hs (by simp) hh h).imp ?_
    rintro - s₁ ⟨cs', h₁, hb, hl⟩
    exact returns_tempFor [] hb h₁ hl
  | varDecl | returnStmt | funcDecl | typeDecl | importDecl =>
    exact hw.idle_succ hs rfl hh h
  | literal | symbol | binary | unary | assign | refBind | call | index | field | tuple | list =>
    exact hw.expression_succ hs rfl rfl hh h
  | moduleRoot | basicBlock | temp | builtinCall | cast | nullValue => exact harity.elim

theorem Works.effect_succ {t : Tree} (hw : Works fuel) (hs : t.Source)
    (hh : 4 * t.height ≤ fuel + 1 + 1) : EffectWorks (statementSteps (fuel + 1)) t := by
  intro s us h
  obtain ⟨i, k, cs⟩ := t
  have hkind : s.tree.kind i = k := h.head.1.kind
  have harity := hs.shaped.arity
  have h' : s.tree.Forest (plug [] [.node i k cs] ++ us) := h
  have hh' : 4 * (Tree.node i k cs).height ≤ fuel + 4 := Nat.le_trans hh (by omega)
  -- the value of an expression is dropped, but not the steps that compute it
  have hdrop : k.isIdle = false → Returns (do return (← valueSteps fuel i).1) s fun ids s' =>
      ∃ out, ids = out.map Tree.handle ∧ s'.tree.Forest (out ++ us) ∧ Builds s s' ∧
        Lowers s.tree.size s'.temps (.effects [.node i k cs] out) := by
    intro hk
    have hfuel : 4 * (Tree.node i k cs).height ≤ fuel + (if k.isIdle then 0 else 2) := by
      rw [hk]
      exact hh
    simp only [Returns, triple_bind, triple_pure]
    refine (hw.value _ hs hfuel s us h).imp ?_
    rintro r s₁ ⟨out, temp, setter, hids, h₁, hb, -, -, hl⟩
    exact ⟨out, hids, h₁.tail, hb, .drop hl⟩
  rw [statementSteps]
  simp only [Returns, triple_bind, Pass.triple_kindOf, hkind, Tree.handle_node]
  cases k with
  | exprStmt =>
    obtain ⟨e, rfl, -⟩ := hs.shaped.exprStmt
    simp only [triple_bind]
    refine (Pass.triple_take h').imp ?_
    rintro ids s₁ ⟨rfl, h₁, hr⟩
    have hb := hr.builds
    have he : 4 * e.height ≤ fuel := height_child (by simp) hh'
    simp only [List.map_cons, List.map_nil, List.getLast?_singleton, triple_bind, triple_pure]
    refine (hw.value e (hs.child (by simp)) (Nat.le_add_right_of_le he) s₁ us h₁.tail).imp ?_
    rintro r s₂ ⟨out, temp, setter, hids, h₂, hb₂, -, -, hl⟩
    have hpart : Lowers s.tree.size s₂.temps (.effects [e] out) :=
      .drop (hl.mono hb.size_le fun _ _ hn => hn)
    exact ⟨out, hids, h₂.tail, hb.trans hb₂, .group rfl hpart⟩
  | block | pair =>
    have heffect : ∀ c ∈ cs, EffectWorks (statementSteps fuel) c := fun c hc =>
      hw.effect c (hs.child hc)
        (Nat.le_add_right_of_le (height_child hc hh'))
    simp only [triple_bind, triple_pure]
    refine (Pass.triple_take h').imp ?_
    rintro ids s₁ ⟨rfl, h₁, hr⟩
    have hb := hr.builds
    refine (returns_effects heffect h₁.tail).imp ?_
    rintro idss s₂ ⟨out, hids, h₂, hb₂, hl⟩
    exact ⟨out, hids, h₂, hb.trans hb₂, .group rfl (hl.mono hb.size_le fun _ _ hn => hn)⟩
  | varDecl | returnStmt =>
    simp only [triple_bind, triple_pure]
    refine (hw.operands i _ cs hs (Nat.le_succ_of_le hh) s us h).imp ?_
    rintro ids s₁ ⟨out, ts, rfl, h₁, hb, hl⟩
    refine ⟨_, by simp, ?_, hb, .idle rfl hl⟩
    rw [List.append_assoc]
    exact h₁.perm List.perm_middle.symm
  | ifElse | whileLoop =>
    simp only [triple_bind, triple_pure]
    refine (hw.branch_succ hs (by simp) (Nat.le_succ_of_le hh) h).imp ?_
    rintro - s₁ ⟨cs', h₁, hb, hl⟩
    exact ⟨_, rfl, h₁, hb, .drop hl⟩
  | funcDecl | typeDecl | importDecl =>
    simp only [triple_bind, triple_pure]
    refine (hw.statement _ hs (Nat.le_succ_of_le hh) s us h).imp ?_
    rintro id s₁ ⟨t', rfl, h₁, hb, hl, hsame⟩
    exact ⟨[t'], rfl, h₁, hb, .declaration rfl hl (hsame rfl)⟩
  | literal | symbol | binary | unary | assign | refBind | call | index | field | tuple | list =>
    exact hdrop rfl
  | moduleRoot | basicBlock | temp | builtinCall | cast | nullValue => exact harity.elim

theorem Works.statement_succ {t : Tree} (hw : Works fuel) (hs : t.Source)
    (hh : 4 * t.height ≤ fuel + 1 + (if isUnpacked t.kind then 3 else 0)) :
    StatementWorks (Lower.statement (fuel + 1)) t := by
  intro s us h
  obtain ⟨i, k, cs⟩ := t
  have hkind : s.tree.kind i = k := h.head.1.kind
  have harity := hs.shaped.arity
  have h' : s.tree.Forest (plug [] [.node i k cs] ++ us) := h
  -- the children of what is not flattened are statements
  have hchild : isUnpacked k = true → ∀ c ∈ cs, StatementWorks (Lower.statement fuel) c := by
    intro hk c hc
    have hfuel : 4 * (Tree.node i k cs).height ≤ fuel + 1 + (if isUnpacked k then 3 else 0) := hh
    rw [hk] at hfuel
    exact hw.statement c (hs.child hc) (Nat.le_add_right_of_le (height_child hc hfuel))
  have hpack : isUnpacked k = false → Returns (do pack i (← statementSteps fuel i)) s fun id s' =>
      ∃ t', t'.handle = id ∧ s'.tree.Forest (t' :: us) ∧ Builds s s' ∧
        Lowers s.tree.size s'.temps (.statement (.node i k cs) t') ∧
        (k.isDeclaration = true → t'.kind = k) := by
    intro hk
    have hfuel : 4 * (Tree.node i k cs).height ≤ fuel + 1 + (if isUnpacked k then 3 else 0) := hh
    rw [hk] at hfuel
    simp only [Returns, triple_bind]
    refine (hw.effect _ hs hfuel s us h).imp ?_
    rintro ids s₁ ⟨out, rfl, h₁, hb₁, hl⟩
    refine (triple_pack h₁).imp ?_
    rintro id s₂ ⟨t', rfl, h₂, hp, hb₂⟩
    have hlowered := Lowers.packed (hl.mono (Nat.le_refl _) hb₂.temps) (hp.mono hb₁.size_le)
    refine ⟨t', rfl, h₂, hb₁.trans hb₂, hlowered, fun hdecl => ?_⟩
    cases k <;> simp_all [isUnpacked]
  rw [Lower.statement]
  simp only [Returns, triple_bind, Pass.triple_kindOf, hkind, Tree.handle_node]
  cases k with
  | pair =>
    obtain ⟨a, b, rfl⟩ := hs.shaped.pair
    unfold replaceChildren
    simp only [triple_bind, triple_pure]
    refine (Pass.triple_take h').imp ?_
    rintro ids s₁ ⟨rfl, h₁, hr⟩
    have hb := hr.builds
    refine (returns_pushAll (hchild rfl) h₁).imp ?_
    rintro - s₂ ⟨cs', h₂, hb₂, hl⟩
    cases hl with
    | moreStatements ha hl =>
      cases hl with
      | moreStatements hb' hl =>
        cases hl
        have hla := ha.mono hb.size_le fun _ _ hn => hn
        have hlb := hb'.mono hb.size_le fun _ _ hn => hn
        exact ⟨_, rfl, h₂, hb.trans hb₂, .pair hla hlb, by simp [NodeKind.isDeclaration]⟩
  | block =>
    simp only [triple_bind]
    refine (Pass.triple_take h').imp ?_
    rintro ids s₁ ⟨rfl, h₁, hr⟩
    have hb := hr.builds
    obtain rfl | ⟨c, rfl⟩ := hs.shaped.block
    · refine (Pass.triple_addLike h₁.tail).imp ?_
      rintro j s₂ ⟨h₂, rfl, hg⟩
      exact ⟨_, rfl, h₂, hb.trans (hg.builds (.inr ⟨_, rfl⟩)), .emptyBlock hb.size_le,
        by simp [NodeKind.isDeclaration]⟩
    · refine (hchild rfl c (by simp) s₁ us h₁.tail).imp ?_
      rintro id s₂ ⟨c', rfl, h₂, hb₂, hl, -⟩
      exact ⟨c', rfl, h₂, hb.trans hb₂, .block (hl.mono hb.size_le fun _ _ hn => hn),
        by simp [NodeKind.isDeclaration]⟩
  | funcDecl d =>
    obtain ⟨b, rfl⟩ := hs.shaped.funcDecl
    simp only [triple_bind]
    refine (Pass.triple_take h').imp ?_
    rintro ids s₁ ⟨rfl, h₁, hr⟩
    have hb := hr.builds
    simp only [List.map_cons, List.map_nil, List.getLast?_singleton, triple_bind, triple_pure]
    have h₁' : s₁.tree.Forest (b :: .node i (.funcDecl d) [] :: us) := h₁.perm (.swap _ _ _)
    refine (hchild rfl b (by simp) s₁ _ h₁').imp ?_
    rintro id s₂ ⟨b', rfl, h₂, hb₂, hl, -⟩
    have h₂' : s₂.tree.Forest (plug [] [.node i (.funcDecl d) []] ++ b' :: us) :=
      h₂.perm (.swap _ _ _)
    refine (Pass.triple_pushChild h₂').imp ?_
    rintro - s₃ ⟨h₃, hr₃⟩
    have hb₃ := hr₃.builds
    exact ⟨_, rfl, h₃, (hb.trans hb₂).trans hb₃, .funcDecl (hl.mono hb.size_le hb₃.temps),
      fun _ => rfl⟩
  | typeDecl name =>
    obtain rfl : cs = [] := List.length_eq_zero_iff.mp harity
    exact ⟨_, rfl, h, .refl s, .typeDecl, fun _ => rfl⟩
  | importDecl name isPublic =>
    obtain rfl : cs = [] := List.length_eq_zero_iff.mp harity
    exact ⟨_, rfl, h, .refl s, .importDecl, fun _ => rfl⟩
  | exprStmt | varDecl | returnStmt | ifElse | whileLoop | literal | symbol | binary | unary
  | assign | refBind | call | index | field | tuple | list => exact hpack rfl
  | moduleRoot | basicBlock | temp | builtinCall | cast | nullValue => exact harity.elim

theorem works (fuel : Nat) : Works fuel := by
  induction fuel with
  | zero =>
    -- a tree has a height of one at least
    have hlow : ∀ (t : Tree) n, n ≤ 3 → ¬ 4 * t.height ≤ 0 + n := by
      rintro ⟨i, k, cs⟩ n hn hh
      rw [Tree.height_node] at hh
      omega
    exact {
      statement := fun t _ hh => absurd hh (hlow t _ (by split <;> decide))
      effect := fun t _ hh => absurd hh (hlow t _ (by decide))
      value := fun t _ hh => absurd hh (hlow t _ (by split <;> decide))
      sequence := fun _ _ _ _ _ hh => absurd hh (hlow _ _ (by decide))
      operands := fun _ _ _ _ hh => absurd hh (hlow _ _ (by decide))
      branches := fun _ _ _ _ _ hh => absurd hh (hlow _ _ (by decide)) }
  | succ fuel hw =>
    exact {
      statement := fun _ => hw.statement_succ
      effect := fun _ => hw.effect_succ
      value := fun _ => hw.value_succ
      sequence := fun _ _ _ hs hk hh _ _ => hw.sequence_succ hs hk hh
      operands := fun _ _ _ hs hh _ _ => hw.operands_succ hs hh
      branches := fun _ _ _ _ hs hh _ _ => hw.branches_succ hs hh }

end Lower

/-- Every item of a module is lowered. -/
theorem returns_lower {s : Session} {us ts : List Tree} {root : NodeId} {kind : NodeKind}
    (h : s.tree.Forest (.node root kind ts :: us)) (hs : ∀ t ∈ ts, t.Source) :
    Returns (lower root) s fun _ s' => ∃ ts', s'.tree.Forest (.node root kind ts' :: us) ∧
      Builds s s' ∧ Lowers s.tree.size s'.temps (.statements ts ts') := by
  have hheight : (Tree.node root kind ts).height ≤ s.tree.size := h.head.1.height_le h.head.2
  have hworks : ∀ t ∈ ts, Lower.StatementWorks (Lower.statement (4 * (s.tree.size + 1))) t := by
    intro t ht
    refine (Lower.works _).statement t (hs t ht) (Nat.le_add_right_of_le ?_)
    refine Lower.height_child (i := root) (k := kind) ht ?_
    omega
  unfold lower Lower.replaceChildren
  simp only [Returns, triple_bind, Pass.triple_tree]
  have h' : s.tree.Forest (plug [] [.node root kind ts] ++ us) := h
  refine (Pass.triple_take h').imp ?_
  rintro ids s₁ ⟨rfl, h₁, hr⟩
  have hb := hr.builds
  refine (Lower.returns_pushAll hworks h₁).imp ?_
  rintro - s₂ ⟨ts', h₂, hb₂, hl⟩
  exact ⟨ts', h₂, hb.trans hb₂, hl.mono hb.size_le fun _ _ hn => hn⟩

end BlockLang
