import BlockLang.Proofs.Typing.Operation

/-!
# Inference keeps the lowered form

A statement in lowered form is analyzed to the end, and becomes what `Settles` says.
Inference may change the children of a node while it goes through them; it never loses
its place. Whatever it leaves behind is `Done`, and no temporary is read before the node
that sets it has a type.
-/

namespace BlockLang.Typing

open BlockLang.Tree (idsOf)
open BlockLang.Frame (plug)
open Pass

variable {kind : NodeKind} {R : Nat → Tree → List Tree → Prop} {s s' : Session} {f : Frame}
  {fs : List Frame} {us : List Tree} {B : Set NodeId} {i : NodeId} {t : Tree}

theorem length_ids_pos (t : Tree) : 0 < t.ids.length := List.length_pos_of_mem t.handle_mem_ids

theorem child?_left {a : Arena} (left : List Tree) {ts : List Tree}
    (h : a.Forest (plug fs [.node i kind (left ++ ts)] ++ us)) :
    a.child? i left.length = ts.head?.map Tree.handle := by
  have hchildren : a.children i = (left ++ ts).map Tree.handle := h.gap.children
  rw [Arena.child?, hchildren, List.map_append]
  cases ts <;> simp

/-- Nothing around a child is part of it. -/
theorem spared_child {l r : List Tree} {c : Tree}
    (h : s.tree.Forest (plug fs [.node i kind (l ++ c :: r)] ++ us)) :
    ∀ id ∈ idsOf l ++ idsOf r ++ [i], Spared (· ∈ c.ids) s id := by
  intro id hid
  have hn := h.nodup_gap
  simp only [Tree.idsOf_cons, Tree.ids_node, Tree.idsOf_nil, Tree.idsOf_append, List.append_nil,
    List.nodup_append, List.mem_append, List.mem_singleton] at hn hid
  refine ⟨h.lt_size_gap id (by simp_all; tauto), fun hc => ?_⟩
  obtain ⟨⟨-, ⟨-, -, hright⟩, hleft⟩, -, hroot⟩ := hn
  rcases hid with (hid | hid) | rfl
  · exact hleft id hid id (.inl hc) rfl
  · exact hright id hc id hid rfl
  · exact hroot id (.inr (.inl hc)) id rfl rfl

/-- A node is none of those below it. -/
theorem spared_below {cs : List Tree} (h : s.tree.Forest (plug fs [.node i kind cs] ++ us)) :
    ∀ id ∈ idsOf cs, Spared (· = i) s id := by
  intro id hid
  have hn := h.nodup_gap
  simp only [Tree.idsOf_cons, Tree.ids_node, Tree.idsOf_nil, List.append_nil,
    List.nodup_append, List.mem_singleton] at hn
  exact ⟨h.lt_size_gap id (by simp [hid]), hn.2.2 id hid i rfl⟩

/-- What a node that is ready uses is not the node. -/
theorem spared_self {cs : List Tree} (h : Ready s B (.node i kind cs))
    (hle : s.tree.size ≤ s'.tree.size) : ∀ p ∈ B, Spared (· = i) s' p := by
  refine fun p hp => ⟨Nat.lt_of_lt_of_le (h.known p hp).1 hle, ?_⟩
  rintro rfl
  exact h.apart p hp (by simp)

-- ---------------------------------------------------------------------------
-- Sequences
-- ---------------------------------------------------------------------------

/-- Inference is through with the trees `left` of a sequence and goes on with `ts`. -/
structure Midway (s : Session) (B : Set NodeId) (left ts : List Tree) : Prop where
  done : Done s B left
  fed : FedSeq s.temps (B ∪ exportsOf left) ts
  known : ∀ p ∈ B, p.index < s.tree.size ∧ (s.tree.facts p).type.isSome = true
  apart : ∀ p ∈ B, p ∉ idsOf ts

theorem Midway.ready {left ts : List Tree} (h : Midway s B left (t :: ts))
    (hf : s.tree.Forest (plug fs [.node i kind (left ++ t :: ts)] ++ us)) :
    Ready s (B ∪ exportsOf left) t := by
  have hleft : ∀ p ∈ exportsOf left, Spared (· ∈ t.ids) s p := fun p hp =>
    spared_child hf p (by simp [mem_idsOf_of_exportsOf hp])
  refine ⟨(fedSeq_cons.mp h.fed).1, fun p hp => hp.elim (h.known p) fun hp => ?_,
    fun p hp => hp.elim (fun hp hm => h.apart p hp (by simp [hm])) fun hp => (hleft p hp).2⟩
  exact ⟨(hleft p hp).1, h.done.typed hp⟩

/-- What the next tree has become is done too. -/
theorem Midway.step {left ts rs : List Tree} (h : Midway s B left (t :: ts))
    (hf : s.tree.Forest (plug fs [.node i kind (left ++ t :: ts)] ++ us))
    (hp : Proceeds (· ∈ t.ids) s s') (hd : Done s' (B ∪ exportsOf left) rs)
    (hh : Hands s s' (exportsOf [t]) (exportsOf rs)) : Midway s' B (left ++ rs) ts := by
  have hused := (h.ready hf).spared
  have hB : ∀ p ∈ B, Spared (· ∈ t.ids) s p := fun p hp => hused p (.inl hp)
  have hleft : ∀ id ∈ idsOf left, Spared (· ∈ t.ids) s id := fun id hid =>
    spared_child hf id (by simp [hid])
  have hts : ∀ id ∈ idsOf ts, Spared (· ∈ t.ids) s id := fun id hid =>
    spared_child hf id (by simp [hid])
  refine ⟨Done.append_iff.mpr ⟨h.done.proceeds hp hleft hB, hd⟩, ?_, fun p hm => ?_,
    fun p hm hid => h.apart p hm (by simp [hid])⟩
  · have hover : Hands s s' (B ∪ exportsOf left ∪ exportsOf [t]) (B ∪ exportsOf (left ++ rs)) := by
      rw [exportsOf_append, ← Set.union_assoc]
      exact ((hp.hands hused).mono Set.Subset.rfl Set.subset_union_left).union
        (hh.mono Set.Subset.rfl Set.subset_union_right)
    exact (fedSeq_cons.mp h.fed).2.transport hover fun τ p hset hm =>
      hp.temps τ p hset (hts p hm).1 (hts p hm).2
  · rw [hp.facts (hB p hm).1 (hB p hm).2]
    exact ⟨Nat.lt_of_lt_of_le (h.known p hm).1 hp.size, (h.known p hm).2⟩

/-- A sequence that is ready can be entered. -/
theorem Midway.of_ready {cs : List Tree} (h : Ready s B (.node i kind cs))
    (hk : kind.isSequence = true) : Midway s B [] cs :=
  ⟨.nil, by simpa using h.fed.parts hk, h.known, fun p hp hm => h.apart p hp (by simp [hm])⟩

/-- The statements of a module use nothing from outside. -/
theorem Midway.of_fed {ts : List Tree} (h : ∀ t ∈ ts, Fed s.temps ∅ t) : Midway s ∅ [] ts := by
  refine ⟨.nil, fun l c r hts => ?_, fun _ hp => hp.elim, fun _ hp => hp.elim⟩
  exact (h c (by simp [hts])).mono (Set.empty_subset _)

/-- Analyzing a tree in a frame of some kind makes of it what `R` says, where its last tree
stands for the whole. -/
def Visits (kind : NodeKind) (R : Nat → Tree → List Tree → Prop) (t : Tree) : Prop :=
  ∀ (missing : Pass TypeId) (result : Option TypeId) (fuel : Nat) (B : Set NodeId) (f : Frame)
    (fs : List Frame) (us : List Tree) (s : Session), f.kind = kind → s.Scoped →
    s.tree.Forest (plug (f :: fs) [t] ++ us) → Ready s B t → 2 * t.ids.length ≤ fuel →
    Returns (analyzeStatement missing result fuel t.handle) s fun node s' =>
      ∃ cs t', node = t'.handle ∧ R s.tree.size t (cs ++ [t']) ∧
        Past (· ∈ t.ids) s B f fs us t cs t' s'

/-- After its last child nothing is left of a sequence. -/
theorem triple_analyzeChildren_nil {left : List Tree} {missing : Pass TypeId}
    {result : Option TypeId} {fuel : Nat} (h : s.tree.Forest (plug fs [.node i kind left] ++ us))
    {Q : PUnit → Session → Prop} {E : Fault → Session → Prop} :
    Triple (analyzeChildren missing result (fuel + 1) i left.length) s Q E ↔ Q () s := by
  have hend : s.tree.Forest (plug fs [.node i kind (left ++ [])] ++ us) := by rwa [List.append_nil]
  have hchild : s.tree.child? i left.length = none := child?_left left hend
  unfold analyzeChildren
  simp only [triple_bind, triple_child?, hchild, triple_pure]

/-- A child is followed by the one behind what it has become. -/
theorem triple_analyzeChildren_cons (left : List Tree) {ts : List Tree} {missing : Pass TypeId}
    {result : Option TypeId} {fuel : Nat} {Q : PUnit → Session → Prop}
    {E : Fault → Session → Prop}
    (h : s.tree.Forest (plug fs [.node i kind (left ++ t :: ts)] ++ us))
    (hrun : Triple (analyzeStatement missing result fuel t.handle) s (fun node s' => ∃ cs t',
      node = t'.handle ∧
      s'.tree.Forest (plug fs [.node i kind (left ++ (cs ++ [t']) ++ ts)] ++ us) ∧
      Triple (analyzeChildren missing result fuel i (left ++ (cs ++ [t'])).length) s' Q E) E) :
    Triple (analyzeChildren missing result (fuel + 1) i left.length) s Q E := by
  unfold analyzeChildren
  simp only [triple_bind, triple_child?, child?_left left h, List.head?_cons, Option.map_some]
  refine hrun.imp ?_
  rintro _ s' ⟨cs, t', rfl, hf, hrest⟩
  have hgap : s'.tree.Forest (plug (⟨i, kind, left ++ cs, ts⟩ :: fs) [t'] ++ us) := by
    simpa [plug_child] using hf
  have hparent : s'.tree.parent t'.handle = some i := hgap.parent_gap
  have hindex : s'.tree.indexInParent? t'.handle = some (left ++ cs).length := hgap.indexInParent?
  have hlength : (left ++ cs).length + 1 = (left ++ (cs ++ [t'])).length := by
    simp [Nat.add_assoc]
  simp only [triple_tree, hparent, if_true, hindex, Option.getD_some]
  rwa [hlength]

/-- The children from `left` on are visited one after the other. -/
theorem returns_analyzeChildren (left : List Tree) {ts : List Tree}
    (hR : ∀ n m t rs, n ≤ m → R m t rs → R n t rs) (hv : ∀ t ∈ ts, Visits kind R t)
    (missing : Pass TypeId) (result : Option TypeId) {fuel : Nat}
    (hfuel : 2 * (idsOf ts).length + 1 ≤ fuel) (hs : s.Scoped)
    (h : s.tree.Forest (plug fs [.node i kind (left ++ ts)] ++ us)) (hm : Midway s B left ts) :
    Returns (analyzeChildren missing result fuel i left.length) s fun _ s' =>
      ∃ rss, List.Forall₂ (R s.tree.size) ts rss ∧
        Reworks (· ∈ idsOf ts) s (plug fs [.node i kind (left ++ rss.flatten)] ++ us) s' ∧
        Done s' B (left ++ rss.flatten) ∧ Hands s s' (exportsOf ts) (exportsOf rss.flatten) := by
  -- The index is one past the last tree of what the child before has become, so it follows
  -- the steps that are inserted; `left` holds all of them.
  induction ts generalizing left s fuel with
  | nil =>
    obtain ⟨fuel, rfl⟩ : ∃ n, fuel = n + 1 := Nat.exists_eq_succ_of_ne_zero (by omega)
    refine (triple_analyzeChildren_nil (by simpa using h)).mpr ?_
    exact ⟨[], .nil, .refl hs h, by simpa using hm.done, .of_temps rfl Set.Subset.rfl⟩
  | cons t ts ih =>
    obtain ⟨fuel, rfl⟩ : ∃ n, fuel = n + 1 := Nat.exists_eq_succ_of_ne_zero (by omega)
    have hpos := length_ids_pos t
    have hts : ∀ p ∈ exportsOf ts, Spared (· ∈ t.ids) s p := fun p hp =>
      spared_child h p (by simp [mem_idsOf_of_exportsOf hp])
    rw [Tree.idsOf_cons, List.length_append] at hfuel
    refine triple_analyzeChildren_cons left h ((hv t List.mem_cons_self missing result fuel _
      ⟨i, kind, left, ts⟩ fs us s rfl hs (by rwa [plug_child]) (hm.ready h) (by omega)).imp ?_)
    rintro _ s₁ ⟨cs, t', rfl, hr, h₁, hd₁, hh₁⟩
    have h₁' : s₁.tree.Forest (plug fs [.node i kind (left ++ (cs ++ [t']) ++ ts)] ++ us) := by
      simpa [Frame.after, plug_child] using h₁.forest
    refine ⟨cs, t', rfl, h₁', ?_⟩
    refine (ih (left ++ (cs ++ [t'])) (fun u hu => hv u (List.mem_cons_of_mem _ hu)) (by omega)
      h₁.session h₁' (hm.step h h₁.proceeds hd₁ hh₁)).imp ?_
    rintro - s₂ ⟨rss, hrss, h₂, hd₂, hh₂⟩
    have hlater : ∀ u rs, R s₁.tree.size u rs → R s.tree.size u rs :=
      fun u rs => hR _ _ u rs h₁.proceeds.size
    refine ⟨(cs ++ [t']) :: rss, .cons hr (hrss.imp hlater), ?_, by simpa using hd₂, ?_⟩
    · have h₂' := (h₁.mono fun id hid => List.mem_append_left (idsOf ts) hid).trans h₂ fun id hid =>
        .inl (List.mem_append_right t.ids hid)
      simpa using h₂'
    · rw [exportsOf_cons, List.flatten_cons, exportsOf_append]
      -- what was handed over for this child stays while the others are visited
      have hstay : ∀ p ∈ exportsOf (cs ++ [t']), Spared (· ∈ idsOf ts) s₁ p := by
        intro p hp
        have hn := h₁'.nodup_gap
        simp only [Tree.idsOf_cons, Tree.ids_node, Tree.idsOf_nil, List.append_nil,
          Tree.idsOf_append left, Tree.idsOf_append (left ++ (cs ++ [t']))] at hn
        have hid := mem_idsOf_of_exportsOf hp
        refine ⟨h₁'.lt_size_gap p (by simp_all; tauto), fun hm => ?_⟩
        exact (List.nodup_append.mp hn.of_append_left).2.2 p
          (List.mem_append_right _ hid) p hm rfl
      exact ((hh₁.trans (h₂.proceeds.hands hstay)).mono Set.Subset.rfl
        Set.subset_union_left).union (((h₁.proceeds.hands hts).trans hh₂).mono Set.Subset.rfl
          Set.subset_union_right)

theorem visits_step (ht : Step t) (hi : t.kind.isInferred = false) :
    Visits .basicBlock Resolves t := by
  intro missing result fuel B f fs us s hf hs h hready hfuel
  have hpos := length_ids_pos t
  obtain ⟨fuel, rfl⟩ : ∃ n, fuel = n + 2 := Nat.exists_eq_add_of_le' (by omega)
  have hkind : s.tree.kind t.handle = t.kind := h.gap.kind
  have hstep := ht.kind
  unfold analyzeStatement
  simp only [triple_bind, triple_kindOf, hkind]
  split
  case h_9 => exact returns_analyzeStep hf ht hi hs h hready missing result fuel
  all_goals next hk => exact absurd (hk ▸ hstep) (by simp [NodeKind.isStep, NodeKind.isExpression])

-- ---------------------------------------------------------------------------
-- Statements
-- ---------------------------------------------------------------------------

/-- Inference has come past the statement `t`, which has become `t'`. -/
structure Settled (N : NodeId → Prop) (s : Session) (B : Set NodeId) (f : Frame) (fs : List Frame)
    (us : List Tree) (t t' : Tree) (s' : Session) : Prop where
  settles : Settles s.tree.size t t'
  reworks : Reworks N s (plug (f :: fs) [t'] ++ us) s'
  done : Done s' B [t']
  hands : Hands s s' (exportsOf [t]) (exportsOf [t'])
  /-- A node that gives way is not part of what takes its place. -/
  gone : t'.handle = t.handle ∨ t.handle ∉ t'.ids

/-- A statement that is ready is analyzed to the end wherever it stands, and settles there. -/
def Walks (t : Tree) : Prop :=
  ∀ (missing : Pass TypeId) (result : Option TypeId) (fuel : Nat) (B : Set NodeId) (f : Frame)
    (fs : List Frame) (us : List Tree) (s : Session), s.Scoped →
    s.tree.Forest (plug (f :: fs) [t] ++ us) → Ready s B t → 2 * t.ids.length ≤ fuel →
    Returns (analyzeStatement missing result fuel t.handle) s fun node s' =>
      ∃ t', node = t'.handle ∧ Settled (· ∈ t.ids) s B f fs us t t' s'

/-- A statement settles alone. -/
def SettlesAlone (n : Nat) (t : Tree) (rs : List Tree) : Prop := ∃ t', rs = [t'] ∧ Settles n t t'

theorem SettlesAlone.mono {n m : Nat} {rs : List Tree} (hle : n ≤ m) (h : SettlesAlone m t rs) :
    SettlesAlone n t rs := by
  obtain ⟨t', rfl, ht'⟩ := h
  exact ⟨t', rfl, ht'.mono hle⟩

theorem settles_of_alone {n : Nat} {ts : List Tree} {rss : List (List Tree)}
    (h : List.Forall₂ (SettlesAlone n) ts rss) : List.Forall₂ (Settles n) ts rss.flatten := by
  induction h with
  | nil => exact .nil
  | cons ht _ ih =>
    obtain ⟨t', rfl, ht'⟩ := ht
    exact .cons ht' ih

theorem Walks.visits (h : Walks t) (kind : NodeKind) : Visits kind SettlesAlone t := by
  intro missing result fuel B f fs us s _ hs hf hready hfuel
  refine (h missing result fuel B f fs us s hs hf hready hfuel).imp ?_
  rintro node s' ⟨t', rfl, h'⟩
  refine ⟨[], t', rfl, ⟨t', rfl, h'.settles⟩, ?_, h'.done, h'.hands⟩
  rw [Frame.after_nil]
  exact h'.reworks

/-- What a node that is no sequence has set is handed over with the node. -/
theorem hands_whole {k : NodeKind} {cs : List Tree} {t' : Tree} (hk : k.isSequence = false)
    (hf : (Tree.node i k cs).ImportFree → Hands s s' {i} (exportsOf [t'])) :
    Hands s s' (exportsOf [.node i k cs]) (exportsOf [t']) := by
  intro τ p hset hp
  obtain ⟨rfl, hfree⟩ := (mem_exportsOf_singleton.mp hp).eq_handle hk
  exact hf hfree τ p hset rfl

theorem hands_self {n : Nat} {k : NodeKind} {cs cs' : List Tree} (hk : k.isSequence = false)
    (hs : Settles n (.node i k cs) (.node i k cs')) (h : Hands s s' {i} {i}) :
    Hands s s' (exportsOf [.node i k cs]) (exportsOf [.node i k cs']) := by
  refine hands_whole hk fun hfree => h.mono Set.Subset.rfl ?_
  rintro _ rfl
  exact mem_exportsOf_singleton.mpr (.whole (hs.importFree hfree))

/-- A sequence is handed over with its parts. -/
theorem hands_sequence {n : Nat} {k : NodeKind} {cs cs' : List Tree} (hk : k.isSequence = true)
    (hs : Settles n (.node i k cs) (.node i k cs')) (hself : Hands s s' {i} {i})
    (hparts : Hands s s' (exportsOf cs) (exportsOf cs')) :
    Hands s s' (exportsOf [.node i k cs]) (exportsOf [.node i k cs']) := by
  intro τ p hset hp
  cases mem_exportsOf_singleton.mp hp with
  | whole free =>
    obtain ⟨p', hset', rfl⟩ := hself τ i hset rfl
    exact ⟨p', hset', mem_exportsOf_singleton.mpr (.whole (hs.importFree free))⟩
  | part _ mem below =>
    obtain ⟨p', hset', hp'⟩ := hparts τ p hset ⟨_, mem, below⟩
    exact ⟨p', hset', exportsOf_subset_exports hk hp'⟩

/-- Sequences are annotated after their parts. -/
theorem walks_container {cs : List Tree} (hk : kind = .pair ∨ kind = .basicBlock)
    (hR : ∀ n m t rs, n ≤ m → R m t rs → R n t rs) (hv : ∀ t ∈ cs, Visits kind R t)
    (hsettles : ∀ n rss, List.Forall₂ (R n) cs rss →
      Settles n (.node i kind cs) (.node i kind rss.flatten)) : Walks (.node i kind cs) := by
  intro missing result fuel B f fs us s hs h hready hfuel
  rw [Tree.ids_node, List.length_append, List.length_singleton] at hfuel
  obtain ⟨fuel, rfl⟩ : ∃ n, fuel = n + 1 := Nat.exists_eq_succ_of_ne_zero (by omega)
  have hkind : s.tree.kind i = kind := h.gap.kind
  have hsequence : kind.isSequence = true := by rcases hk with rfl | rfl <;> rfl
  have huse : kind.isUse = false := by rcases hk with rfl | rfl <;> rfl
  have hoperator : kind.isOperator = false := by rcases hk with rfl | rfl <;> rfl
  have htemp : ∀ τ, kind ≠ .temp τ := by rcases hk with rfl | rfl <;> simp
  have hmidway := Midway.of_ready hready hsequence
  have hcontainer : Returns (do
      analyzeChildren missing result fuel i 0
      annotateContainer i
      return i) s fun node s' => ∃ t', node = t'.handle ∧
        Settled (· ∈ (Tree.node i kind cs).ids) s B f fs us (.node i kind cs) t' s' := by
    refine triple_bind.mpr ((returns_analyzeChildren [] hR hv missing result (by omega) hs h
      hmidway).imp ?_)
    rintro - s₁ ⟨rss, hrss, h₁, hd₁, hh₁⟩
    have hi : i.index < s₁.tree.size := h₁.forest.lt_size_gap i (by simp)
    refine triple_bind.mpr (((h₁.mono (M := (· ∈ (Tree.node i kind cs).ids)) fun id hid => by
      simp [hid]).notes (types_annotateContainer (N := (· = i)) rfl)
      (by rintro _ rfl; exact .inl (by simp)) hi).imp ?_)
    rintro - s₂ ⟨h₂, hl₂, htyped⟩
    have hB := spared_self hready h₁.proceeds.size
    have hd₂ := hd₁.proceeds hl₂.proceeds (spared_below h₁.forest) hB
    have hset := hsettles s.tree.size rss hrss
    have hself : Hands s s₁ {i} {i} := h₁.proceeds.hands fun p hp => by
      obtain rfl : p = i := hp
      exact ⟨h.lt_size_gap p (by simp), fun hm => (spared_below h p hm).2 rfl⟩
    exact ⟨_, rfl, hset, h₂, .sequence hsequence hd₂ (.of_cover (.of_type htyped huse)
      htemp hoperator), (hands_sequence hsequence hset hself hh₁).trans
      (.of_temps hl₂.temps Set.Subset.rfl), .inl rfl⟩
  unfold analyzeStatement
  refine triple_bind.mpr (triple_kindOf.mpr ?_)
  rw [Tree.handle_node, hkind]
  rcases hk with rfl | rfl <;> exact hcontainer

theorem walks_basicBlock {cs : List Tree} (steps : ∀ step ∈ cs, Step step)
    (hi : ∀ step ∈ cs, step.kind.isInferred = false) : Walks (.node i .basicBlock cs) :=
  walks_container (.inr rfl) (fun _ _ _ _ hle hr => hr.mono hle)
    (fun t ht => visits_step (steps t ht) (hi t ht)) fun _ _ h => .basicBlock h

theorem walks_pair {a b : Tree} (ha : Walks a) (hb : Walks b) : Walks (.node i .pair [a, b]) := by
  refine walks_container (R := SettlesAlone) (.inl rfl) (fun _ _ _ _ hle h => h.mono hle)
    (by simpa using ⟨ha.visits .pair, hb.visits .pair⟩) fun n rss h => ?_
  obtain ⟨a', b', hrss, ha', hb'⟩ : ∃ a' b', rss.flatten = [a', b'] ∧ Settles n a a' ∧
      Settles n b b' := by
    have h' := settles_of_alone h
    simp only [List.forall₂_cons_left_iff, List.forall₂_nil_left_iff] at h'
    obtain ⟨a', _, ha', ⟨b', _, hb', rfl, rfl⟩, hrss⟩ := h'
    exact ⟨a', b', hrss, ha', hb'⟩
  rw [hrss]
  exact .pair ha' hb'

-- ---------------------------------------------------------------------------
-- Branches and loops
-- ---------------------------------------------------------------------------

/-- What is done of a branch stays so while an arm is analyzed, and the other arms stay ready. -/
theorem Settled.arms {left as : List Tree} {a a' : Tree}
    (h : s.tree.Forest (plug fs [.node i kind (left ++ a :: as)] ++ us))
    (ha : Settled (· ∈ a.ids) s B ⟨i, kind, left, as⟩ fs us a a' s')
    (hd : ∀ d ∈ left, Done s B [d]) (hr : ∀ b ∈ a :: as, Ready s B b) :
    (∀ d ∈ left ++ [a'], Done s' B [d]) ∧ ∀ b ∈ as, Ready s' B b := by
  obtain ⟨hra, hr⟩ := List.forall_mem_cons.mp hr
  have hothers := spared_child h
  refine ⟨List.forall_mem_append.mpr ⟨fun d hm => ?_, by simpa using ha.done⟩, fun b hm => ?_⟩
  · refine (hd d hm).proceeds ha.reworks.proceeds (fun id hid => hothers id ?_) hra.spared
    simp only [List.mem_append]
    exact .inl (.inl (Tree.mem_idsOf.mpr ⟨d, hm, by simpa using hid⟩))
  · refine (hr b hm).proceeds ha.reworks.proceeds (fun id hid => hothers id ?_)
      fun p hp => hra.apart p hp
    simp only [List.mem_append]
    exact .inl (.inr (Tree.mem_idsOf.mpr ⟨b, hm, hid⟩))

/-- An arm is followed by the next one. -/
theorem triple_analyzeArms_cons (left : List Tree) {as : List Tree} {a : Tree}
    {missing : Pass TypeId} {result : Option TypeId} {fuel : Nat}
    {Q : List TypeId → Session → Prop} {E : Fault → Session → Prop}
    (h : s.tree.Forest (plug fs [.node i kind (left ++ a :: as)] ++ us)) :
    Triple (analyzeArms missing result (fuel + 1) i left.length) s Q E ↔
      Triple (analyzeStatement missing result fuel a.handle) s (fun node s' =>
        Triple (analyzeArms missing result fuel i (left ++ [a]).length) s' (fun types s'' =>
          Q ((s'.tree.facts node).type.getD .error :: types) s'') E) E := by
  conv_lhs => unfold analyzeArms
  simp only [triple_bind, triple_child?, child?_left left h, List.head?_cons, Option.map_some,
    typeOf, triple_factsOf, triple_pure, List.length_append, List.length_singleton]

/-- The arms from `left` on are analyzed one after the other, and their types are what is known
of them in the end. -/
theorem returns_analyzeArms (left : List Tree) {as : List Tree} (hw : ∀ a ∈ as, Walks a)
    (hs : s.Scoped) (h : s.tree.Forest (plug fs [.node i kind (left ++ as)] ++ us))
    (hd : ∀ d ∈ left, Done s B [d]) (hr : ∀ a ∈ as, Ready s B a) (missing : Pass TypeId)
    (result : Option TypeId) {fuel : Nat} (hfuel : 2 * (idsOf as).length + 1 ≤ fuel) :
    Returns (analyzeArms missing result fuel i left.length) s fun types s' =>
      ∃ as', List.Forall₂ (Settles s.tree.size) as as' ∧
        Reworks (· ∈ idsOf as) s (plug fs [.node i kind (left ++ as')] ++ us) s' ∧
        (∀ d ∈ left ++ as', Done s' B [d]) ∧
        types = as'.map fun d => (s'.tree.facts d.handle).type.getD .error := by
  induction as generalizing left s fuel with
  | nil =>
    obtain ⟨fuel, rfl⟩ : ∃ n, fuel = n + 1 := Nat.exists_eq_succ_of_ne_zero (by omega)
    unfold analyzeArms
    simp only [triple_bind, triple_child?, child?_left left h]
    exact ⟨[], .nil, .refl hs h, by simpa using hd, rfl⟩
  | cons a as ih =>
    obtain ⟨fuel, rfl⟩ : ∃ n, fuel = n + 1 := Nat.exists_eq_succ_of_ne_zero (by omega)
    have hpos := length_ids_pos a
    rw [Tree.idsOf_cons, List.length_append] at hfuel
    have hra := hr a List.mem_cons_self
    rw [List.forall_mem_cons] at hw
    rw [Returns, triple_analyzeArms_cons left h]
    refine (hw.1 missing result fuel B ⟨i, kind, left, as⟩ fs us s hs (by rwa [plug_child]) hra
      (by omega)).imp ?_
    rintro _ s₁ ⟨a', rfl, ha'⟩
    obtain ⟨hleft, hready⟩ := ha'.arms h hd hr
    have h₁ := ha'.reworks
    rw [plug_child, List.append_cons] at h₁
    have hlength : (left ++ [a]).length = (left ++ [a']).length := by simp
    rw [hlength]
    refine (ih (left ++ [a']) hw.2 h₁.session h₁.forest hleft hready (by omega)).imp ?_
    rintro - s₂ ⟨as', has', h₂, hd₂, rfl⟩
    refine ⟨a' :: as', .cons ha'.settles (has'.imp fun _ _ h => h.mono h₁.proceeds.size), ?_,
      by simpa using hd₂, ?_⟩
    · have h₂' := (h₁.mono fun id hid => List.mem_append_left (idsOf as) hid).trans h₂
        fun id hid => .inl (List.mem_append_right a.ids hid)
      simpa using h₂'
    · have hn := h₁.forest.nodup_gap
      have hlt := h₁.forest.lt_size_gap a'.handle (by simp [a'.handle_mem_ids])
      simp only [Tree.idsOf_cons, Tree.ids_node, Tree.idsOf_nil, List.append_nil,
        Tree.idsOf_append left, Tree.idsOf_append (left ++ [a'])] at hn
      have hapart : a'.handle ∉ idsOf as := fun hm =>
        (List.nodup_append.mp hn.of_append_left).2.2 _
          (List.mem_append_right _ a'.handle_mem_ids) _ hm rfl
      rw [List.map_cons, h₂.proceeds.facts hlt hapart]

/-- The condition of a branch is analyzed, and asked for what is known of it. -/
theorem returns_condition {k : NodeKind} {c : Tree} {as : List Tree} (hc : Walks c)
    (hk : k.isControlFlow = true) (hs : s.Scoped)
    (h : s.tree.Forest (plug (f :: fs) [.node i k (c :: as)] ++ us))
    (hready : Ready s B (.node i k (c :: as))) (missing : Pass TypeId) (result : Option TypeId)
    {fuel : Nat} (hfuel : 2 * c.ids.length ≤ fuel) :
    Returns (analyzeStatement missing result fuel c.handle) s fun condition s₁ =>
      Returns (checkCondition condition) s₁ fun _ s₂ =>
        Returns (constantCondition? condition) s₂ fun _ s' => ∃ c', Settles s.tree.size c c' ∧
          Reworks (· ∈ c.ids) s (plug (f :: fs) [.node i k (c' :: as)] ++ us) s' ∧
          Done s' B [c'] ∧ ∀ a ∈ as, Ready s' B a := by
  have hrc : Ready s B c := hready.child (NodeKind.isPlain_of_isControlFlow hk) (by simp)
  refine (hc missing result fuel B ⟨i, k, [], as⟩ (f :: fs) us s hs h hrc hfuel).imp ?_
  rintro _ s₁ ⟨c', rfl, hc'⟩
  have h₁ := hc'.reworks
  refine (learner_checkCondition (N := fun _ => False) (G := fun _ => True) c'.handle s₁
    h₁.session trivial).imp fun _ s₂ hl₂ => ?_
  refine (learner_constantCondition? (N := fun _ => False) (G := fun _ => True) c'.handle s₂
    (hl₂.scoped h₁.session) trivial).imp fun _ s₃ hl₃ => ?_
  have hl := hl₂.trans hl₃
  have h₃ : Reworks (· ∈ c.ids) s (plug (f :: fs) [.node i k (c' :: as)] ++ us) s₃ :=
    h₁.learns hl fun _ => False.elim
  refine ⟨c', hc'.settles, h₃, ?_, fun a ha => ?_⟩
  · exact hc'.done.proceeds hl.proceeds (fun id hid =>
      ⟨h₁.forest.lt_size_gap id hid, not_false⟩) fun p hp =>
      ⟨Nat.lt_of_lt_of_le (hrc.known p hp).1 h₁.proceeds.size, not_false⟩
  · have hother := spared_child (l := []) h
    refine (hready.child (NodeKind.isPlain_of_isControlFlow hk) (by simp [ha])).proceeds
      h₃.proceeds (fun id hid => hother id ?_) fun p hp => hrc.apart p hp
    simp [Tree.mem_idsOf.mpr ⟨a, ha, hid⟩]

/-- An arm takes the place of a branch, and is still ready there. -/
theorem returns_substituteArm (ls : List Tree) {rs : List Tree} {k : NodeKind} {a : Tree}
    (hs : s.Scoped) (h : s.tree.Forest (plug (f :: fs) [.node i k []] ++ (ls ++ a :: rs ++ us)))
    (hr : Ready s B a) (hi : i ∉ B) :
    Returns (substitute i a.handle) s fun _ s' =>
      Reworks (· = i) s (plug (f :: fs) [a] ++ .node i k [] :: (ls ++ rs ++ us)) s' ∧
        Retargets i a.handle s s' ∧ Ready s' B a ∧ ∀ id ∈ a.ids, Spared (· = i) s id := by
  have h₀ : s.tree.Forest (plug (f :: fs) [.node i k []] ++ a :: (ls ++ rs ++ us)) := by
    refine h.perm (List.Perm.append_left _ ?_)
    simp
  have hapart : ∀ id ∈ a.ids, Spared (· = i) s id := by
    intro id hid
    have hn := (Arena.forest_plug.mp h₀).2.2.2.of_append_right
    simp only [Tree.idsOf_cons, Tree.ids_node, Tree.idsOf_nil, List.nil_append,
      List.singleton_append, List.nodup_cons, List.mem_append] at hn
    refine ⟨h₀.1.lt_size id (by simp [hid]), ?_⟩
    rintro rfl
    exact hn.1 (.inl hid)
  refine ((Reworks.refl (N := (· = i)) hs h₀).substitute (.inl rfl)).imp ?_
  rintro - s₁ ⟨h₁, hover₁⟩
  exact ⟨h₁, hover₁, hr.proceeds h₁.proceeds hapart fun p hp he => hi (he ▸ hp), hapart⟩

/-- An arm takes the place of a branch, and is analyzed there. What else was below the
branch is given up. -/
theorem returns_replaceByArm (ls : List Tree) {rs : List Tree} {k : NodeKind} {a : Tree}
    (hw : Walks a) (hs : s.Scoped)
    (h : s.tree.Forest (plug (f :: fs) [.node i k []] ++ (ls ++ a :: rs ++ us)))
    (hr : Ready s B a) (hi : i ∉ B) (missing : Pass TypeId) (result : Option TypeId) {fuel : Nat}
    (hfuel : 2 * a.ids.length ≤ fuel) :
    Returns (do
        substitute i a.handle
        let analyzed ← analyzeStatement missing result fuel a.handle
        retargetTemps a.handle analyzed
        return analyzed) s fun node s' => ∃ a', node = a'.handle ∧ Settles s.tree.size a a' ∧
      Reworks (fun id => id = i ∨ id ∈ a.ids) s (plug (f :: fs) [a'] ++ us) s' ∧
      Done s' B [a'] ∧ (a.ImportFree → Hands s s' {i} (exportsOf [a'])) ∧ i ∉ a'.ids := by
  refine triple_bind.mpr ((returns_substituteArm ls hs h hr hi).imp ?_)
  rintro - s₁ ⟨h₁, hover₁, hr₁, -⟩
  refine triple_bind.mpr
    ((hw missing result fuel B f fs _ s₁ h₁.session h₁.forest hr₁ hfuel).imp ?_)
  rintro _ s₂ ⟨a', rfl, ha'⟩
  -- the branch is still there, so it is not in what has taken its place
  have hgone : i ∉ a'.ids := by
    intro hm
    have hn := (Arena.forest_plug.mp ha'.reworks.forest).2.2.2.of_append_right
    exact (List.nodup_append.mp hn).2.2 i (by simpa using hm) i (by simp) rfl
  have hrest : s₂.tree.Forest (plug (f :: fs) [a'] ++ us) :=
    (ha'.reworks.forest.drop.swap _ (ls ++ rs)).right
  let M : NodeId → Prop := fun id => id = a.handle ∧ id ∉ a'.ids
  have hm : a'.handle = a.handle ∨ M a.handle ∨ s₂.tree.size ≤ a.handle.index :=
    ha'.gone.imp_right fun hg => .inl ⟨rfl, hg⟩
  refine triple_bind.mpr (((Reworks.refl (N := M) ha'.reworks.session hrest).retarget hm).imp ?_)
  rintro - s₃ ⟨h₃, hover₃⟩
  refine ⟨a', rfl, ha'.settles.mono h₁.proceeds.size, ?_, ?_, fun hfree => ?_, hgone⟩
  · have h₁₂ := (h₁.mono (M := fun id => id = i ∨ id ∈ a.ids) fun _ he => .inl he).trans ha'.reworks
      fun id hid => .inl (.inr hid)
    refine h₁₂.trans h₃ fun id hid => .inl (.inr ?_)
    rw [hid.1]
    exact a.handle_mem_ids
  · refine ha'.done.proceeds h₃.proceeds (fun id hid => ⟨hrest.lt_size_gap id hid, ?_⟩)
      fun p hp => ⟨?_, ?_⟩
    · exact fun hm => hm.2 (by simpa using hid)
    · exact Nat.lt_of_lt_of_le (hr₁.known p hp).1 ha'.reworks.proceeds.size
    · rintro ⟨rfl, -⟩
      exact hr.apart _ hp a.handle_mem_ids
  · have hself : a'.handle ∈ exportsOf [a'] :=
      mem_exportsOf_singleton.mpr (.whole (ha'.settles.importFree hfree))
    have hfirst : Hands s s₁ {i} (exportsOf [a]) :=
      hover₁.hands (mem_exportsOf_singleton.mpr (.whole hfree)) fun p hp hne => absurd hp hne
    exact (hfirst.trans ha'.hands).trans (hover₃.hands hself fun p hp _ => hp)

/-- The empty block that is made has a type. -/
theorem returns_emptyBlockLike {ts : List Tree} (hs : s.Scoped) (h : s.tree.Forest ts)
    (node : NodeId) :
    Returns (emptyBlockLike node) s fun j s' => s.tree.size ≤ j.index ∧
      Reworks (fun _ => False) s (.node j .basicBlock [] :: ts) s' ∧
      ∀ B, Done s' B [.node j .basicBlock []] := by
  refine triple_bind.mpr ((Reworks.refl (N := fun _ => False) hs h).addLike.imp ?_)
  rintro j s₁ ⟨h₁, hj⟩
  have hlt : j.index < s₁.tree.size := h₁.forest.1.lt_size j (by simp)
  refine triple_bind.mpr ((h₁.notes (types_setType (N := (· = j)) rfl _)
    (by rintro _ rfl; exact .inr hj) hlt).imp ?_)
  rintro - s₂ ⟨h₂, -, htyped⟩
  exact ⟨hj, h₂, fun _ => .sequence rfl .nil (.of_cover (.of_type htyped rfl) (by simp) rfl)⟩

theorem ready_emptyBlock {ts : List Tree} {j : NodeId} (h : Reworks (fun _ => False) s ts s')
    (hj : s.tree.size ≤ j.index)
    (hB : ∀ p ∈ B, p.index < s.tree.size ∧ (s.tree.facts p).type.isSome = true) :
    Ready s' B (.node j .basicBlock []) := by
  refine ⟨.sequence rfl fedSeq_nil, fun p hp => ?_, fun p hp hm => ?_⟩
  · rw [h.proceeds.facts (hB p hp).1 not_false]
    exact ⟨Nat.lt_of_lt_of_le (hB p hp).1 h.proceeds.size, (hB p hp).2⟩
  · obtain rfl : p = j := by simpa using hm
    exact Nat.not_lt.mpr hj (hB p hp).1

theorem settles_emptyBlock {n : Nat} {j : NodeId} (h : Settles n (.node j .basicBlock []) t) :
    t = .node j .basicBlock [] := by
  cases h with
  | basicBlock steps =>
    cases steps
    rfl

/-- Without an arm to take its place, a branch gives way to an empty block, which is analyzed
in its turn. -/
theorem returns_replaceByEmpty {rs : List Tree} {k : NodeKind} (hs : s.Scoped)
    (h : s.tree.Forest (plug (f :: fs) [.node i k []] ++ (rs ++ us)))
    (hB : ∀ p ∈ B, p.index < s.tree.size ∧ (s.tree.facts p).type.isSome = true) (hi : i ∉ B)
    (missing : Pass TypeId) (result : Option TypeId) {fuel : Nat} (hfuel : 2 ≤ fuel) :
    Returns (do
        let replacement ← emptyBlockLike i
        substitute i replacement
        let analyzed ← analyzeStatement missing result fuel replacement
        retargetTemps replacement analyzed
        return analyzed) s fun j s' => s.tree.size ≤ j.index ∧
      Reworks (· = i) s (plug (f :: fs) [.node j .basicBlock []] ++ us) s' ∧
      Done s' B [.node j .basicBlock []] ∧ Hands s s' {i} (exportsOf [.node j .basicBlock []]) ∧
      i ≠ j := by
  refine triple_bind.mpr ((returns_emptyBlockLike hs h i).imp ?_)
  rintro j s₁ ⟨hj, h₁, -⟩
  refine (returns_replaceByArm [] (walks_basicBlock (by simp) (by simp)) h₁.session
    (h₁.forest.perm List.perm_middle.symm) (ready_emptyBlock h₁ hj hB) hi missing result
    (by simpa using hfuel)).imp ?_
  rintro _ s₂ ⟨t', rfl, ht', h₂, hd₂, hh₂, hgone⟩
  obtain rfl := settles_emptyBlock ht'
  have hself : Hands s s₁ {i} {i} := h₁.proceeds.hands fun p hp => by
    obtain rfl : p = i := hp
    exact ⟨h.lt_size_gap p (by simp), not_false⟩
  refine ⟨hj, ?_, hd₂, hself.trans (hh₂ (.leaf rfl)), by simpa using hgone⟩
  refine (h₁.mono fun _ => False.elim).trans h₂ fun id hid => ?_
  rcases hid with rfl | hid
  · exact .inl rfl
  · obtain rfl : id = j := by simpa using hid
    exact .inr hj

/-- What has become of a branch or loop `t` with the parts `as`, from the session on in which
its condition is known. -/
structure Branched (n : Nat) (s : Session) (B : Set NodeId) (f : Frame) (fs : List Frame)
    (us : List Tree) (t : Tree) (as : List Tree) (t' : Tree) (s' : Session) : Prop where
  settles : Settles n t t'
  reworks : Reworks (fun id => id = t.handle ∨ id ∈ idsOf as) s (plug (f :: fs) [t'] ++ us) s'
  done : Done s' B [t']
  hands : t.ImportFree → Hands s s' {t.handle} (exportsOf [t'])
  gone : t'.handle = t.handle ∨ t.handle ∉ t'.ids

/-- The condition has been analyzed before. -/
theorem settled_of_branched {k : NodeKind} {c : Tree} {as ts : List Tree}
    (hk : k.isControlFlow = true)
    (hf : s.tree.Forest (plug (f :: fs) [.node i k (c :: as)] ++ us))
    (hr : Reworks (· ∈ c.ids) s ts s') (node : NodeId) (s'' : Session)
    (h : ∃ t', node = t'.handle ∧
      Branched s.tree.size s' B f fs us (.node i k (c :: as)) as t' s'') :
    ∃ t', node = t'.handle ∧ Settled (· ∈ (Tree.node i k (c :: as)).ids) s B f fs us
      (.node i k (c :: as)) t' s'' := by
  obtain ⟨t', rfl, h⟩ := h
  have hself : Hands s s' {i} {i} := hr.proceeds.hands fun p hp => by
    obtain rfl : p = i := hp
    exact spared_child (l := []) hf p (by simp)
  refine ⟨t', rfl, h.settles, ?_, h.done, ?_, h.gone⟩
  · have hr' := hr.mono (M := (· ∈ (Tree.node i k (c :: as)).ids)) fun id hid => by simp [hid]
    refine hr'.trans h.reworks fun id hid => .inl ?_
    rcases hid with rfl | hid
    · simp
    · simp [hid]
  · have hsequence : k.isSequence = false := by
      rcases NodeKind.eq_of_isControlFlow hk with rfl | rfl <;> rfl
    exact hands_whole hsequence fun hfree => hself.trans (h.hands hfree)

/-- Something else has taken the place of a branch, once its parts had been taken. -/
theorem Branched.of_replaced {n : Nat} {k : NodeKind} {c c' t' : Tree} {as ts : List Tree}
    (h : s.tree.Forest (plug (f :: fs) [.node i k (c' :: as)] ++ us))
    (htaken : Reworks (fun _ => False) s ts s') (hset : Settles n (.node i k (c :: as)) t')
    (hr : Reworks N s' (plug (f :: fs) [t'] ++ us) s'')
    (hN : ∀ id, N id → (id = i ∨ id ∈ idsOf as) ∨ s.tree.size ≤ id.index)
    (hd : Done s'' B [t'])
    (hh : (Tree.node i k (c :: as)).ImportFree → Hands s' s'' {i} (exportsOf [t']))
    (hgone : i ∉ t'.ids) : Branched n s B f fs us (.node i k (c :: as)) as t' s'' := by
  have hself : Hands s s' {i} {i} := htaken.proceeds.hands fun p hp => by
    obtain rfl : p = i := hp
    exact ⟨h.lt_size_gap p (by simp), not_false⟩
  exact ⟨hset, (htaken.mono fun _ => False.elim).trans hr hN, hd,
    fun hfree => hself.trans (hh hfree), .inr hgone⟩

/-- A branch whose condition is known gives way to what it selects. -/
theorem returns_knownBranch {n : Nat} {c c' : Tree} {as : List Tree}
    (hlen : as.length = 1 ∨ as.length = 2) (hc : Settles n c c') (hn : n ≤ s.tree.size)
    (ha : ∀ a ∈ as, Walks a) (hs : s.Scoped)
    (h : s.tree.Forest (plug (f :: fs) [.node i .ifElse (c' :: as)] ++ us))
    (hr : ∀ a ∈ as, Ready s B a) (hi : i ∉ B) (missing : Pass TypeId) (result : Option TypeId)
    {fuel : Nat} (hfuel : 2 * (idsOf as).length ≤ fuel) (taken : Bool) :
    Returns (do
        let parts ← takeChildren i
        let replacement ← match parts[if taken then 1 else 2]? with
          | some arm => pure arm
          | none => emptyBlockLike i
        substitute i replacement
        let analyzed ← analyzeStatement missing result fuel replacement
        retargetTemps replacement analyzed
        return analyzed) s fun node s' => ∃ t', node = t'.handle ∧
      Branched n s B f fs us (.node i .ifElse (c :: as)) as t' s' := by
  refine triple_bind.mpr ((Reworks.refl (N := fun _ => False) hs h).take.imp ?_)
  rintro _ s₁ ⟨rfl, h₁⟩
  have hsize : n ≤ s₁.tree.size := Nat.le_trans hn h₁.proceeds.size
  have hr₁ : ∀ a ∈ as, Ready s₁ B a := fun a hm => (hr a hm).proceeds h₁.proceeds
    (fun id hid => ⟨h.lt_size_gap id (by
      have := Tree.mem_idsOf.mpr ⟨a, hm, hid⟩
      simp [this]), not_false⟩) fun _ _ => not_false
  obtain ⟨a, bs, rfl⟩ : ∃ a bs, as = a :: bs := List.exists_cons_of_length_pos (by omega)
  simp only [Tree.idsOf_cons, List.length_append] at hfuel
  cases taken with
  | true =>
    refine (returns_replaceByArm [c'] (ha a (by simp)) h₁.session h₁.forest (hr₁ a (by simp)) hi
      missing result (by omega)).imp ?_
    rintro _ s₂ ⟨a', rfl, ha', h₂, hd₂, hh₂, hgone⟩
    exact ⟨a', rfl, .of_replaced h h₁ (.taken hc (ha'.mono hsize)) h₂
      (fun id hid => .inl (hid.imp_right fun hid => by simp [hid])) hd₂
      (fun hf => hh₂ (hf.child (by simp))) hgone⟩
  | false =>
    cases bs with
    | nil =>
      have hpos := length_ids_pos a
      refine (returns_replaceByEmpty h₁.session h₁.forest (hr₁ a (by simp)).known hi missing result
        (by omega)).imp ?_
      rintro j s₂ ⟨hj, h₂, hd₂, hh₂, hne⟩
      exact ⟨.node j .basicBlock [], rfl,
        .of_replaced h h₁ (.dropped rfl hc (Nat.le_trans hsize hj))
        h₂ (fun id hid => .inl (.inl hid)) hd₂ (fun _ => hh₂) (by simpa using hne)⟩
    | cons b bs =>
      obtain rfl : bs = [] := List.eq_nil_of_length_eq_zero (by simpa using hlen)
      refine (returns_replaceByArm [c', a] (ha b (by simp)) h₁.session h₁.forest (hr₁ b (by simp))
        hi missing result (by simp at hfuel; omega)).imp ?_
      rintro _ s₂ ⟨b', rfl, hb', h₂, hd₂, hh₂, hgone⟩
      exact ⟨b', rfl, .of_replaced h h₁ (.notTaken hc (hb'.mono hsize)) h₂
        (fun id hid => .inl (hid.imp_right fun hid => by simp [hid])) hd₂
        (fun hf => hh₂ (hf.child (by simp))) hgone⟩

/-- A node all of whose parts are done gets its type last. -/
theorem returns_close {n : Nat} {k : NodeKind} {c c' : Tree} {as as' : List Tree}
    (hk : k.isControlFlow = true)
    (hset : Settles n (.node i k (c :: as)) (.node i k (c' :: as')))
    (h : Reworks (· ∈ idsOf as) s (plug (f :: fs) [.node i k (c' :: as')] ++ us) s')
    (hlt : i.index < s.tree.size) (hi : i ∉ idsOf as)
    (hd : ∀ d ∈ c' :: as', Done s' B [d])
    (hB : ∀ p ∈ B, Spared (· = i) s p) (type : TypeId) :
    Returns (do
        setType i type
        return i) s' fun node s'' => ∃ t', node = t'.handle ∧
      Branched n s B f fs us (.node i k (c :: as)) as t' s'' := by
  have hplain := NodeKind.isPlain_of_isControlFlow hk
  obtain ⟨huse, hoperator, htemp⟩ :
      k.isUse = false ∧ k.isOperator = false ∧ ∀ τ, k ≠ .temp τ := by
    rcases NodeKind.eq_of_isControlFlow hk with rfl | rfl <;>
      simp [NodeKind.isUse, NodeKind.isOperator]
  have h' := h.mono (M := fun id => id = i ∨ id ∈ idsOf as) fun _ => .inr
  refine triple_bind.mpr ((h'.notes (types_setType (N := (· = i)) rfl type)
    (fun _ he => .inl (.inl he)) (Nat.lt_of_lt_of_le hlt h.proceeds.size)).imp ?_)
  rintro - s₁ ⟨h₁, hl₁, htyped⟩
  have hbelow := spared_below h.forest
  refine ⟨.node i k (c' :: as'), rfl, hset, h₁, .plain hplain (fun d hm => ?_)
    (.of_cover (.of_type htyped huse) htemp hoperator), fun hfree => ?_, .inl rfl⟩
  · refine (hd d hm).proceeds hl₁.proceeds (fun id hid => hbelow id ?_) fun p hp => ⟨?_, ?_⟩
    · exact Tree.mem_idsOf.mpr ⟨d, hm, by simpa using hid⟩
    · exact Nat.lt_of_lt_of_le (hB p hp).1 h.proceeds.size
    · exact (hB p hp).2
  · have hself : Hands s s' {i} {i} := h.proceeds.hands fun p hp => by
      obtain rfl : p = i := hp
      exact ⟨hlt, hi⟩
    refine (hself.trans (.of_temps hl₁.temps Set.Subset.rfl)).mono Set.Subset.rfl ?_
    rintro _ rfl
    exact mem_exportsOf_singleton.mpr (.whole (hset.importFree hfree))

theorem returns_openBranch {n : Nat} {c c' : Tree} {as : List Tree}
    (hlen : as.length = 1 ∨ as.length = 2) (hc : Settles n c c') (hn : n ≤ s.tree.size)
    (ha : ∀ a ∈ as, Walks a) (hs : s.Scoped)
    (h : s.tree.Forest (plug (f :: fs) [.node i .ifElse (c' :: as)] ++ us))
    (hd : Done s B [c']) (hr : ∀ a ∈ as, Ready s B a) (hi : i ∉ B) (missing : Pass TypeId)
    (result : Option TypeId) {fuel : Nat} (hfuel : 2 * (idsOf as).length + 1 ≤ fuel) :
    Returns (do
        let arms ← analyzeArms missing result fuel i 1
        let type ← match arms with
          | [first, second] =>
            if ← producesValue i then joinArms i first second else pure .unit
          | _ => pure .unit
        setType i type
        return i) s fun node s' => ∃ t', node = t'.handle ∧
      Branched n s B f fs us (.node i .ifElse (c :: as)) as t' s' := by
  have hlt : i.index < s.tree.size := h.lt_size_gap i (by simp)
  have hself : i ∉ idsOf as := fun hm => (spared_below h i (by simp [hm])).2 rfl
  obtain ⟨a, bs, rfl⟩ : ∃ a bs, as = a :: bs := List.exists_cons_of_length_pos (by omega)
  have hB : ∀ p ∈ B, Spared (· = i) s p := fun p hp =>
    ⟨((hr a (by simp)).known p hp).1, by rintro rfl; exact hi hp⟩
  refine triple_bind.mpr ((returns_analyzeArms [c'] ha hs h (by simpa using hd) hr missing result
    hfuel).imp ?_)
  rintro arms s₁ ⟨as', has', h₁, hd₁, -⟩
  have hset : Settles n (.node i .ifElse (c :: a :: bs)) (.node i .ifElse (c' :: as')) :=
    .conditional hlen hc (has'.imp fun _ _ h => h.mono hn)
  -- nothing happens to the parts while the type is looked for
  have hend : ∀ type s₂, Learns (fun _ => False) s₁ s₂ → Returns (do
        setType i type
        return i) s₂ fun node s' => ∃ t', node = t'.handle ∧
      Branched n s B f fs us (.node i .ifElse (c :: a :: bs)) (a :: bs) t' s' := by
    intro type s₂ hl
    have h₂ := h₁.learns hl fun _ => False.elim
    refine returns_close rfl hset h₂ hlt hself (fun d hm => ?_) hB type
    refine (hd₁ d hm).proceeds hl.proceeds (fun id hid => ⟨?_, not_false⟩) fun p hp =>
      ⟨Nat.lt_of_lt_of_le (hB p hp).1 h₁.proceeds.size, not_false⟩
    exact (spared_below h₁.forest id (Tree.mem_idsOf.mpr ⟨d, hm, by simpa using hid⟩)).1
  have hjoin : ∀ first second, Learner (fun _ => False) (fun _ => True) (joinArms i first second) :=
    learner_joinArms i
  split
  · refine triple_bind.mpr ((learner_producesValue (N := fun _ => False) (G := fun _ => True) i s₁
      h₁.session trivial).imp fun used s₂ hl => ?_)
    split
    · exact triple_bind.mpr ((hjoin _ _ s₂ (hl.scoped h₁.session) trivial).imp fun type s₃ hl' =>
        hend type s₃ (hl.trans hl'))
    · exact hend _ s₂ hl
  · exact hend _ s₁ (.refl s₁)

theorem walks_ifElse {c : Tree} {as : List Tree} (hc : Walks c) (ha : ∀ a ∈ as, Walks a)
    (hlen : as.length = 1 ∨ as.length = 2) : Walks (.node i .ifElse (c :: as)) := by
  intro missing result fuel B f fs us s hs h hready hfuel
  have hpos := length_ids_pos c
  have hi : i ∉ B := fun hm => hready.apart i hm (by simp)
  simp only [Tree.ids_node, Tree.idsOf_cons, List.length_append, List.length_singleton] at hfuel
  obtain ⟨fuel, rfl⟩ : ∃ n, fuel = n + 2 := Nat.exists_eq_add_of_le' (by omega)
  have hkind : s.tree.kind i = .ifElse := h.gap.kind
  have hchild : s.tree.child? i 0 = some c.handle := child?_left [] h
  unfold analyzeStatement
  simp only [Tree.handle_node, triple_bind, triple_kindOf, hkind]
  unfold analyzeIf
  simp only [triple_bind, triple_child?, hchild]
  refine (returns_condition hc rfl hs h hready missing result (by omega)).imp fun _ _ hrun =>
    hrun.imp fun _ _ hrun => hrun.imp ?_
  rintro known s₁ ⟨c', hc', h₁, hd₁, hr₁⟩
  cases known with
  | some taken =>
    exact (returns_knownBranch hlen hc' h₁.proceeds.size ha h₁.session h₁.forest hr₁ hi missing
      result (by omega) taken).imp (settled_of_branched rfl h h₁)
  | none =>
    exact (returns_openBranch hlen hc' h₁.proceeds.size ha h₁.session h₁.forest hd₁ hr₁ hi missing
      result (by omega)).imp (settled_of_branched rfl h h₁)

/-- A loop that never runs gives way to an empty block. -/
theorem returns_dropLoop {n : Nat} {c c' b : Tree} (hc : Settles n c c') (hn : n ≤ s.tree.size)
    (hs : s.Scoped) (h : s.tree.Forest (plug (f :: fs) [.node i .whileLoop [c', b]] ++ us))
    (hB : ∀ p ∈ B, Spared (· = i) s p) :
    Returns (do
        let _ ← takeChildren i
        let replacement ← emptyBlockLike i
        substitute i replacement
        return replacement) s fun node s' => ∃ t', node = t'.handle ∧
      Branched n s B f fs us (.node i .whileLoop [c, b]) [b] t' s' := by
  have hlt : i.index < s.tree.size := h.lt_size_gap i (by simp)
  refine triple_bind.mpr ((Reworks.refl (N := fun _ => False) hs h).take.imp ?_)
  rintro - s₁ ⟨-, h₁⟩
  refine triple_bind.mpr ((returns_emptyBlockLike h₁.session h₁.forest i).imp ?_)
  rintro j s₂ ⟨hj, h₂, hd₂⟩
  let block : Tree := .node j .basicBlock []
  have hall := h₁.trans h₂ fun _ => False.elim
  have hsub := (Reworks.refl (N := (· = i)) h₂.session
    (h₂.forest.perm List.perm_middle.symm)).substitute (y := block) (.inl rfl)
  refine triple_bind.mpr (hsub.imp ?_)
  rintro - s₃ ⟨h₃, hover⟩
  have hj' : s.tree.size ≤ j.index := Nat.le_trans h₁.proceeds.size hj
  have hne : j ≠ i := by
    rintro rfl
    exact Nat.not_lt.mpr hj' hlt
  have hrest : s₃.tree.Forest (plug (f :: fs) [block] ++ us) :=
    (h₃.forest.drop.swap _ [c', b]).right
  refine ⟨block, rfl, .of_replaced h hall (.dropped rfl hc (Nat.le_trans hn hj'))
    (h₃.withForest hrest) (fun _ he => .inl (.inl he)) ?_ (fun _ => ?_) ?_⟩
  · refine (hd₂ B).proceeds h₃.proceeds (fun id hid => ?_) fun p hp => ?_
    · obtain rfl : id = j := by simpa using hid
      exact ⟨h₂.forest.1.lt_size id (by simp), hne⟩
    · exact ⟨Nat.lt_of_lt_of_le (hB p hp).1 hall.proceeds.size, (hB p hp).2⟩
  · exact hover.hands (mem_exportsOf_singleton.mpr (.whole (.leaf rfl)))
      fun p hp hne => absurd hp hne
  · simpa [block] using hne.symm

/-- A loop that may run keeps its place. -/
theorem returns_keepLoop {n : Nat} {c c' b : Tree} (hc : Settles n c c') (hn : n ≤ s.tree.size)
    (hb : Walks b) (hs : s.Scoped)
    (h : s.tree.Forest (plug (f :: fs) [.node i .whileLoop [c', b]] ++ us))
    (hd : Done s B [c']) (hr : Ready s B b) (hB : ∀ p ∈ B, Spared (· = i) s p)
    (missing : Pass TypeId) (result : Option TypeId) {fuel : Nat}
    (hfuel : 2 * b.ids.length ≤ fuel) :
    Returns (do
        if let some body ← child? i 1 then
          let _ ← analyzeStatement missing result fuel body
        setType i .unit
        return i) s fun node s' => ∃ t', node = t'.handle ∧
      Branched n s B f fs us (.node i .whileLoop [c, b]) [b] t' s' := by
  have hbody : s.tree.child? i 1 = some b.handle := child?_left [c'] h
  have hothers := spared_child (l := [c']) h
  simp only [triple_bind, triple_child?, hbody]
  refine (hb missing result fuel B ⟨i, .whileLoop, [c'], []⟩ (f :: fs) us s hs h hr hfuel).imp ?_
  rintro _ s₁ ⟨b', rfl, hb'⟩
  have h₁ : Reworks (· ∈ idsOf [b]) s (plug (f :: fs) [.node i .whileLoop [c', b']] ++ us) s₁ :=
    hb'.reworks.mono fun id hid => by simpa using hid
  have hset : Settles n (.node i .whileLoop [c, b]) (.node i .whileLoop [c', b']) :=
    .whileLoop hc (hb'.settles.mono hn)
  have hdc : Done s₁ B [c'] := hd.proceeds hb'.reworks.proceeds
    (fun id hid => hothers id (by simp_all)) hr.spared
  have hi := hothers i (by simp)
  exact returns_close rfl hset h₁ hi.1 (by simpa using hi.2) (by simpa using ⟨hdc, hb'.done⟩) hB _

theorem walks_whileLoop {c b : Tree} (hc : Walks c) (hb : Walks b) :
    Walks (.node i .whileLoop [c, b]) := by
  intro missing result fuel B f fs us s hs h hready hfuel
  have hpos := length_ids_pos c
  simp only [Tree.ids_node, Tree.idsOf_cons, Tree.idsOf_nil, List.append_nil, List.length_append,
    List.length_singleton] at hfuel
  obtain ⟨fuel, rfl⟩ : ∃ n, fuel = n + 2 := Nat.exists_eq_add_of_le' (by omega)
  have hkind : s.tree.kind i = .whileLoop := h.gap.kind
  have hchild : s.tree.child? i 0 = some c.handle := child?_left [] h
  unfold analyzeStatement
  simp only [Tree.handle_node, triple_bind, triple_kindOf, hkind]
  unfold analyzeWhile
  simp only [triple_bind, triple_child?, hchild]
  refine (returns_condition hc rfl hs h hready missing result (by omega)).imp fun _ _ hrun =>
    hrun.imp fun _ _ hrun => hrun.imp ?_
  rintro known s₁ ⟨c', hc', h₁, hd₁, hr₁⟩
  have hB := spared_self hready h₁.proceeds.size
  split
  · exact (returns_dropLoop hc' h₁.proceeds.size h₁.session h₁.forest hB).imp
      (settled_of_branched rfl h h₁)
  · exact (returns_keepLoop hc' h₁.proceeds.size hb h₁.session h₁.forest hd₁ (hr₁ b (by simp)) hB
      missing result (by omega)).imp (settled_of_branched rfl h h₁)

-- ---------------------------------------------------------------------------
-- Declarations
-- ---------------------------------------------------------------------------

/-- A function gets its signature before its body is looked at. -/
theorem returns_enterFunction {d : DeclId} {b : Tree} (hs : s.Scoped)
    (h : s.tree.Forest (plug (f :: fs) [.node i (.funcDecl d) [b]] ++ us))
    (hready : Ready s B (.node i (.funcDecl d) [b])) :
    Returns (functionSignature d) s fun signature s₁ =>
      Returns (resultOf signature) s₁ fun _ s₂ =>
        Returns (setType i signature) s₂ fun _ s' =>
          Reworks (· = i) s (plug (f :: fs) [.node i (.funcDecl d) [b]] ++ us) s' ∧
            s'.temps = s.temps ∧ (s'.tree.facts i).type.isSome = true ∧ Ready s' ∅ b := by
  have hi : i.index < s.tree.size := h.lt_size_gap i (by simp)
  refine (learner_functionSignature (N := fun _ => False) (G := fun _ => True) d s hs
    trivial).imp fun signature s₁ hl₁ => ?_
  refine (learner_resultOf (N := fun _ => False) (G := fun _ => True) signature s₁ (hl₁.scoped hs)
    trivial).imp fun inner s₂ hl₂ => ?_
  have hl := hl₁.trans hl₂
  have h₂ : Reworks (· = i) s (plug (f :: fs) [.node i (.funcDecl d) [b]] ++ us) s₂ :=
    (Reworks.refl hs h).learns hl fun _ => False.elim
  refine (h₂.notes (types_setType (N := (· = i)) rfl signature) (fun _ he => .inl he)
    (Nat.lt_of_lt_of_le hi hl.size_le)).imp ?_
  rintro - s₃ ⟨h₃, hl₃, htyped⟩
  exact ⟨h₃, hl₃.temps.trans hl.temps, htyped, (hready.body (by simp)).proceeds h₃.proceeds
    (fun id hid => spared_below h id (by simpa using hid)) fun _ hp => hp.elim⟩

theorem walks_funcDecl {d : DeclId} {b : Tree} (hb : Walks b) :
    Walks (.node i (.funcDecl d) [b]) := by
  intro missing result fuel B f fs us s hs h hready hfuel
  simp only [Tree.ids_node, Tree.idsOf_cons, Tree.idsOf_nil, List.append_nil, List.length_append,
    List.length_singleton] at hfuel
  obtain ⟨fuel, rfl⟩ : ∃ n, fuel = n + 1 := Nat.exists_eq_succ_of_ne_zero (by omega)
  have hkind : s.tree.kind i = .funcDecl d := h.gap.kind
  unfold analyzeStatement
  simp only [Tree.handle_node, triple_bind, triple_kindOf, hkind]
  refine (returns_enterFunction hs h hready).imp fun signature _ hrun =>
    hrun.imp fun inner _ hrun => hrun.imp ?_
  rintro - s₁ ⟨h₁, htemps, htyped, hready₁⟩
  have hchild : s₁.tree.child? i 0 = some b.handle := child?_left [] h₁.forest
  simp only [triple_child?, hchild, triple_bind]
  refine (hb missing (some inner) fuel ∅ ⟨i, .funcDecl d, [], []⟩ (f :: fs) us s₁ h₁.session
    h₁.forest hready₁ (by omega)).imp ?_
  rintro _ s₂ ⟨b', rfl, hb'⟩
  have h₂ : Reworks (· ∈ b.ids) s₁ (plug (f :: fs) [.node i (.funcDecl d) [b']] ++ us) s₂ :=
    hb'.reworks
  have hself : Spared (· ∈ b.ids) s₁ i := spared_child (l := []) h₁.forest i (by simp)
  have hset : Settles s.tree.size (.node i (.funcDecl d) [b]) (.node i (.funcDecl d) [b']) :=
    .funcDecl (hb'.settles.mono h₁.proceeds.size)
  refine ⟨_, rfl, hset, ?_, .function (by simpa using hb'.done) (.of_cover (.of_type ?_ rfl)
    (by simp) rfl), hands_self rfl hset ?_, .inl rfl⟩
  · refine (h₁.mono fun id he => by simp [he]).trans h₂ fun id hid => .inl (by simp [hid])
  · rw [h₂.proceeds.facts hself.1 hself.2]
    exact htyped
  · refine (Hands.of_temps htemps Set.Subset.rfl).trans (h₂.proceeds.hands fun p hp => ?_)
    obtain rfl : p = i := hp
    exact hself

/-- Every statement in lowered form is analyzed to the end. -/
theorem walks_lowered (h : Lowered t) (hi : t.Only fun k => k.isInferred = false) : Walks t := by
  induction h with
  | basicBlock steps =>
    exact walks_basicBlock steps fun step hm => (hi.child hm).self
  | pair _ _ iha ihb => exact walks_pair (iha (hi.child (by simp))) (ihb (hi.child (by simp)))
  | ifThen _ _ ihc iha =>
    exact walks_ifElse (ihc (hi.child (by simp))) (by simpa using iha (hi.child (by simp)))
      (.inl rfl)
  | ifElse _ _ _ ihc iha ihb =>
    exact walks_ifElse (ihc (hi.child (by simp)))
      (by simpa using ⟨iha (hi.child (by simp)), ihb (hi.child (by simp))⟩) (.inr rfl)
  | whileLoop _ _ ihc ihb =>
    exact walks_whileLoop (ihc (hi.child (by simp))) (ihb (hi.child (by simp)))
  | funcDecl _ ih => exact walks_funcDecl (ih (hi.child (by simp)))
  | @typeDecl i name =>
    intro missing result fuel B f fs us s hs h hready hfuel
    obtain ⟨fuel, rfl⟩ : ∃ n, fuel = n + 1 :=
      Nat.exists_eq_succ_of_ne_zero (by simp at hfuel; omega)
    have hkind : s.tree.kind i = .typeDecl name := h.gap.kind
    have hlt : i.index < s.tree.size := h.lt_size_gap i (by simp)
    unfold analyzeStatement
    simp only [Tree.handle_node, triple_bind, triple_kindOf, hkind]
    refine ((Reworks.refl (N := (· ∈ (Tree.node i (.typeDecl name) []).ids)) hs h).notes
      (types_analyzeTypeDecl (N := (· = i)) rfl name) (by rintro _ rfl; exact .inl (by simp))
      hlt).imp ?_
    rintro - s₁ ⟨h₁, hl₁, htyped⟩
    exact ⟨_, rfl, .typeDecl, h₁, .plain rfl (by simp) (.of_cover (.of_type htyped rfl)
      (by simp) rfl), .of_temps hl₁.temps Set.Subset.rfl, .inl rfl⟩
  | @importDecl i name isPublic =>
    intro missing result fuel B f fs us s hs h hready hfuel
    obtain ⟨fuel, rfl⟩ : ∃ n, fuel = n + 1 :=
      Nat.exists_eq_succ_of_ne_zero (by simp at hfuel; omega)
    have hkind : s.tree.kind i = .importDecl name isPublic := h.gap.kind
    unfold analyzeStatement
    simp only [Tree.handle_node, triple_bind, triple_kindOf, hkind]
    exact ⟨_, rfl, .importDecl, .refl hs h, .plain rfl (by simp)
      (.of_cover .importDecl (by simp) rfl), .of_temps rfl Set.Subset.rfl, .inl rfl⟩

/-- Inference comes to its end on a module in lowered form whose temporaries are all set,
and never asks for the type that is missing. -/
theorem returns_inferWith {root : NodeId} {name : String} {ts : List Tree} (hs : s.Scoped)
    (ht : ∀ t ∈ ts, Lowered t) (hi : ∀ t ∈ ts, t.Only fun k => k.isInferred = false)
    (hfed : ∀ t ∈ ts, Fed s.temps ∅ t)
    (h : s.tree.Forest (.node root (.moduleRoot name) ts :: us)) (missing : Pass TypeId) :
    Returns (inferWith missing root) s fun _ s' => ∃ ts',
      List.Forall₂ (Settles s.tree.size) ts ts' ∧
      Reworks (· ∈ idsOf ts) s (.node root (.moduleRoot name) ts' :: us) s' ∧ Done s' ∅ ts' := by
  have hlength := h.length_le
  simp only [Tree.idsOf_cons, Tree.ids_node, List.length_append, List.length_singleton] at hlength
  have h' : s.tree.Forest (plug [] [.node root (.moduleRoot name) ([] ++ ts)] ++ us) := h
  unfold inferWith
  simp only [triple_bind, triple_tree]
  refine (returns_analyzeChildren (R := SettlesAlone) [] (fun _ _ _ _ hle h => h.mono hle)
    (fun t hm => (walks_lowered (ht t hm) (hi t hm)).visits _) missing none (by omega) hs h'
    (.of_fed hfed)).imp ?_
  rintro - s' ⟨rss, hrss, h₁, hd₁, -⟩
  exact ⟨rss.flatten, settles_of_alone hrss, h₁, hd₁⟩

end BlockLang.Typing
