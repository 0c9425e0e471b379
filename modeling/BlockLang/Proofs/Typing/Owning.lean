import BlockLang.Proofs.Typing.Owned

/-!
# Statements own up

The walk of `walks_lowered` once more, with what it leaves behind: a clean session, a hard
report, or something that is mute. A statement is entered with a clean session only; once there
is a report, nothing else counts.
-/

namespace BlockLang.Typing

open BlockLang.Tree (idsOf subtreesOf)
open BlockLang.Frame (plug)
open Pass

variable {kind : NodeKind} {R : Nat → Tree → List Tree → Prop} {s s' : Session} {f : Frame}
  {fs : List Frame} {us : List Tree} {B : Set NodeId} {i : NodeId} {t : Tree}
  {busy : DeclId → Prop} {P : Session → Prop}

-- ---------------------------------------------------------------------------
-- Parts of statements
-- ---------------------------------------------------------------------------

theorem candid_annotateContainer : Candid busy P (annotateContainer i) fun _ _ => True := by
  refine .bind (.look fun _ => rfl) fun os => ?_
  split
  · exact .annotate fun s hs _ type ht => Option.some.inj ht ▸ hs.built.clean_unit
  · next last _ =>
    refine .bind (CandidTo.factsOf last) fun facts => .annotate fun s hs h type ht => ?_
    obtain rfl : facts.type.getD .unit = type := Option.some.inj ht
    cases hfacts : facts.type with
    | none => exact hs.built.clean_unit
    | some type => exact h type hfacts

theorem candid_checkCondition (condition : NodeId) :
    Candid busy P (checkCondition condition) fun _ _ => True := by
  refine .bind (.look fun _ => rfl) fun type => .bind (.look fun _ => rfl) fun wrong =>
    .ite (fun _ => .pure fun _ _ => trivial) fun _ => .bind (.look fun _ => rfl) fun fits =>
      .ite (fun _ => (candid_mismatch _ _ _).imp (fun _ h => h) nofun) fun _ =>
        .pure fun _ _ => trivial

theorem candid_constantCondition? (condition : NodeId) :
    Candid busy P (constantCondition? condition) fun _ _ => True := by
  refine .bind .get fun s => .bind (.look fun _ => rfl) fun value => ?_
  split
  · exact .pure fun _ _ => trivial
  · exact .bind (.look fun _ => rfl) fun _ => .bind (.report _) fun _ => .pure fun _ _ => trivial

theorem candid_emptyBlockLike : Candid busy P (emptyBlockLike i) fun _ _ => True :=
  .bind (.addLike _ _) fun _ => .bind candid_setUnit fun _ => .pure fun _ _ => trivial

/-- Arms that do not go together are reported. -/
theorem candid_joinArms (first second : TypeId) :
    MakesClean busy (fun s => s.types.Clean first ∧ s.types.Clean second)
      (joinArms i first second) := by
  have hfine : ∀ {P : Session → Prop} (type : TypeId), (∀ s, P s → s.types.Clean type) →
      Candid busy P (containsError type) fun wrong s => wrong = false ∧ P s := fun type h =>
    .reads fun s => ⟨rfl, fun _ hp => ⟨(h s hp).containsError, hp⟩⟩
  refine .bind (hfine first fun _ h => h.1) fun wrong => .bind (hfine second fun _ h => h.2.2)
    fun wrong' => .ite (fun h => ?_) fun _ => .bind (.look fun _ => rfl) fun _ =>
      .ite (fun _ => .pure fun _ h => h.2.2.1) fun _ => .bind (.look fun _ => rfl) fun _ =>
        .ite (fun _ => .pure fun _ h => h.2.2.2) fun _ =>
          .bind (candid_mismatch _ _ _) fun _ => .pure nofun
  refine .pure fun s hs => ?_
  simp [hs.1, hs.2.1] at h

/-- The type that a branch gets once its arms have the types `types`. -/
theorem candid_closeBranch (types : List TypeId) :
    Candid busy (fun s => ∀ type ∈ types, s.types.Clean type) (do
      let type ← match types with
        | [first, second] => if ← producesValue i then joinArms i first second else pure .unit
        | _ => pure .unit
      setType i type
      return i) fun _ _ => True := by
  have hend : ∀ type, Candid busy (fun s => s.types.Clean type) (do
      setType i type
      return i) fun _ _ => True := fun type =>
    .bind (candid_setType fun _ h => h) fun _ => .pure fun _ _ => trivial
  have hunit : ∀ {P : Session → Prop}, Candid busy P (do
      setType i .unit
      return i) fun _ _ => True := .bind candid_setUnit fun _ => .pure fun _ _ => trivial
  split
  · refine .bind (.look fun _ => rfl) fun used => .ite (fun _ => ?_) fun _ => hunit
    exact ((candid_joinArms _ _).imp (fun s h => ⟨h _ (by simp), h _ (by simp)⟩)
      fun _ _ h => h).bind hend
  · exact hunit

theorem learner_closeBranch {N : NodeId → Prop} {G : Names → Prop} (hn : N i)
    (types : List TypeId) : Learner N G (do
      let type ← match types with
        | [first, second] => if ← producesValue i then joinArms i first second else pure .unit
        | _ => pure .unit
      setType i type
      return i) := by
  have hend : ∀ type, Learner N G (do
      setType i type
      return i) := fun type => .bind (.annotate hn _) fun _ => .pure _
  split
  · exact (learner_producesValue i).bind fun _ => .ite ((learner_joinArms i _ _).bind hend) (hend _)
  · exact hend _

-- ---------------------------------------------------------------------------
-- Sequences
-- ---------------------------------------------------------------------------

/-- Entered with a clean session, the analysis of a tree owns up to what is wrong in it. -/
def OwnsUp (t : Tree) : Prop :=
  ∀ (result : Option TypeId) (fuel : Nat) (B : Set NodeId) (f : Frame) (fs : List Frame)
    (us : List Tree) (s : Session), s.Scoped → s.tree.Forest (plug (f :: fs) [t] ++ us) →
    Ready s B t → 2 * t.ids.length ≤ fuel → s.Clean nobody → t.Every (Fit s) →
    IfReturns (analyzeStatement (pure .error) result fuel t.handle) s fun _ s' => Owned [t] s'

/-- What a statement and its parts are touched by. -/
theorem proceeds_of_settled {N : NodeId → Prop} {p : Pass NodeId}
    (h : Returns p s fun node s' => ∃ t', node = t'.handle ∧ Settled N s B f fs us t t' s') :
    IfReturns p s fun _ s' => Proceeds N s s' := by
  refine h.triple.imp ?_
  rintro - s' ⟨t', -, hsettled⟩
  exact hsettled.reworks.proceeds

theorem proceeds_of_branched {n : Nat} {as : List Tree} {p : Pass NodeId}
    (h : Returns p s fun node s' => ∃ t', node = t'.handle ∧ Branched n s B f fs us t as t' s') :
    IfReturns p s fun _ s' => Proceeds (fun id => id = t.handle ∨ id ∈ idsOf as) s s' := by
  refine h.triple.imp ?_
  rintro - s' ⟨t', -, hbranched⟩
  exact hbranched.reworks.proceeds

/-- The children from `left` on own up one after the other. -/
theorem owned_analyzeChildren (left : List Tree) {ts : List Tree}
    (hR : ∀ n m t rs, n ≤ m → R m t rs → R n t rs) (hv : ∀ t ∈ ts, Visits kind R t)
    (ho : ∀ t ∈ ts, OwnsUp t) (result : Option TypeId) {fuel : Nat}
    (hfuel : 2 * (idsOf ts).length + 1 ≤ fuel) (hs : s.Scoped)
    (h : s.tree.Forest (plug fs [.node i kind (left ++ ts)] ++ us)) (hm : Midway s B left ts)
    (hc : s.Clean nobody) (hfit : ∀ t ∈ ts, t.Every (Fit s)) :
    IfReturns (analyzeChildren (pure .error) result fuel i left.length) s fun _ s' =>
      Owned ts s' := by
  induction ts generalizing left s fuel with
  | nil =>
    obtain ⟨fuel, rfl⟩ : ∃ n, fuel = n + 1 := Nat.exists_eq_succ_of_ne_zero (by omega)
    exact (triple_analyzeChildren_nil (by simpa using h)).mpr (.clean hc)
  | cons t ts ih =>
    obtain ⟨fuel, rfl⟩ : ∃ n, fuel = n + 1 := Nat.exists_eq_succ_of_ne_zero (by omega)
    have hpos := length_ids_pos t
    have hothers := spared_child h
    rw [Tree.idsOf_cons, List.length_append] at hfuel
    rw [List.forall_mem_cons] at hv ho hfit
    have hgap : s.tree.Forest (plug (⟨i, kind, left, ts⟩ :: fs) [t] ++ us) := by rwa [plug_child]
    refine triple_analyzeChildren_cons left h (((hv.1 (pure .error) result fuel _ _ fs us s rfl hs
      hgap (hm.ready h) (by omega)).triple.and (ho.1 result fuel _ _ fs us s hs hgap (hm.ready h)
        (by omega) hc hfit.1)).imp ?_)
    rintro _ s₁ ⟨⟨cs, t', rfl, hr, h₁, hd₁, hh₁⟩, howned⟩
    have h₁' : s₁.tree.Forest (plug fs [.node i kind (left ++ (cs ++ [t']) ++ ts)] ++ us) := by
      simpa [Frame.after, plug_child] using h₁.forest
    have hm₁ := hm.step h h₁.proceeds hd₁ hh₁
    refine ⟨cs, t', rfl, h₁', howned.rest ts (N := (· ∈ idsOf ts)) ?_ ?_ ?_⟩
    · refine (returns_analyzeChildren _ hR hv.2 _ result (by omega) h₁.session h₁'
        hm₁).triple.imp ?_
      rintro - s₂ ⟨_, _, h₂, -⟩
      exact h₂.proceeds
    · intro id hid
      simp only [Tree.idsOf_cons, Tree.idsOf_nil, List.append_nil] at hid
      exact ⟨Nat.lt_of_lt_of_le (hgap.lt_size_gap id (by simpa using hid)) h₁.proceeds.size,
        fun hmem => (hothers id (by simp [hmem])).2 hid⟩
    · refine fun hc₁ => ih (left ++ (cs ++ [t'])) hv.2 ho.2 (by omega) h₁.session h₁' hm₁ hc₁
        fun u hu => every_fit (hfit.2 u hu) h₁.proceeds fun id hid => hothers id ?_
      simp [Tree.mem_idsOf.mpr ⟨u, hu, hid⟩]

theorem ownsUp_step (ht : Step t) (hi : t.kind.isInferred = false) : OwnsUp t := by
  intro result fuel B f fs us s hs h hready hfuel hc hfit
  have hpos := length_ids_pos t
  obtain ⟨fuel, rfl⟩ : ∃ n, fuel = n + 2 := Nat.exists_eq_add_of_le' (by omega)
  have hkind : s.tree.kind t.handle = t.kind := h.gap.kind
  have hstep := ht.kind
  unfold analyzeStatement
  simp only [triple_bind, triple_kindOf, hkind]
  split
  case h_9 => exact owned_analyzeStep ht hi hs hc h hready hfit.self result fuel
  all_goals next hk => exact absurd (hk ▸ hstep) (by simp [NodeKind.isStep, NodeKind.isExpression])

/-- A sequence only takes over what is known of its last part. -/
theorem ownsUp_container {cs : List Tree} (hk : kind = .pair ∨ kind = .basicBlock)
    (hR : ∀ n m t rs, n ≤ m → R m t rs → R n t rs) (hv : ∀ t ∈ cs, Visits kind R t)
    (ho : ∀ t ∈ cs, OwnsUp t) : OwnsUp (.node i kind cs) := by
  intro result fuel B f fs us s hs h hready hfuel hc hfit
  rw [Tree.ids_node, List.length_append, List.length_singleton] at hfuel
  obtain ⟨fuel, rfl⟩ : ∃ n, fuel = n + 1 := Nat.exists_eq_succ_of_ne_zero (by omega)
  have hkind : s.tree.kind i = kind := h.gap.kind
  have hmidway : Midway s B [] cs := .of_ready hready (by rcases hk with rfl | rfl <;> rfl)
  have hcontainer : IfReturns (do
      analyzeChildren (pure .error) result fuel i 0
      annotateContainer i
      return i) s fun _ s' => Owned [.node i kind cs] s' := by
    refine triple_bind.mpr (((returns_analyzeChildren [] hR hv (pure .error) result (by omega) hs h
      hmidway).triple.and (owned_analyzeChildren [] hR hv ho result (by omega) hs h hmidway hc
        fun t ht => hfit.child ht)).imp ?_)
    rintro - s₁ ⟨⟨rss, -, h₁, -⟩, howned⟩
    have hlearns := types_annotateContainer (N := (· = i)) (G := fun _ => True) rfl s₁ h₁.session
      trivial
    refine triple_bind.mpr ((howned.candid (P := fun _ => True) candid_annotateContainer
      (fun _ => trivial) (hlearns.triple.imp fun _ _ h => h.1.proceeds) fun id hid => ?_).imp
      fun _ _ h => h.whole)
    have hbelow := spared_below h id hid
    exact ⟨Nat.lt_of_lt_of_le hbelow.1 h₁.proceeds.size, hbelow.2⟩
  unfold analyzeStatement
  refine triple_bind.mpr (triple_kindOf.mpr ?_)
  rw [Tree.handle_node, hkind]
  rcases hk with rfl | rfl <;> exact hcontainer

theorem ownsUp_basicBlock {cs : List Tree} (steps : ∀ step ∈ cs, Step step)
    (hi : ∀ step ∈ cs, step.kind.isInferred = false) : OwnsUp (.node i .basicBlock cs) :=
  ownsUp_container (.inr rfl) (fun _ _ _ _ hle hr => hr.mono hle)
    (fun t ht => visits_step (steps t ht) (hi t ht)) fun t ht => ownsUp_step (steps t ht) (hi t ht)

theorem ownsUp_pair {cs : List Tree} (hw : ∀ t ∈ cs, Walks t) (ho : ∀ t ∈ cs, OwnsUp t) :
    OwnsUp (.node i .pair cs) :=
  ownsUp_container (R := SettlesAlone) (.inl rfl) (fun _ _ _ _ hle h => h.mono hle)
    (fun t ht => (hw t ht).visits .pair) ho

-- ---------------------------------------------------------------------------
-- Branches and loops
-- ---------------------------------------------------------------------------

theorem owned_analyzeArms (left : List Tree) {as : List Tree} (hw : ∀ a ∈ as, Walks a)
    (ho : ∀ a ∈ as, OwnsUp a) (hs : s.Scoped)
    (h : s.tree.Forest (plug fs [.node i kind (left ++ as)] ++ us))
    (hd : ∀ d ∈ left, Done s B [d]) (hr : ∀ a ∈ as, Ready s B a) (hc : s.Clean nobody)
    (hfit : ∀ a ∈ as, a.Every (Fit s)) (result : Option TypeId) {fuel : Nat}
    (hfuel : 2 * (idsOf as).length + 1 ≤ fuel) :
    IfReturns (analyzeArms (pure .error) result fuel i left.length) s fun _ s' => Owned as s' := by
  induction as generalizing left s fuel with
  | nil =>
    obtain ⟨fuel, rfl⟩ : ∃ n, fuel = n + 1 := Nat.exists_eq_succ_of_ne_zero (by omega)
    unfold analyzeArms
    simp only [triple_bind, triple_child?, child?_left left h]
    exact .clean hc
  | cons a as ih =>
    obtain ⟨fuel, rfl⟩ : ∃ n, fuel = n + 1 := Nat.exists_eq_succ_of_ne_zero (by omega)
    have hpos := length_ids_pos a
    have hothers := spared_child h
    have hra := hr a List.mem_cons_self
    rw [Tree.idsOf_cons, List.length_append] at hfuel
    rw [List.forall_mem_cons] at hw ho hfit
    have hgap : s.tree.Forest (plug (⟨i, kind, left, as⟩ :: fs) [a] ++ us) := by rwa [plug_child]
    rw [IfReturns, triple_analyzeArms_cons left h]
    refine ((hw.1 (pure .error) result fuel B _ fs us s hs hgap hra (by omega)).triple.and
      (ho.1 result fuel B _ fs us s hs hgap hra (by omega) hc hfit.1)).imp ?_
    rintro _ s₁ ⟨⟨a', rfl, ha'⟩, howned⟩
    obtain ⟨hleft, hready⟩ := ha'.arms h hd hr
    have h₁ := ha'.reworks
    rw [plug_child, List.append_cons] at h₁
    have hlength : (left ++ [a]).length = (left ++ [a']).length := by simp
    rw [hlength]
    refine howned.rest as (N := (· ∈ idsOf as)) ?_ (fun id hid => ?_) ?_
    · refine (returns_analyzeArms _ hw.2 h₁.session h₁.forest hleft hready _ result
        (by omega)).triple.imp ?_
      rintro _ s₂ ⟨_, _, h₂, -⟩
      exact h₂.proceeds
    · simp only [Tree.idsOf_cons, Tree.idsOf_nil, List.append_nil] at hid
      exact ⟨Nat.lt_of_lt_of_le (hgap.lt_size_gap id (by simpa using hid)) h₁.proceeds.size,
        fun hmem => (hothers id (by simp [hmem])).2 hid⟩
    · refine fun hc₁ => ih _ hw.2 ho.2 h₁.session h₁.forest hleft hready hc₁ (fun b hb => ?_)
        (by omega)
      refine every_fit (hfit.2 b hb) h₁.proceeds fun id hid => hothers id ?_
      simp [Tree.mem_idsOf.mpr ⟨b, hb, hid⟩]

/-- What is wrong with a condition is reported. -/
theorem owned_condition {k : NodeKind} {c : Tree} {as : List Tree} (hc : Walks c) (ho : OwnsUp c)
    (hk : k.isControlFlow = true) (hs : s.Scoped)
    (h : s.tree.Forest (plug (f :: fs) [.node i k (c :: as)] ++ us))
    (hready : Ready s B (.node i k (c :: as))) (hclean : s.Clean nobody) (hfit : c.Every (Fit s))
    (result : Option TypeId) {fuel : Nat} (hfuel : 2 * c.ids.length ≤ fuel) :
    IfReturns (analyzeStatement (pure .error) result fuel c.handle) s fun condition s₁ =>
      IfReturns (checkCondition condition) s₁ fun _ s₂ =>
        IfReturns (constantCondition? condition) s₂ fun _ s' => Owned [c] s' := by
  have hrc : Ready s B c := hready.child (NodeKind.isPlain_of_isControlFlow hk) (by simp)
  have hgap : s.tree.Forest (plug (⟨i, k, [], as⟩ :: f :: fs) [c] ++ us) := by
    rwa [plug_child]
  refine ((hc (pure .error) result fuel B _ _ us s hs hgap hrc hfuel).triple.and
    (ho result fuel B _ _ us s hs hgap hrc hfuel hclean hfit)).imp ?_
  rintro _ s₁ ⟨⟨c', rfl, hc'⟩, howned⟩
  have hlt : ∀ s₂, s₁.tree.size ≤ s₂.tree.size → ∀ id ∈ idsOf [c],
      Spared (fun _ => False) s₂ id := fun s₂ hle id hid =>
    ⟨Nat.lt_of_lt_of_le (hgap.lt_size_gap id hid)
      (Nat.le_trans hc'.reworks.proceeds.size hle), not_false⟩
  have hcheck := learner_checkCondition (N := fun _ => False) (G := fun _ => True) c'.handle s₁
    hc'.reworks.session trivial
  refine (hcheck.triple.and (howned.candid (P := fun _ => True) (candid_checkCondition _)
    (fun _ => trivial) (hcheck.triple.imp fun _ _ h => h.proceeds) (hlt s₁ le_rfl))).imp ?_
  rintro - s₂ ⟨hl₂, howned₂⟩
  have hconstant := learner_constantCondition? (N := fun _ => False) (G := fun _ => True) c'.handle
    s₂ (hl₂.scoped hc'.reworks.session) trivial
  exact howned₂.candid (P := fun _ => True) (candid_constantCondition? _) (fun _ => trivial)
    (hconstant.triple.imp fun _ _ h => h.proceeds) (hlt s₂ hl₂.size_le)

/-- An arm that takes the place of a branch owns up there. -/
theorem owned_replaceByArm (ls : List Tree) {rs : List Tree} {k : NodeKind} {a : Tree}
    (hw : Walks a) (ho : OwnsUp a) (hs : s.Scoped)
    (h : s.tree.Forest (plug (f :: fs) [.node i k []] ++ (ls ++ a :: rs ++ us)))
    (hr : Ready s B a) (hi : i ∉ B) (hc : s.Clean nobody) (hfit : a.Every (Fit s))
    (result : Option TypeId) {fuel : Nat} (hfuel : 2 * a.ids.length ≤ fuel) :
    IfReturns (do
        substitute i a.handle
        let analyzed ← analyzeStatement (pure .error) result fuel a.handle
        retargetTemps a.handle analyzed
        return analyzed) s fun _ s' => Owned [a] s' := by
  have hsubstitute := returns_substituteArm ls hs h hr hi
  refine triple_bind.mpr ((hsubstitute.triple.and ((candid_substitute (P := fun _ => True) i
    a.handle).2 s hc trivial)).imp ?_)
  rintro _ s₁ ⟨⟨h₁, -, hr₁, hapart⟩, hclean₁⟩
  have hrun := hw (pure .error) result fuel B f fs _ s₁ h₁.session h₁.forest hr₁ hfuel
  have howned₁ : Owned [] s₁ := hclean₁.imp_right fun h => .inl h.2.1
  refine triple_bind.mpr ((howned₁.rest [a] (proceeds_of_settled hrun) (by simp) fun hc₁ =>
    ho result fuel B f fs _ s₁ h₁.session h₁.forest hr₁ hfuel hc₁
      (every_fit hfit h₁.proceeds hapart)).and hrun.triple |>.imp ?_)
  rintro _ s₂ ⟨howned₂, a', rfl, h₂⟩
  refine howned₂.untouched ⟨rfl, .refl _, rfl, rfl, rfl⟩ fun id hid => ?_
  exact Nat.lt_of_lt_of_le (h₁.forest.lt_size_gap id hid) h₂.reworks.proceeds.size

/-- Nothing is wrong with an empty block. -/
theorem owned_replaceByEmpty {rs : List Tree} {k : NodeKind} (hs : s.Scoped)
    (h : s.tree.Forest (plug (f :: fs) [.node i k []] ++ (rs ++ us)))
    (hB : ∀ p ∈ B, p.index < s.tree.size ∧ (s.tree.facts p).type.isSome = true) (hi : i ∉ B)
    (hc : s.Clean nobody) (result : Option TypeId) {fuel : Nat} (hfuel : 2 ≤ fuel) :
    IfReturns (do
        let replacement ← emptyBlockLike i
        substitute i replacement
        let analyzed ← analyzeStatement (pure .error) result fuel replacement
        retargetTemps replacement analyzed
        return analyzed) s fun _ s' => Owned [] s' := by
  refine triple_bind.mpr (((returns_emptyBlockLike hs h i).triple.and
    ((candid_emptyBlockLike (P := fun _ => True)).2 s hc trivial)).imp ?_)
  rintro j s₁ ⟨⟨hj, h₁, -⟩, hclean₁⟩
  have hready := ready_emptyBlock h₁ hj hB
  have hforest := h₁.forest.perm List.perm_middle.symm
  have hfuel' : 2 * (Tree.node j .basicBlock []).ids.length ≤ fuel := by simpa using hfuel
  have hrun := returns_replaceByArm [] (walks_basicBlock (by simp) (by simp)) h₁.session hforest
    hready hi (pure .error) result hfuel'
  have howned₁ : Owned [] s₁ := hclean₁.imp_right fun h => .inl h.2.1
  have hfit : (Tree.node j .basicBlock []).Every (Fit s₁) := by
    intro u hu
    obtain rfl : u = .node j .basicBlock [] := by simpa using hu
    exact ⟨nofun, nofun, nofun⟩
  have hproceeds := (Returns.triple (E := fun _ _ => True) hrun).imp fun _ _ h =>
    h.choose_spec.2.2.1.proceeds
  refine (howned₁.rest [.node j .basicBlock []] hproceeds (by simp) fun hc₁ => owned_replaceByArm []
      (walks_basicBlock (by simp) (by simp)) (ownsUp_basicBlock (by simp) (by simp)) h₁.session
        hforest hready hi hc₁ hfit result hfuel').imp fun _ s₂ h₂ => ?_
  refine h₂.imp_right (Or.imp_right ?_)
  rintro ⟨u, hu, hm⟩
  obtain rfl : u = .node j .basicBlock [] := by simpa using hu
  cases hm with
  | store kind => exact absurd kind (by simp)
  | branch kind => exact absurd kind (by simp)

/-- The arm that is taken owns up, and the other one is gone. -/
theorem owned_knownBranch {c : Tree} {as : List Tree} (hlen : as.length = 1 ∨ as.length = 2)
    (ha : ∀ a ∈ as, Walks a) (ho : ∀ a ∈ as, OwnsUp a) (hs : s.Scoped)
    (h : s.tree.Forest (plug (f :: fs) [.node i .ifElse (c :: as)] ++ us))
    (hr : ∀ a ∈ as, Ready s B a) (hi : i ∉ B) (hc : s.Clean nobody)
    (hfit : ∀ a ∈ as, a.Every (Fit s)) (result : Option TypeId) {fuel : Nat}
    (hfuel : 2 * (idsOf as).length ≤ fuel) (taken : Bool) :
    IfReturns (do
        let parts ← takeChildren i
        let replacement ← match parts[if taken then 1 else 2]? with
          | some arm => pure arm
          | none => emptyBlockLike i
        substitute i replacement
        let analyzed ← analyzeStatement (pure .error) result fuel replacement
        retargetTemps replacement analyzed
        return analyzed) s fun _ s' => Owned as s' := by
  refine triple_bind.mpr (((Reworks.refl (N := fun _ => False) hs h).take.triple.and
    (CandidTo.untouched_takeChildren i s)).imp ?_)
  rintro _ s₁ ⟨⟨rfl, h₁⟩, hu⟩
  have hspared : ∀ a ∈ as, ∀ id ∈ a.ids, Spared (fun _ => False) s id := fun a hm id hid =>
    ⟨h.lt_size_gap id (by simp [Tree.mem_idsOf.mpr ⟨a, hm, hid⟩]), not_false⟩
  have hr₁ : ∀ a ∈ as, Ready s₁ B a := fun a hm =>
    (hr a hm).proceeds h₁.proceeds (hspared a hm) fun _ _ => not_false
  have hfit₁ : ∀ a ∈ as, a.Every (Fit s₁) := fun a hm =>
    every_fit (hfit a hm) h₁.proceeds (hspared a hm)
  have hc₁ := hu.clean hc
  obtain ⟨a, bs, rfl⟩ : ∃ a bs, as = a :: bs := List.exists_cons_of_length_pos (by omega)
  simp only [Tree.idsOf_cons, List.length_append] at hfuel
  cases taken with
  | true =>
    exact (owned_replaceByArm [c] (ha a (by simp)) (ho a (by simp)) h₁.session h₁.forest
      (hr₁ a (by simp)) hi hc₁ (hfit₁ a (by simp)) result (by omega)).imp fun _ _ h =>
        h.mono fun u hu => by simp_all
  | false =>
    cases bs with
    | nil =>
      have hpos := length_ids_pos a
      exact (owned_replaceByEmpty h₁.session h₁.forest (hr₁ a (by simp)).known hi hc₁ result
        (by omega)).imp fun _ _ h => h.mono (by simp)
    | cons b bs =>
      obtain rfl : bs = [] := List.eq_nil_of_length_eq_zero (by simpa using hlen)
      exact (owned_replaceByArm [c, a] (ha b (by simp)) (ho b (by simp)) h₁.session h₁.forest
        (hr₁ b (by simp)) hi hc₁ (hfit₁ b (by simp)) result (by simp at hfuel; omega)).imp
          fun _ _ h => h.mono fun u hu => by simp_all

theorem importFree_all {n : Nat} {ts ts' : List Tree} (h : List.Forall₂ (Settles n) ts ts')
    (ht : ∀ t ∈ ts, t.ImportFree) : ∀ t ∈ ts', t.ImportFree := by
  induction h with
  | nil => exact nofun
  | cons head _ ih =>
    obtain ⟨hfirst, hrest⟩ := List.forall_mem_cons.mp ht
    exact List.forall_mem_cons.mpr ⟨head.importFree hfirst, ih hrest⟩

/-- A branch that stays gets a type that its arms agree on. -/
theorem owned_openBranch {c : Tree} {as : List Tree} (ha : ∀ a ∈ as, Walks a)
    (ho : ∀ a ∈ as, OwnsUp a) (hs : s.Scoped)
    (h : s.tree.Forest (plug (f :: fs) [.node i .ifElse (c :: as)] ++ us))
    (hd : Done s B [c]) (hr : ∀ a ∈ as, Ready s B a) (hc : s.Clean nobody)
    (hfit : ∀ a ∈ as, a.Every (Fit s)) (himports : ∀ a ∈ as, a.ImportFree)
    (result : Option TypeId) {fuel : Nat} (hfuel : 2 * (idsOf as).length + 1 ≤ fuel) :
    IfReturns (do
        let arms ← analyzeArms (pure .error) result fuel i 1
        let type ← match arms with
          | [first, second] =>
            if ← producesValue i then joinArms i first second else pure .unit
          | _ => pure .unit
        setType i type
        return i) s fun _ s' => Owned as s' := by
  refine triple_bind.mpr (((returns_analyzeArms [c] ha hs h (by simpa using hd) hr (pure .error)
    result hfuel).triple.and (owned_analyzeArms [c] ha ho hs h (by simpa using hd) hr hc hfit
      result hfuel)).imp ?_)
  rintro types s₁ ⟨⟨as', has', h₁, hd₁, rfl⟩, howned⟩
  have hclose := fun types => learner_closeBranch (N := (· = i)) (G := fun _ => True) rfl types s₁
    h₁.session trivial
  refine howned.candid (candid_closeBranch _) (fun hc₁ type htype => ?_)
    ((hclose _).triple.imp fun _ _ h => h.proceeds) fun id hid => ?_
  · obtain ⟨d, hdm, rfl⟩ := List.mem_map.mp htype
    have hnoted := (hd₁ d (by simp [hdm])).noted d (by simp [Tree.self_mem_subtrees])
    have hsome := hnoted.covers.type (importFree_all has' himports d hdm).self
    obtain ⟨type, htype⟩ := Option.isSome_iff_exists.mp hsome
    rw [htype]
    exact hc₁.nodes d.handle type htype
  · have hbelow := spared_below h id (by simp [hid])
    exact ⟨Nat.lt_of_lt_of_le hbelow.1 h₁.proceeds.size, hbelow.2⟩

/-- Nothing is touched of a condition while what it controls is analyzed. -/
theorem spared_condition {k : NodeKind} {c : Tree} {as : List Tree}
    (h : s.tree.Forest (plug (f :: fs) [.node i k (c :: as)] ++ us))
    (hle : s.tree.size ≤ s'.tree.size) :
    ∀ id ∈ idsOf [c], Spared (fun id => id = i ∨ id ∈ idsOf as) s' id := by
  intro id hid
  simp only [Tree.idsOf_cons, Tree.idsOf_nil, List.append_nil] at hid
  refine ⟨Nat.lt_of_lt_of_le (h.lt_size_gap id (by simp [hid])) hle, fun hm => ?_⟩
  exact (spared_child (l := []) h id (by simpa [or_comm] using hm)).2 hid

theorem ownsUp_ifElse {c : Tree} {as : List Tree} (hc : Walks c) (hoc : OwnsUp c)
    (ha : ∀ a ∈ as, Walks a) (ho : ∀ a ∈ as, OwnsUp a) (hlen : as.length = 1 ∨ as.length = 2) :
    OwnsUp (.node i .ifElse (c :: as)) := by
  intro result fuel B f fs us s hs h hready hfuel hclean hfit
  by_cases himports : (Tree.node i .ifElse (c :: as)).ImportFree
  case neg =>
    exact (walks_ifElse hc ha hlen (pure .error) result fuel B f fs us s hs h hready
      hfuel).triple.imp fun _ _ _ => .inr (.inr
        ⟨_, Tree.mem_subtreesOf_of_mem (List.mem_singleton_self _), .branch rfl himports⟩)
  have hpos := length_ids_pos c
  have hi : i ∉ B := fun hm => hready.apart i hm (by simp)
  simp only [Tree.ids_node, Tree.idsOf_cons, List.length_append, List.length_singleton] at hfuel
  obtain ⟨fuel, rfl⟩ : ∃ n, fuel = n + 2 := Nat.exists_eq_add_of_le' (by omega)
  have hkind : s.tree.kind i = .ifElse := h.gap.kind
  have hchild : s.tree.child? i 0 = some c.handle := child?_left [] h
  unfold analyzeStatement
  simp only [Tree.handle_node, triple_bind, triple_kindOf, hkind]
  unfold analyzeIf
  simp only [triple_bind, triple_child?, hchild]
  refine ((returns_condition hc rfl hs h hready (pure .error) result (by omega)).triple.and
    (owned_condition hc hoc rfl hs h hready hclean (hfit.child (by simp)) result
      (by omega))).imp fun _ _ hrun => (hrun.1.triple.and hrun.2).imp fun _ _ hrun =>
        (hrun.1.triple.and hrun.2).imp ?_
  rintro known s₁ ⟨⟨c', hc', h₁, hd₁, hr₁⟩, howned⟩
  have hfit₁ : ∀ a ∈ as, a.Every (Fit s₁) := fun a hm =>
    every_fit (hfit.child (by simp [hm])) h₁.proceeds fun id hid =>
      spared_child (l := []) h id (by simp [Tree.mem_idsOf.mpr ⟨a, hm, hid⟩])
  have hspared := spared_condition h h₁.proceeds.size
  cases known with
  | some taken =>
    have harms : 2 * (idsOf as).length ≤ fuel := by omega
    have hrun := returns_knownBranch hlen hc' h₁.proceeds.size ha h₁.session h₁.forest hr₁ hi
      (pure .error) result harms taken
    exact (howned.rest as (proceeds_of_branched hrun) hspared fun hc₁ =>
      owned_knownBranch hlen ha ho h₁.session h₁.forest hr₁ hi hc₁ hfit₁ result
        (by omega) taken).imp fun _ _ h => h.whole
  | none =>
    have harms : 2 * (idsOf as).length + 1 ≤ fuel := by omega
    have hrun := returns_openBranch hlen hc' h₁.proceeds.size ha h₁.session h₁.forest hd₁ hr₁ hi
      (pure .error) result harms
    exact (howned.rest as (proceeds_of_branched hrun) hspared fun hc₁ =>
      owned_openBranch ha ho h₁.session h₁.forest hd₁ hr₁ hc₁ hfit₁
        (fun a hm => himports.child (by simp [hm])) result harms).imp fun _ _ h => h.whole

theorem candid_dropLoop : Candid busy P (do
    let _ ← takeChildren i
    let replacement ← emptyBlockLike i
    substitute i replacement
    return replacement) fun _ _ => True :=
  .bind (.takeChildren i) fun _ => .bind candid_emptyBlockLike fun _ =>
    .bind (candid_substitute i _) fun _ => .pure fun _ _ => trivial

/-- A loop that may run gets no type of its own. -/
theorem owned_keepLoop {c b : Tree} (hb : Walks b) (ho : OwnsUp b) (hs : s.Scoped)
    (h : s.tree.Forest (plug (f :: fs) [.node i .whileLoop [c, b]] ++ us)) (hr : Ready s B b)
    (hc : s.Clean nobody) (hfit : b.Every (Fit s)) (result : Option TypeId) {fuel : Nat}
    (hfuel : 2 * b.ids.length ≤ fuel) :
    IfReturns (do
        if let some body ← child? i 1 then
          let _ ← analyzeStatement (pure .error) result fuel body
        setType i .unit
        return i) s fun _ s' => Owned [b] s' := by
  have hbody : s.tree.child? i 1 = some b.handle := child?_left [c] h
  have hgap : s.tree.Forest (plug (⟨i, .whileLoop, [c], []⟩ :: f :: fs) [b] ++ us) := h
  simp only [triple_bind, triple_child?, hbody]
  refine ((hb (pure .error) result fuel B _ _ us s hs hgap hr hfuel).triple.and
    (ho result fuel B _ _ us s hs hgap hr hfuel hc hfit)).imp ?_
  rintro _ s₁ ⟨⟨b', rfl, hb'⟩, howned⟩
  have hlearns := types_setType (N := (· = i)) (G := fun _ => True) rfl .unit s₁ hb'.reworks.session
    trivial
  refine howned.candid (P := fun _ => True) candid_setUnit (fun _ => trivial)
    (hlearns.triple.imp fun _ _ h => h.1.proceeds) fun id hid => ?_
  have hbelow := spared_below h id (by simpa using .inr (by simpa using hid))
  exact ⟨Nat.lt_of_lt_of_le hbelow.1 hb'.reworks.proceeds.size, hbelow.2⟩

theorem ownsUp_whileLoop {c b : Tree} (hc : Walks c) (hoc : OwnsUp c) (hb : Walks b)
    (ho : OwnsUp b) : OwnsUp (.node i .whileLoop [c, b]) := by
  intro result fuel B f fs us s hs h hready hfuel hclean hfit
  have hpos := length_ids_pos c
  simp only [Tree.ids_node, Tree.idsOf_cons, Tree.idsOf_nil, List.append_nil, List.length_append,
    List.length_singleton] at hfuel
  obtain ⟨fuel, rfl⟩ : ∃ n, fuel = n + 2 := Nat.exists_eq_add_of_le' (by omega)
  have hkind : s.tree.kind i = .whileLoop := h.gap.kind
  have hchild : s.tree.child? i 0 = some c.handle := child?_left [] h
  unfold analyzeStatement
  simp only [Tree.handle_node, triple_bind, triple_kindOf, hkind]
  unfold analyzeWhile
  simp only [triple_bind, triple_child?, hchild]
  refine ((returns_condition hc rfl hs h hready (pure .error) result (by omega)).triple.and
    (owned_condition hc hoc rfl hs h hready hclean (hfit.child (by simp)) result
      (by omega))).imp fun _ _ hrun => (hrun.1.triple.and hrun.2).imp fun _ _ hrun =>
        (hrun.1.triple.and hrun.2).imp ?_
  rintro known s₁ ⟨⟨c', hc', h₁, hd₁, hr₁⟩, howned⟩
  have hB := spared_self hready h₁.proceeds.size
  have hspared := spared_condition h h₁.proceeds.size
  split
  · have hrun := returns_dropLoop hc' h₁.proceeds.size h₁.session h₁.forest hB
    exact (howned.candid (P := fun _ => True) candid_dropLoop (fun _ => trivial)
      (proceeds_of_branched hrun) hspared).imp fun _ _ h => h.mono fun u hu => by simp_all
  · have hbody : 2 * b.ids.length ≤ fuel := by omega
    have hrun := returns_keepLoop hc' h₁.proceeds.size hb h₁.session h₁.forest hd₁
      (hr₁ b (by simp)) hB (pure .error) result hbody
    have hfit₁ : b.Every (Fit s₁) := every_fit (hfit.child (by simp)) h₁.proceeds fun id hid =>
      spared_child (l := []) h id (by simp [hid])
    exact (howned.rest [b] (proceeds_of_branched hrun) hspared fun hc₁ =>
      owned_keepLoop hb ho h₁.session h₁.forest (hr₁ b (by simp)) hc₁ hfit₁ result
        (by omega)).imp fun _ _ h => h.whole

-- ---------------------------------------------------------------------------
-- Declarations
-- ---------------------------------------------------------------------------

theorem candid_enterFunction (d : DeclId) :
    Candid nobody (fun s => (s.decl d).isFunction = true) (do
      let signature ← functionSignature d
      let _ ← resultOf signature
      setType i signature) fun _ _ => True :=
  .bind (candid_functionSignature d) fun _ => .bind (.look fun _ => rfl) fun _ =>
    candid_setType fun _ h => h

theorem candid_analyzeTypeDecl (name : String) :
    Candid busy P (analyzeTypeDecl i name) fun _ _ => True := by
  refine .bind (.look fun _ => rfl) fun scope => .bind (.findType? scope name) fun found => ?_
  split
  · next id =>
    refine .bind (.look fun _ => rfl) fun start => ?_
    refine .bind (Q := fun _ _ => True) ?_ fun _ => candid_setUnit
    exact (candid_resolveTypeDef id start).imp (fun _ h => h id rfl) fun _ _ _ => trivial
  · exact candid_setUnit

theorem ownsUp_funcDecl {d : DeclId} {b : Tree} (hb : Walks b) (ho : OwnsUp b) :
    OwnsUp (.node i (.funcDecl d) [b]) := by
  intro result fuel B f fs us s hs h hready hfuel hclean hfit
  simp only [Tree.ids_node, Tree.idsOf_cons, Tree.idsOf_nil, List.append_nil, List.length_append,
    List.length_singleton] at hfuel
  obtain ⟨fuel, rfl⟩ : ∃ n, fuel = n + 1 := Nat.exists_eq_succ_of_ne_zero (by omega)
  have hkind : s.tree.kind i = .funcDecl d := h.gap.kind
  have henter := (candid_enterFunction (i := i) d).2 s hclean (hfit.self.function d rfl)
  simp only [triple_bind] at henter
  unfold analyzeStatement
  simp only [Tree.handle_node, triple_bind, triple_kindOf, hkind]
  refine ((returns_enterFunction hs h hready).triple.and henter).imp fun signature _ hrun =>
    (hrun.1.triple.and hrun.2).imp fun inner _ hrun => (hrun.1.triple.and hrun.2).imp ?_
  rintro _ s₁ ⟨⟨h₁, -, -, hready₁⟩, hclean₁⟩
  have howned : Owned [] s₁ := hclean₁.imp_right fun h => .inl h.2.1
  have hchild : s₁.tree.child? i 0 = some b.handle := child?_left [] h₁.forest
  have hgap : s₁.tree.Forest (plug (⟨i, .funcDecl d, [], []⟩ :: f :: fs) [b] ++ us) := h₁.forest
  have hfit₁ : b.Every (Fit s₁) := every_fit (hfit.child (by simp)) h₁.proceeds fun id hid =>
    spared_below h id (by simpa using hid)
  simp only [triple_child?, hchild, triple_bind]
  have hrun := hb (pure .error) (some inner) fuel ∅ _ _ us s₁ h₁.session hgap hready₁ (by omega)
  exact (howned.rest [b] (proceeds_of_settled hrun) (by simp) fun hc₁ =>
    ho (some inner) fuel ∅ _ _ us s₁ h₁.session hgap hready₁ (by omega) hc₁ hfit₁).imp
      fun _ _ h => h.whole

/-- Statements in lowered form own up to what is wrong in them. -/
theorem ownsUp_lowered (h : Lowered t) (hi : t.Only fun k => k.isInferred = false) : OwnsUp t := by
  induction h with
  | basicBlock steps =>
    exact ownsUp_basicBlock steps fun step hm => (hi.child hm).self
  | pair ha hb iha ihb =>
    have hia := hi.child (List.mem_cons_self ..)
    have hib := hi.child (List.mem_cons_of_mem _ (List.mem_cons_self ..))
    exact ownsUp_pair (by simpa using ⟨walks_lowered ha hia, walks_lowered hb hib⟩)
      (by simpa using ⟨iha hia, ihb hib⟩)
  | ifThen hc ha ihc iha =>
    have hic := hi.child (List.mem_cons_self ..)
    have hia := hi.child (List.mem_cons_of_mem _ (List.mem_cons_self ..))
    exact ownsUp_ifElse (walks_lowered hc hic) (ihc hic) (by simpa using walks_lowered ha hia)
      (by simpa using iha hia) (.inl rfl)
  | @ifElse c a b _ hc ha hb ihc iha ihb =>
    have hic := hi.child (List.mem_cons_self ..)
    have hia : a.Only fun k => k.isInferred = false := hi.child (by simp)
    have hib : b.Only fun k => k.isInferred = false := hi.child (by simp)
    exact ownsUp_ifElse (walks_lowered hc hic) (ihc hic)
      (by simpa using ⟨walks_lowered ha hia, walks_lowered hb hib⟩)
      (by simpa using ⟨iha hia, ihb hib⟩) (.inr rfl)
  | whileLoop hc hb ihc ihb =>
    have hic := hi.child (List.mem_cons_self ..)
    have hib := hi.child (List.mem_cons_of_mem _ (List.mem_cons_self ..))
    exact ownsUp_whileLoop (walks_lowered hc hic) (ihc hic) (walks_lowered hb hib) (ihb hib)
  | funcDecl hb ih =>
    have hib := hi.child (List.mem_cons_self ..)
    exact ownsUp_funcDecl (walks_lowered hb hib) (ih hib)
  | @typeDecl i name =>
    intro result fuel B f fs us s hs h hready hfuel hclean hfit
    obtain ⟨fuel, rfl⟩ : ∃ n, fuel = n + 1 :=
      Nat.exists_eq_succ_of_ne_zero (by simp at hfuel; omega)
    have hkind : s.tree.kind i = .typeDecl name := h.gap.kind
    unfold analyzeStatement
    simp only [Tree.handle_node, triple_bind, triple_kindOf, hkind]
    exact ((candid_analyzeTypeDecl (P := fun _ => True) name).2 s hclean trivial).imp fun _ _ h =>
      h.imp_right fun h => .inl h.2.1
  | @importDecl i name isPublic =>
    intro result fuel B f fs us s hs h hready hfuel hclean hfit
    obtain ⟨fuel, rfl⟩ : ∃ n, fuel = n + 1 :=
      Nat.exists_eq_succ_of_ne_zero (by simp at hfuel; omega)
    have hkind : s.tree.kind i = .importDecl name isPublic := h.gap.kind
    unfold analyzeStatement
    simp only [Tree.handle_node, triple_bind, triple_kindOf, hkind]
    exact .clean hclean

/-- Inference of a module in lowered form leaves a clean session clean, or it reports something
that makes the program unusable, or something in the module is mute. -/
theorem owned_infer {root : NodeId} {name : String} {ts : List Tree} (hs : s.Scoped)
    (ht : ∀ t ∈ ts, Lowered t) (hi : ∀ t ∈ ts, t.Only fun k => k.isInferred = false)
    (hfed : ∀ t ∈ ts, Fed s.temps ∅ t)
    (h : s.tree.Forest (.node root (.moduleRoot name) ts :: us)) (hclean : s.Clean nobody)
    (hfit : ∀ t ∈ ts, t.Every (Fit s)) : IfReturns (infer root) s fun _ s' => Owned ts s' := by
  have hlength := h.length_le
  simp only [Tree.idsOf_cons, Tree.ids_node, List.length_append, List.length_singleton] at hlength
  have h' : s.tree.Forest (plug [] [.node root (.moduleRoot name) ([] ++ ts)] ++ us) := h
  unfold infer inferWith
  simp only [triple_bind, triple_tree]
  exact owned_analyzeChildren (R := SettlesAlone) [] (fun _ _ _ _ hle h => h.mono hle)
    (fun t hm => (walks_lowered (ht t hm) (hi t hm)).visits _)
    (fun t hm => ownsUp_lowered (ht t hm) (hi t hm)) none (by omega) hs h' (.of_fed hfed) hclean
    hfit

end BlockLang.Typing
