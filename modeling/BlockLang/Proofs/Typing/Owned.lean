import BlockLang.Proofs.Typing.CandidSteps
import BlockLang.Proofs.Typing.Statement

/-!
# Inference owns up to what is wrong

Inference leaves a clean session clean, or else it reports something that makes the program
unusable, with two exceptions: a store into something that is not marked as a place, and a
branch with an import in it.
-/

namespace BlockLang

open BlockLang.Tree (idsOf subtreesOf)
open BlockLang.Frame (plug)

variable {N : NodeId → Prop} {s s' : Session} {i : NodeId} {u : Tree} {ts us vs : List Tree}

/-- What inference relies on at a node besides its operands. -/
structure Fit (s : Session) (u : Tree) : Prop where
  arity : u.kind.isStep = true → u.kind = .nullValue ∨ u.kind.Arity u.children.length
  literal : u.kind = .literal → s.Typed u.handle
  function : ∀ d, u.kind = .funcDecl d → (s.decl d).isFunction = true

/-- What may be wrong without a report. -/
inductive Mute (s : Session) (u : Tree) : Prop
  | store (kind : u.kind = .assign) (target : o ∈ u.children.head?)
    (place : (s.tree.facts o.handle).lvalue = false) : Mute s u
  | branch (kind : u.kind = .ifElse) (imports : ¬ u.ImportFree) : Mute s u

/-- Something has been reported or nothing is wrong, unless some node of the trees is mute. -/
def Owned (ts : List Tree) (s : Session) : Prop :=
  s.Hurt ∨ s.Clean Typing.nobody ∨ ∃ u ∈ subtreesOf ts, Mute s u

theorem Proceeds.hurt (h : Proceeds N s s') (hs : s.Hurt) : s'.Hurt := by
  obtain ⟨d, hd, hhard⟩ := hs
  exact ⟨d, h.report.subset hd, hhard⟩

theorem Fit.proceeds (h : Fit s u) (hp : Proceeds N s s') (hu : Spared N s u.handle) :
    Fit s' u := by
  refine ⟨h.arity, fun hk => ?_, fun d hk => ?_⟩
  · rw [Session.Typed, hp.facts hu.1 hu.2]
    exact h.literal hk
  · have hfunction := h.function d hk
    unfold Decl.isFunction at hfunction ⊢
    rwa [decl_kind_congr hp.names]

theorem every_fit (h : u.Every (Fit s)) (hp : Proceeds N s s') (hu : ∀ id ∈ u.ids, Spared N s id) :
    u.Every (Fit s') :=
  fun v hv => (h v hv).proceeds hp (hu v.handle (Tree.mem_ids.mpr ⟨v, hv, rfl⟩))

theorem Mute.congr (h : Mute s u)
    (hu : ∀ id ∈ idsOf u.children, s'.tree.facts id = s.tree.facts id) : Mute s' u := by
  cases h with
  | @store o kind target place =>
    have ho : o.handle ∈ idsOf u.children :=
      Tree.mem_idsOf.mpr ⟨o, List.mem_of_mem_head? target, o.handle_mem_ids⟩
    exact .store kind target (by rw [hu _ ho, place])
  | branch kind imports => exact .branch kind imports

namespace Owned

theorem mono (h : Owned ts s) (hs : ∀ u ∈ subtreesOf ts, u ∈ subtreesOf vs) : Owned vs s :=
  h.imp_right fun h => h.imp_right fun ⟨u, hu, hm⟩ => ⟨u, hs u hu, hm⟩

theorem clean (h : s.Clean Typing.nobody) : Owned ts s := .inr (.inl h)

/-- What is wrong in the parts is wrong in the whole. -/
theorem whole {k : NodeKind} (h : Owned ts s) : Owned [.node i k ts] s :=
  h.mono fun u hu => by simp [hu]

theorem congr (h : Owned ts s) (hurt : s.Hurt → s'.Hurt)
    (hclean : s.Clean Typing.nobody → s'.Clean Typing.nobody)
    (hts : ∀ id ∈ idsOf ts, s'.tree.facts id = s.tree.facts id) : Owned ts s' := by
  refine h.imp hurt (Or.imp hclean fun ⟨u, hu, hm⟩ => ⟨u, hu, hm.congr fun id hid => hts id ?_⟩)
  obtain ⟨c, hc, hid⟩ := Tree.mem_idsOf.mp hid
  obtain ⟨v, hv, rfl⟩ := Tree.mem_ids.mp hid
  obtain ⟨t, ht, hu⟩ := Tree.mem_subtreesOf.mp hu
  have hvt := Tree.subtrees_trans hu (Tree.subtrees_trans (Tree.child_mem_subtrees hc) hv)
  exact Tree.mem_idsOf.mpr ⟨t, ht, Tree.mem_ids.mpr ⟨v, hvt, rfl⟩⟩

theorem untouched (h : Owned ts s) (hu : s.Untouched s')
    (hts : ∀ id ∈ idsOf ts, id.index < s.tree.size) : Owned ts s' :=
  h.congr hu.hurt hu.clean fun id hid => hu.tree.labels.facts (hts id hid)

/-- What comes after only has to own up to what is wrong there. -/
theorem rest {p : Pass α} (vs : List Tree) (h : Owned ts s)
    (hp : IfReturns p s fun _ s' => Proceeds N s s') (hts : ∀ id ∈ idsOf ts, Spared N s id)
    (hclean : s.Clean Typing.nobody → IfReturns p s fun _ s' => Owned vs s') :
    IfReturns p s fun _ s' => Owned (ts ++ vs) s' := by
  have hfacts : ∀ s', Proceeds N s s' → ∀ id ∈ idsOf ts, s'.tree.facts id = s.tree.facts id :=
    fun s' hp id hid => hp.facts (hts id hid).1 (hts id hid).2
  have hleft : ∀ s', Owned ts s' → Owned (ts ++ vs) s' := fun s' h =>
    h.mono fun u hu => by simp [hu]
  by_cases hs : s.Clean Typing.nobody
  · exact (hclean hs).imp fun _ _ h => h.mono fun u hu => by simp [hu]
  · exact hp.imp fun _ s' hp => hleft s' (h.congr hp.hurt (absurd · hs) (hfacts s' hp))

/-- A candid pass adds nothing. -/
theorem candid {p : Pass α} {P : Session → Prop} {Q : α → Session → Prop} (h : Owned ts s)
    (hc : Candid Typing.nobody P p Q) (hP : s.Clean Typing.nobody → P s)
    (hp : IfReturns p s fun _ s' => Proceeds N s s') (hts : ∀ id ∈ idsOf ts, Spared N s id) :
    IfReturns p s fun _ s' => Owned ts s' := by
  refine (h.rest [] hp hts fun hs => ?_).imp fun _ _ h => h.mono (by simp)
  exact (hc.2 s hs (hP hs)).imp fun _ _ h => h.imp_right fun h => .inl h.2.1

end Owned

namespace Typing

open Pass

variable {busy : DeclId → Prop} {node : NodeId} {B : Set NodeId} {t : Tree} {f : Frame}
  {fs : List Frame}

-- ---------------------------------------------------------------------------
-- Steps
-- ---------------------------------------------------------------------------

/-- A temporary takes over what its producer knows. -/
theorem clean_copyProducer {j : NodeId} {τ : TempId} (hc : s.Clean busy)
    (h : s.Typed (s.temps[τ.index]?.getD default)) :
    IfReturns (copyProducer (pure .error) j τ) s fun _ s' => s'.Clean busy := by
  obtain ⟨type, htype⟩ := Option.isSome_iff_exists.mp h
  have hclean := hc.nodes _ type htype
  have hend : ∀ facts values, facts.type = some type →
      Session.Clean busy { s with values, tree := s.tree.annotate j fun _ => facts } := by
    intro facts values hfacts
    have hvalues : s.Untouched { s with values } := ⟨rfl, .refl _, rfl, rfl, rfl⟩
    exact (hvalues.clean hc).annotate fun _ ht => by
      obtain rfl := Option.some.inj (hfacts.symm.trans ht)
      exact hclean
  unfold copyProducer
  simp only [triple_bind, triple_get, triple_factsOf, htype, triple_pure]
  split <;> exact hend _ _ rfl

/-- The operands of a step that is ready are read. -/
theorem clean_readEach {os : List Tree} {parent : Option NodeId} (hs : s.Scoped)
    (hc : s.Clean busy) (h : s.tree.HoldsAll parent os) (ho : ∀ o ∈ os, IsTemp o)
    (hn : (idsOf os).Nodup) (hr : ∀ o ∈ os, Ready s B o) :
    IfReturns ((os.map Tree.handle).forM fun operand => do
        match ← kindOf operand with
        | .temp temp => copyProducer (pure .error) operand temp
        | _ => return) s fun _ s' => s'.Clean busy := by
  induction os generalizing s with
  | nil => exact hc
  | cons o os ih =>
    obtain ⟨j, τ, rfl⟩ := ho o List.mem_cons_self
    rw [List.forall_mem_cons] at ho hr
    obtain ⟨hro, hr⟩ := hr
    obtain ⟨p, hset, hp⟩ := hro.fed.set
    rw [Arena.holdsAll_cons] at h
    have hkind : s.tree.kind j = .temp τ := h.1.kind
    have hj := h.1.lt_size j (by simp)
    simp only [Tree.idsOf_cons, Tree.ids_node, Tree.idsOf_nil, List.nil_append,
      List.singleton_append, List.nodup_cons] at hn
    simp only [List.map_cons, Tree.handle_node, triple_forM_cons, triple_bind, triple_kindOf, hkind]
    have htyped := (hro.known p hp).2
    have hcopy := (Returns.triple (E := fun _ _ => True)
      (returns_copyProducer hs hset htyped hj (pure .error))).and
        (clean_copyProducer (j := j) (τ := τ) hc (by rw [hset]; exact htyped))
    refine hcopy.imp ?_
    rintro - s₁ ⟨⟨hl, -⟩, hc₁⟩
    refine ih (hl.scoped hs) hc₁ (h.2.congr fun id _ => hl.links id) ho.2 hn.2 fun o hm =>
      (hr o hm).proceeds hl.proceeds (fun id hid => ⟨?_, ?_⟩) fun p hp he => ?_
    · exact h.2.lt_size id (Tree.mem_idsOf.mpr ⟨o, hm, hid⟩)
    · rintro rfl
      exact hn.1 (Tree.mem_idsOf.mpr ⟨o, hm, hid⟩)
    · exact hro.apart p hp (by simp [he])

/-- Nothing is wrong with operands whose types are clean. -/
theorem ifReturns_isPoisoned (hc : s.Clean busy) (h : ∀ o ∈ s.tree.children node, s.Typed o) :
    IfReturns (isPoisoned node) s fun poisoned s' => poisoned = false ∧ s' = s := by
  unfold isPoisoned
  simp only [triple_bind, triple_types, triple_childrenOf, triple_pure]
  refine (triple_mapM_reads _ fun id _ Q => triple_typeOf).mpr ⟨List.any_eq_false.mpr ?_, rfl⟩
  rintro type htype
  obtain ⟨o, ho, rfl⟩ := List.mem_map.mp htype
  obtain ⟨known, hknown⟩ := Option.isSome_iff_exists.mp (h o ho)
  simpa [hknown] using (hc.nodes o known hknown).containsError

/-- A step that is ready is right, or it is a store into something that is no place. -/
theorem owned_analyzeStep (ht : Step t) (hi : t.kind.isInferred = false) (hs : s.Scoped)
    (hc : s.Clean nobody) (h : s.tree.Forest (plug (f :: fs) [t] ++ us)) (hr : Ready s B t)
    (hfit : Fit s t) (result : Option TypeId) (fuel : Nat) :
    IfReturns (analyzeStep (pure .error) result (fuel + 1) t.handle) s fun _ s' =>
      Owned [t] s' := by
  cases t with
  | node i k os =>
    have hstep : k.isStep = true := ht.kind
    have hkind : s.tree.kind i = k := h.gap.kind
    have hchildren : s.tree.children i = os.map Tree.handle := h.gap.children
    have hnodup := h.nodup_gap
    simp only [Tree.idsOf_cons, Tree.ids_node, Tree.idsOf_nil, List.append_nil] at hnodup
    have hready : ∀ o ∈ os, Ready s B o :=
      fun o ho => hr.child (NodeKind.isPlain_of_isStep hstep) ho
    have hread := (Returns.triple (E := fun _ _ => True) (returns_readEach hs h.gap.below
      hnodup.of_append_left ht.operands hready (pure .error))).and
        (clean_readEach hs hc h.gap.below ht.operands hnodup.of_append_left hready)
    unfold analyzeStep
    simp only [Tree.handle_node, readOperands, triple_bind, triple_kindOf, triple_childrenOf, hkind,
      hchildren]
    refine hread.imp ?_
    rintro - s₁ ⟨⟨hl, hdone⟩, hc₁⟩
    have hchildren₁ : s₁.tree.children i = os.map Tree.handle :=
      (Arena.children_congr (hl.links i)).trans hchildren
    have htyped : ∀ j ∈ s₁.tree.children i, s₁.Typed j := by
      intro j hj
      rw [hchildren₁] at hj
      obtain ⟨o, ho, rfl⟩ := List.mem_map.mp hj
      obtain ⟨j, τ, rfl⟩ := ht.operands o ho
      exact ((hdone _ ho).noted _ (Tree.mem_subtreesOf_of_mem (by simp))).covers.type rfl
    have hself : ∀ id ∈ idsOf os, ¬ id = i := by
      rintro id hid rfl
      exact (List.nodup_append.mp hnodup).2.2 id hid id (by simp) rfl
    refine (ifReturns_isPoisoned hc₁ htyped).imp ?_
    rintro _ s₂ ⟨rfl, rfl⟩
    have hplain : IfReturns (plainStep (pure .error) i k result false) s₂ fun _ s' =>
        Owned [.node i k os] s' := by
      by_cases hplace : k = .assign →
          ∀ target ∈ s₂.tree.child? i 0, (s₂.tree.facts target).lvalue = true
      · have hprepared : s₂.Prepared i k := by
          refine ⟨(hfit.arity hstep).imp_right fun harity => ⟨?_, htyped⟩, fun hk => ?_, hplace⟩
          · rwa [hchildren₁, List.length_map]
          · rw [Session.Typed, hl.facts fun hm => hself i hm rfl]
            exact hfit.literal hk
        exact ((candid_plainStep hstep hi _ result).2 s₂ hc₁ ⟨hl.scoped hs, hprepared⟩).imp
          fun _ _ h => h.imp_right fun h => .inl h.2.1
      · obtain ⟨rfl, target, htarget, hvalue⟩ : k = .assign ∧ ∃ target ∈ s₂.tree.child? i 0,
            (s₂.tree.facts target).lvalue = false := by
          simpa using hplace
        rw [Arena.child?, hchildren₁, List.getElem?_map] at htarget
        obtain ⟨o, ho, rfl⟩ := Option.map_eq_some_iff.mp htarget
        have hmute : Mute s₂ (.node i .assign os) :=
          .store rfl (by rwa [Tree.children_node, List.head?_eq_getElem?]) hvalue
        -- the step only learns about itself, and not about what it stores into
        have hlearns := types_typeUnlessPoisoned (N := (· = i)) (G := fun _ => True) rfl false
          (learner_analyzeAssign i) s₂ (hl.scoped hs) trivial
        refine (Returns.triple hlearns).imp fun _ s' h' => .inr (.inr
          ⟨.node i .assign os, Tree.mem_subtreesOf_of_mem (List.mem_singleton_self _), ?_⟩)
        exact hmute.congr fun id hid => h'.1.facts (hself id hid)
    split
    case h_11 => exact hplain
    all_goals exact absurd hstep (by simp [NodeKind.isStep, NodeKind.isExpression])

end Typing
end BlockLang
