import BlockLang.Proofs.Typing.Settles

/-!
# What inference loses

Inference makes no declaration, assignment or return, and no branch or loop. What it
takes away of them is in the condition of a branch or loop that it decides, or in an arm
that is not taken. The condition goes as a whole, also if only its last step is constant.
-/

namespace BlockLang

open BlockLang.Tree (idsOf subtreesOf)

/-- Nodes that are there for what they do. A call is none of them, since a built-in that is
called takes its place. -/
def NodeKind.hasEffect : NodeKind → Bool
  | .assign | .refBind | .varDecl .. | .returnStmt | .funcDecl _ => true
  | _ => false

/-- The node of `u` is somewhere in `ts`. -/
def StaysIn (ts : List Tree) (u : Tree) : Prop :=
  ∃ v ∈ subtreesOf ts, v.handle = u.handle ∧ v.kind = u.kind

/-- Inference makes no nodes of these kinds. -/
def NodeKind.isFirm (k : NodeKind) : Bool := k.hasEffect || k.isControlFlow

/-- A branch or loop around `u` is gone, and the part of it that `u` is in has left nothing. -/
def Dropped (ts ts' : List Tree) (u : Tree) : Prop :=
  ∃ b ∈ subtreesOf ts, b.kind.isControlFlow = true ∧ ¬ StaysIn ts' b ∧
    ∃ c ∈ b.children, u ∈ c.subtrees ∧
      ∀ v ∈ c.subtrees, v.kind.isFirm = true → ¬ StaysIn ts' v

/-- Everything with an effect can be accounted for. -/
structure Accounts (ts ts' : List Tree) : Prop where
  nothingNew : ∀ v ∈ subtreesOf ts', v.kind.isFirm = true → StaysIn ts v
  fate : ∀ u ∈ subtreesOf ts, u.kind.hasEffect = true → StaysIn ts' u ∨ Dropped ts ts' u

section
variable {t t' u v : Tree} {ts ts' us us' cs cs' : List Tree} {i j : NodeId} {k : NodeKind}

theorem NodeKind.isFirm_of_hasEffect (h : k.hasEffect = true) : k.isFirm = true := by
  simp [isFirm, h]

theorem NodeKind.isFirm_of_isControlFlow (h : k.isControlFlow = true) : k.isFirm = true := by
  simp [isFirm, h]

theorem NodeKind.not_hasEffect_of_isControlFlow (h : k.isControlFlow = true) :
    k.hasEffect = false := by
  cases k <;> first | rfl | simp [isControlFlow] at h

theorem NodeKind.not_isFirm_of_isOperation (h : k.isOperation = true) : k.isFirm = false := by
  cases k <;> first | rfl | simp [isOperation] at h

theorem StaysIn.mono (h : StaysIn ts u) (hs : subtreesOf ts ⊆ subtreesOf us) : StaysIn us u := by
  obtain ⟨v, hv, he⟩ := h
  exact ⟨v, hs hv, he⟩

theorem StaysIn.mem_ids (h : StaysIn ts u) : u.handle ∈ idsOf ts := by
  obtain ⟨v, hv, hh, -⟩ := h
  rw [Tree.idsOf_eq_map, ← hh]
  exact List.mem_map_of_mem hv

theorem staysIn_append : StaysIn (ts ++ us) u ↔ StaysIn ts u ∨ StaysIn us u := by
  simp only [StaysIn, Tree.subtreesOf_append, List.mem_append, or_and_right, exists_or]

theorem staysIn_node : StaysIn [.node i k cs] u ↔ StaysIn cs u ∨ i = u.handle ∧ k = u.kind := by
  simp [StaysIn, or_and_right, exists_or]

/-- A tree does not stay in what became of trees that it is not in. -/
theorem Accounts.not_staysIn (h : Accounts ts ts') (hu : u.handle ∉ idsOf ts)
    (hk : u.kind.isFirm = true) : ¬ StaysIn ts' u := by
  rintro ⟨v, hv, hh, hkind⟩
  have hold := (h.nothingNew v hv (hkind ▸ hk)).mem_ids
  exact hu (hh ▸ hold)

theorem Dropped.mono (h : Dropped ts ts' u) (hs : subtreesOf ts ⊆ subtreesOf us)
    (hg : ∀ v ∈ subtreesOf ts, v.kind.isFirm = true → ¬ StaysIn ts' v → ¬ StaysIn us' v) :
    Dropped us us' u := by
  obtain ⟨b, hb, hk, hgone, c, hc, hu, hall⟩ := h
  have hbelow : ∀ v ∈ c.subtrees, v ∈ subtreesOf ts := by
    intro v hv
    obtain ⟨t, ht, hbt⟩ := Tree.mem_subtreesOf.mp hb
    have hct := Tree.subtrees_trans hbt (Tree.child_mem_subtrees hc)
    exact Tree.mem_subtreesOf.mpr ⟨t, ht, Tree.subtrees_trans hct hv⟩
  exact ⟨b, hs hb, hk, hg b hb (NodeKind.isFirm_of_isControlFlow hk) hgone, c, hc, hu,
    fun v hv hf => hg v (hbelow v hv) hf (hall v hv hf)⟩

theorem handle_mem_idsOf_of_subtree (h : u ∈ subtreesOf ts) : u.handle ∈ idsOf ts := by
  rw [Tree.idsOf_eq_map]
  exact List.mem_map_of_mem h

-- ---------------------------------------------------------------------------
-- Putting accounts together
-- ---------------------------------------------------------------------------

theorem Accounts.append (h : Accounts ts ts') (h' : Accounts us us')
    (hn : (idsOf (ts ++ us)).Nodup) : Accounts (ts ++ us) (ts' ++ us') := by
  rw [Tree.idsOf_append, List.nodup_append] at hn
  obtain ⟨-, -, hdisjoint⟩ := hn
  refine ⟨fun v hv hk => ?_, fun u hu hk => ?_⟩
  · rw [Tree.subtreesOf_append, List.mem_append] at hv
    exact staysIn_append.mpr (hv.imp (h.nothingNew v · hk) (h'.nothingNew v · hk))
  · rw [Tree.subtreesOf_append, List.mem_append] at hu
    rcases hu with hu | hu
    -- what became of the other trees has no node of these, so what is gone stays gone
    · refine (h.fate u hu hk).imp (fun hs => staysIn_append.mpr (.inl hs)) fun hf => ?_
      refine hf.mono (by simp) fun v hv hfirm hgone => ?_
      have hother : v.handle ∉ idsOf us := fun hm =>
        hdisjoint _ (handle_mem_idsOf_of_subtree hv) _ hm rfl
      exact fun hs => (staysIn_append.mp hs).elim hgone (h'.not_staysIn hother hfirm)
    · refine (h'.fate u hu hk).imp (fun hs => staysIn_append.mpr (.inr hs)) fun hf => ?_
      refine hf.mono (by simp) fun v hv hfirm hgone => ?_
      have hother : v.handle ∉ idsOf ts := fun hm =>
        hdisjoint _ hm _ (handle_mem_idsOf_of_subtree hv) rfl
      exact fun hs => (staysIn_append.mp hs).elim (h.not_staysIn hother hfirm) hgone

/-- A node stays over what its children have become. -/
theorem Accounts.over (h : Accounts cs cs') (hn : (Tree.node i k cs).ids.Nodup) :
    Accounts [.node i k cs] [.node i k cs'] := by
  have hroot : i ∉ idsOf cs := by
    rw [Tree.ids_node, List.nodup_append] at hn
    exact fun hm => hn.2.2 i hm i (by simp) rfl
  refine ⟨fun v hv hk => ?_, fun u hu hk => ?_⟩
  · simp only [Tree.subtreesOf_cons, Tree.subtrees_node, Tree.subtreesOf_nil, List.append_nil,
      List.mem_append, List.mem_singleton] at hv
    rcases hv with hv | rfl
    · exact staysIn_node.mpr (.inl (h.nothingNew v hv hk))
    · exact staysIn_node.mpr (.inr ⟨rfl, rfl⟩)
  · simp only [Tree.subtreesOf_cons, Tree.subtrees_node, Tree.subtreesOf_nil, List.append_nil,
      List.mem_append, List.mem_singleton] at hu
    rcases hu with hu | rfl
    · refine (h.fate u hu hk).imp (fun hs => staysIn_node.mpr (.inl hs)) fun hf => ?_
      refine hf.mono (by simp) fun v hv _ hgone => ?_
      have hne : i ≠ v.handle := fun he => hroot (he ▸ handle_mem_idsOf_of_subtree hv)
      exact fun hs => (staysIn_node.mp hs).elim hgone fun he => hne he.1
    · exact .inl (staysIn_node.mpr (.inr ⟨rfl, rfl⟩))

/-- A branch or loop gives way to what some of its parts have become. -/
theorem Accounts.decided {l m r m' : List Tree} (hk : k.isControlFlow = true)
    (h : Accounts m m') (hn : (Tree.node i k (l ++ m ++ r)).ids.Nodup) :
    Accounts [.node i k (l ++ m ++ r)] m' := by
  simp only [Tree.ids_node, Tree.idsOf_append, List.nodup_append, List.mem_append,
    List.mem_singleton] at hn
  obtain ⟨⟨⟨-, -, hleft⟩, -, hright⟩, -, hroot⟩ := hn
  have hgone : ¬ StaysIn m' (.node i k (l ++ m ++ r)) :=
    h.not_staysIn (fun hm => hroot i (.inl (.inr hm)) i rfl rfl)
      (NodeKind.isFirm_of_isControlFlow hk)
  -- nothing is left of a part that does not take the place: all that is there comes from `m`
  have hpart : ∀ c ∈ l ++ r, ∀ u ∈ c.subtrees,
      Dropped [.node i k (l ++ m ++ r)] m' u := by
    intro c hc u hu
    refine ⟨.node i k (l ++ m ++ r), by simp, hk, hgone, c, ?_, hu, fun v hv hf => ?_⟩
    · rcases List.mem_append.mp hc with hc | hc <;> simp [hc]
    · refine h.not_staysIn (fun hm => ?_) hf
      have hvc : v.handle ∈ c.ids := Tree.mem_ids.mpr ⟨v, hv, rfl⟩
      rcases List.mem_append.mp hc with hc | hc
      · exact hleft _ (Tree.mem_idsOf.mpr ⟨c, hc, hvc⟩) _ hm rfl
      · exact hright _ (.inr hm) _ (Tree.mem_idsOf.mpr ⟨c, hc, hvc⟩) rfl
  have hsub : subtreesOf m ⊆ subtreesOf [.node i k (l ++ m ++ r)] := by
    intro u hu
    simp [hu]
  refine ⟨fun v hv hf => (h.nothingNew v hv hf).mono hsub, fun u hu he => ?_⟩
  simp only [Tree.subtreesOf_cons, Tree.subtrees_node, Tree.subtreesOf_nil, List.append_nil,
    Tree.subtreesOf_append, List.mem_append, List.mem_singleton] at hu
  rcases hu with ((hu | hu) | hu) | rfl
  · obtain ⟨c, hc, hu⟩ := Tree.mem_subtreesOf.mp hu
    exact .inr (hpart c (by simp [hc]) u hu)
  · exact (h.fate u hu he).imp_right fun hf => hf.mono hsub fun _ _ _ hg => hg
  · obtain ⟨c, hc, hu⟩ := Tree.mem_subtreesOf.mp hu
    exact .inr (hpart c (by simp [hc]) u hu)
  · rw [Tree.kind_node, NodeKind.not_hasEffect_of_isControlFlow hk] at he
    exact absurd he (by simp)

/-- Nothing has an effect before or after. -/
theorem Accounts.idle (h : ∀ u ∈ subtreesOf ts, u.kind.isFirm = false)
    (h' : ∀ v ∈ subtreesOf ts', v.kind.isFirm = false) : Accounts ts ts' := by
  refine ⟨fun v hv hk => ?_, fun u hu hk => ?_⟩
  · rw [h' v hv] at hk
    exact absurd hk (by simp)
  · have hf := NodeKind.isFirm_of_hasEffect hk
    rw [h u hu] at hf
    exact absurd hf (by simp)

theorem Accounts.refl (ts : List Tree) : Accounts ts ts :=
  ⟨fun v hv _ => ⟨v, hv, rfl, rfl⟩, fun u hu _ => .inl ⟨u, hu, rfl, rfl⟩⟩

end

-- ---------------------------------------------------------------------------
-- Accounts of inference
-- ---------------------------------------------------------------------------

section
variable {first : Nat} {t t' : Tree} {ts ts' rs cs os os' : List Tree} {i j : NodeId}
  {k k' : NodeKind}

theorem not_firm_temps (h : ∀ o ∈ os, IsTemp o) : ∀ v ∈ subtreesOf os, v.kind.isFirm = false := by
  intro v hv
  obtain ⟨o, ho, hv⟩ := Tree.mem_subtreesOf.mp hv
  obtain ⟨j, temp, rfl⟩ := h o ho
  obtain rfl : v = .node j (.temp temp) [] := by simpa using hv
  rfl

theorem not_firm_step (hk : k.isFirm = false) (hs : ∀ o ∈ os, IsTemp o) :
    ∀ v ∈ (Tree.node i k os).subtrees, v.kind.isFirm = false := by
  intro v hv
  simp only [Tree.subtrees_node, List.mem_append, List.mem_singleton] at hv
  rcases hv with hv | rfl
  · exact not_firm_temps hs v hv
  · exact hk

theorem not_firm_casts (h : ∀ c ∈ cs, IsCast first c) :
    ∀ v ∈ subtreesOf cs, v.kind.isFirm = false := by
  intro v hv
  obtain ⟨c, hc, hv⟩ := Tree.mem_subtreesOf.mp hv
  obtain ⟨⟨target, hk⟩, hos, -⟩ := h c hc
  cases c with
  | node j k os =>
    obtain rfl : k = .cast target := hk
    exact not_firm_step rfl hos v hv

/-- An operation has no effect, and neither have conversions and what stands for it. -/
theorem accounts_operation (hk : k.isOperation = true) (hs : ∀ o ∈ os, IsTemp o)
    (hc : ∀ c ∈ cs, IsCast first c) (hk' : k'.isFirm = false) (hs' : ∀ o ∈ os', IsTemp o) :
    Accounts [.node i k os] (cs ++ [.node j k' os']) := by
  refine .idle ?_ ?_
  · simpa using not_firm_step (NodeKind.not_isFirm_of_isOperation hk) hs
  · rw [Tree.subtreesOf_append]
    exact List.forall_mem_append.mpr ⟨not_firm_casts hc, by simpa using not_firm_step hk' hs'⟩

theorem Resolves.accounts (h : Resolves first t rs) (hs : Step t) : Accounts [t] rs := by
  cases h with
  | same => exact .refl _
  | kept kind casts operands =>
    exact accounts_operation kind hs.operands casts (NodeKind.not_isFirm_of_isOperation kind)
      operands
  | builtin kind casts operands => exact accounts_operation kind hs.operands casts rfl operands

theorem accounts_steps (h : List.Forall₂ (Resolves first) cs rss) (hs : ∀ c ∈ cs, Step c)
    (hn : (idsOf cs).Nodup) : Accounts cs rss.flatten := by
  induction h with
  | nil => exact .refl _
  | cons head _ ih =>
    obtain ⟨hstep, hsteps⟩ := List.forall_mem_cons.mp hs
    rw [Tree.idsOf_cons] at hn
    exact (head.accounts hstep).append (ih hsteps hn.of_append_right) (by simpa using hn)

theorem nodup_children (hn : (Tree.node i k cs).ids.Nodup) : (idsOf cs).Nodup := by
  rw [Tree.ids_node] at hn
  exact hn.of_append_left

theorem Settles.accounts (h : Settles first t t') (hl : Lowered t) (hn : t.ids.Nodup) :
    Accounts [t] [t'] := by
  induction h with
  | basicBlock steps =>
    cases hl with
    | basicBlock hs => exact (accounts_steps steps hs (nodup_children hn)).over hn
  | pair _ _ iha ihb =>
    cases hl with
    | pair ha hb =>
      have ha' := iha ha (Tree.nodup_ids_of_mem hn (by simp))
      have hb' := ihb hb (Tree.nodup_ids_of_mem hn (by simp))
      exact (ha'.append hb' (nodup_children hn)).over hn
  | ifThen _ _ ihc iha =>
    cases hl with
    | ifThen hc ha =>
      have hc' := ihc hc (Tree.nodup_ids_of_mem hn (by simp))
      have ha' := iha ha (Tree.nodup_ids_of_mem hn (by simp))
      exact (hc'.append ha' (nodup_children hn)).over hn
  | ifElse _ _ _ ihc iha ihb =>
    cases hl with
    | ifElse hc ha hb =>
      have hcs := nodup_children hn
      have hc' := ihc hc (Tree.nodup_ids_of_mem hn (by simp))
      have ha' := iha ha (Tree.nodup_ids_of_mem hn (by simp))
      have hb' := ihb hb (Tree.nodup_ids_of_mem hn (by simp))
      rw [Tree.idsOf_cons] at hcs
      exact (hc'.append (ha'.append hb' hcs.of_append_right) (nodup_children hn)).over hn
  | whileLoop _ _ ihc ihb =>
    cases hl with
    | whileLoop hc hb =>
      have hc' := ihc hc (Tree.nodup_ids_of_mem hn (by simp))
      have hb' := ihb hb (Tree.nodup_ids_of_mem hn (by simp))
      exact (hc'.append hb' (nodup_children hn)).over hn
  | @taken c c' a a' i bs _ _ _ iha =>
    have ha : Lowered a := by
      cases hl with
      | ifThen _ ha => exact ha
      | ifElse _ ha _ => exact ha
    exact Accounts.decided (l := [c]) rfl (iha ha (Tree.nodup_ids_of_mem hn (by simp))) hn
  | @notTaken c c' b b' i a _ _ _ ihb =>
    cases hl with
    | ifElse _ _ hb =>
      exact Accounts.decided (l := [c, a]) (r := []) rfl
        (ihb hb (Tree.nodup_ids_of_mem hn (by simp))) hn
  | dropped kind =>
    exact Accounts.decided (l := []) (m := []) kind (.idle (by simp) (by simp; rfl)) hn
  | funcDecl _ ih =>
    cases hl with
    | funcDecl hb => exact (ih hb (Tree.nodup_ids_of_mem hn (by simp))).over hn
  | typeDecl => exact .refl _
  | importDecl => exact .refl _

theorem Settles.accounts_all (h : List.Forall₂ (Settles first) ts ts') (hl : ∀ t ∈ ts, Lowered t)
    (hn : (idsOf ts).Nodup) : Accounts ts ts' := by
  induction h with
  | nil => exact .refl _
  | cons head _ ih =>
    obtain ⟨ht, hts⟩ := List.forall_mem_cons.mp hl
    have hn' := hn
    rw [Tree.idsOf_cons] at hn'
    exact (head.accounts ht hn'.of_append_left).append (ih hts hn'.of_append_right) hn

-- ---------------------------------------------------------------------------
-- In an arena
-- ---------------------------------------------------------------------------

/-- `id` is still below `root` in `b`, and of the kind it has in `a`. -/
def Arena.Survives (a b : Arena) (root id : NodeId) : Prop :=
  b.Reaches root id ∧ b.kind id = a.kind id

theorem survives_iff {a b : Arena} {p q : Option NodeId} {t t' u : Tree} (h : a.Holds p t)
    (h' : b.Holds q t') (hu : u ∈ t.subtrees) :
    a.Survives b t'.handle u.handle ↔ StaysIn [t'] u := by
  obtain ⟨_, hkind⟩ := h.subtree hu
  simp only [Arena.Survives, StaysIn, h'.reaches_iff, Tree.mem_ids, hkind.kind,
    Tree.subtreesOf_cons, Tree.subtreesOf_nil, List.append_nil]
  constructor
  · rintro ⟨⟨v, hv, hh⟩, hk⟩
    obtain ⟨_, hv'⟩ := h'.subtree hv
    exact ⟨v, hv, hh, by rw [← hk, ← hh, hv'.kind]⟩
  · rintro ⟨v, hv, hh, hk⟩
    obtain ⟨_, hv'⟩ := h'.subtree hv
    exact ⟨⟨v, hv, hh⟩, by rw [← hh, hv'.kind, hk]⟩

/-- A branch or loop that was around a node is gone, with all that the node is a part of there. -/
theorem Accounts.survives {a b : Arena} {p q : Option NodeId} {t t' : Tree} (hc : Accounts [t] [t'])
    (h : a.Holds p t) (h' : b.Holds q t') (hr : t'.handle = t.handle) {id : NodeId}
    (hid : a.Reaches t.handle id) (he : (a.kind id).hasEffect = true) :
    a.Survives b t.handle id ∨ ∃ branch, a.Reaches t.handle branch ∧
      (a.kind branch).isControlFlow = true ∧ ¬ a.Survives b t.handle branch ∧
      ∃ part ∈ a.children branch, a.Reaches part id ∧
        ∀ j, a.Reaches part j → (a.kind j).isFirm = true → ¬ a.Survives b t.handle j := by
  obtain ⟨u, hu, rfl⟩ := Tree.mem_ids.mp (h.reaches_iff.mp hid)
  obtain ⟨_, hheld⟩ := h.subtree hu
  rw [hheld.kind] at he
  rw [← hr]
  refine (hc.fate u (by simpa using hu) he).imp (survives_iff h h' hu).mpr ?_
  rintro ⟨x, hx, hk, hgone, c, hcx, huc, hall⟩
  have hx' : x ∈ t.subtrees := by simpa using hx
  obtain ⟨_, hheldx⟩ := h.subtree hx'
  have hct := Tree.subtrees_trans hx' (Tree.child_mem_subtrees hcx)
  obtain ⟨_, hheldc⟩ := h.subtree hct
  refine ⟨x.handle, hr ▸ h.reaches_iff.mpr (Tree.mem_ids.mpr ⟨x, hx', rfl⟩), hheldx.kind ▸ hk,
    fun hs => hgone ((survives_iff h h' hx').mp hs), c.handle, ?_, ?_, ?_⟩
  · rw [hheldx.children]
    exact List.mem_map_of_mem hcx
  · exact hheldc.reaches_iff.mpr (Tree.mem_ids.mpr ⟨u, huc, rfl⟩)
  · intro j hj hfirm hs
    obtain ⟨v, hv, rfl⟩ := Tree.mem_ids.mp (hheldc.reaches_iff.mp hj)
    have hvt := Tree.subtrees_trans hct hv
    obtain ⟨_, hheldv⟩ := h.subtree hvt
    rw [hheldv.kind] at hfirm
    exact hall v hv hfirm ((survives_iff h h' hvt).mp hs)

end
end BlockLang
