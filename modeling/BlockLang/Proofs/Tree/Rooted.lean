import BlockLang.Proofs.Tree.Edit

/-!
# Edits that keep a forest

If no node is ever put below itself, the nodes can be ranked so that each ranks above its
children. Then the arena is a forest, and the check of its links ends after one step for each
node below the root it starts at.
-/

namespace BlockLang

open BlockLang.Tree (idsOf)

namespace Arena

variable {a b : Arena} {p c x y : NodeId}

-- ---------------------------------------------------------------------------
-- Ranks
-- ---------------------------------------------------------------------------

def Ranks (a : Arena) (rank : NodeId → Nat) : Prop :=
  ∀ p c, c ∈ a.children p → rank c < rank p

theorem Ranks.le {rank : NodeId → Nat} (h : a.Ranks rank) (hr : a.Reaches x y) :
    rank y ≤ rank x := by
  induction hr with
  | root => exact Nat.le_refl _
  | child _ hc ih => exact Nat.le_trans (Nat.le_of_lt (h _ _ hc)) ih

/-- A path in an arena with fewer links is one in an arena with more. -/
theorem Reaches.of_subset (hsub : ∀ q, b.children q ⊆ a.children q) (h : b.Reaches x y) :
    a.Reaches x y := by
  induction h with
  | root => exact .root
  | child _ hc ih => exact .child ih (hsub _ hc)

theorem Detaches.children_subset (h : a.Detaches p c b) (q : NodeId) :
    b.children q ⊆ a.children q := by
  by_cases hq : q = p
  · subst hq
    exact fun d hd => h.perm.mem_iff.mpr (List.mem_cons_of_mem _ hd)
  · rw [h.others q hq]
    exact fun _ hd => hd

theorem Attaches.mem_children (h : a.Attaches p c b) {q d : NodeId} (hd : d ∈ b.children q) :
    q = p ∧ d = c ∨ d ∈ a.children q := by
  by_cases hq : q = p
  · subst hq
    rcases List.mem_cons.mp (h.perm.mem_iff.mp hd) with rfl | hd
    · exact .inl ⟨rfl, rfl⟩
    · exact .inr hd
  · rw [h.others q hq] at hd
    exact .inr hd

/-- The new link is of no use on the way to the node that it starts at. -/
theorem Attaches.reaches (h : a.Attaches p c b) (hr : b.Reaches x p) : a.Reaches x p := by
  have hway : ∀ {y}, b.Reaches x y → a.Reaches x y ∨ a.Reaches x p := by
    intro y hy
    induction hy with
    | root => exact .inl .root
    | child _ hc ih =>
      rcases h.mem_children hc with ⟨rfl, -⟩ | hc
      · exact .inr (ih.elim id id)
      · exact ih.imp_left (.child · hc)
  exact (hway hr).elim id id

/-- Everything above the new link is raised over what is attached. -/
theorem Attaches.exists_ranks (h : a.Attaches p c b) {rank : NodeId → Nat} (hr : a.Ranks rank)
    (hapart : ¬ a.Reaches c p) : ∃ rank, b.Ranks rank := by
  classical
  refine ⟨fun id => if a.Reaches id p then rank id + rank c + 1 else rank id, fun q d hd => ?_⟩
  rcases h.mem_children hd with ⟨rfl, rfl⟩ | hd
  · simp only [hapart, if_false, Reaches.root, if_true]
    omega
  · have hlt := hr q d hd
    have hup : a.Reaches d p → a.Reaches q p := fun hdp => (Reaches.child .root hd).trans hdp
    by_cases hdp : a.Reaches d p
    · simp only [hdp, hup hdp, if_true]
      omega
    · simp only [hdp, if_false]
      split <;> omega

end Arena

/-- Nodes are attached to one node only, none to a node below itself. -/
theorem Moves.exists_ranks {a b : Arena} {ms : List Move} (h : Moves a ms b) {p : NodeId}
    (hone : ∀ q c, Move.attach q c ∈ ms → q = p ∧ ¬ a.Reaches c p) (hr : ∃ rank, a.Ranks rank) :
    ∃ rank, b.Ranks rank := by
  induction h with
  | nil same =>
    obtain ⟨rank, hr⟩ := hr
    exact ⟨rank, fun q d hd => hr q d ((same q).2 ▸ hd)⟩
  | @cons a b c m ms move rest ih =>
    obtain ⟨rank, hr⟩ := hr
    cases m with
    | attach q d =>
      obtain ⟨rfl, hapart⟩ := hone q d List.mem_cons_self
      refine ih (fun q' d' hm => ?_) (Arena.Attaches.exists_ranks move hr hapart)
      obtain ⟨rfl, hapart'⟩ := hone q' d' (List.mem_cons_of_mem _ hm)
      exact ⟨rfl, fun hreach => hapart' (Arena.Attaches.reaches move hreach)⟩
    | detach q d =>
      have hsub := Arena.Detaches.children_subset move
      refine ih (fun q' d' hm => ?_) ⟨rank, fun q d hd => hr q d (hsub q hd)⟩
      obtain ⟨rfl, hapart⟩ := hone q' d' (List.mem_cons_of_mem _ hm)
      exact ⟨rfl, fun hreach => hapart (hreach.of_subset hsub)⟩

namespace Edit

variable {a b : Arena} {e : Edit}

theorem exists_attach_parent (a : Arena) (e : Edit) :
    ∃ p, ∀ q c, Move.attach q c ∈ e.moves a → q = p := by
  cases e with
  | add kind span scope => exact ⟨⟨0⟩, nofun⟩
  | setKind id kind => exact ⟨⟨0⟩, nofun⟩
  | addWith kind span scope children => exact ⟨⟨a.size⟩, fun q c => by simp +contextual [moves]⟩
  | pushChild parent child => exact ⟨parent, fun q c => by simp +contextual [moves]⟩
  | insertChild parent index child => exact ⟨parent, fun q c => by simp +contextual [moves]⟩
  | replaceChild parent old new => exact ⟨parent, fun q c => by simp +contextual [moves]⟩
  | replaceNode old new =>
    cases hp : a.parent old with
    | none => exact ⟨⟨0⟩, fun q c => by simp [moves, hp]⟩
    | some parent => exact ⟨parent, fun q c => by simp +contextual [moves, hp]⟩
  | detach id => exact ⟨⟨0⟩, fun q c => by simp [moves]⟩
  | reattach slot id => exact ⟨slot.parent, fun q c => by simp +contextual [moves]⟩
  | takeChildren id => exact ⟨⟨0⟩, fun q c => by simp [moves]⟩

/-- No operation puts a node below itself. -/
def Apart (a : Arena) : List Edit → Prop
  | [] => True
  | e :: edits => (∀ p c, Move.attach p c ∈ e.moves a → ¬ a.Reaches c p) ∧
    ∀ b, e.apply a = .ok b → Apart b edits

theorem Apart.cons {edits : List Edit} (h : e.apply a = .ok b)
    (hfirst : ∀ p c, Move.attach p c ∈ e.moves a → ¬ a.Reaches c p) (hrest : Apart b edits) :
    Apart a (e :: edits) := by
  refine ⟨hfirst, fun b' hb' => ?_⟩
  obtain rfl : b = b' := Except.ok.inj (h.symm.trans hb')
  exact hrest

/-- What one operation keeps. -/
theorem exists_ranks_of_apply (hs : a.Synced) (h : e.apply a = .ok b)
    (hapart : ∀ p c, Move.attach p c ∈ e.moves a → ¬ a.Reaches c p) (hr : ∃ rank, a.Ranks rank) :
    ∃ rank, b.Ranks rank := by
  obtain ⟨p, hone⟩ := exists_attach_parent a e
  refine (moves_of_apply hs h).exists_ranks (p := p) (fun q c hm => ?_) hr
  obtain rfl := hone q c hm
  exact ⟨rfl, hapart q c hm⟩

/-- What a run of operations keeps. -/
theorem synced_of_run {edits : List Edit} (hs : a.Synced)
    (h : edits.foldlM apply a = .ok b) : b.Synced := by
  induction edits generalizing a with
  | nil =>
    obtain rfl : a = b := Except.ok.inj h
    exact hs
  | cons e edits ih =>
    rw [List.foldlM_cons] at h
    obtain ⟨a', he, h⟩ := Arena.bind_eq_ok.mp h
    exact ih ((moves_of_apply hs he).synced hs) h

theorem exists_ranks_of_run {edits : List Edit} (hs : a.Synced) (hr : ∃ rank, a.Ranks rank)
    (h : edits.foldlM apply a = .ok b) (hapart : Apart a edits) : ∃ rank, b.Ranks rank := by
  induction edits generalizing a with
  | nil =>
    obtain rfl : a = b := Except.ok.inj h
    exact hr
  | cons e edits ih =>
    rw [List.foldlM_cons] at h
    obtain ⟨a', he, h⟩ := Arena.bind_eq_ok.mp h
    obtain ⟨hfirst, hrest⟩ := hapart
    exact ih ((moves_of_apply hs he).synced hs) (exists_ranks_of_apply hs he hfirst hr) h
      (hrest a' he)

end Edit

-- ---------------------------------------------------------------------------
-- The forest of an arena
-- ---------------------------------------------------------------------------

namespace Arena

variable {a : Arena} {x y u v : NodeId} {q : Option NodeId} {rank : NodeId → Nat}

theorem Synced.reaches_or_reaches (h : a.Synced) (hu : a.Reaches u x) (hv : a.Reaches v x) :
    a.Reaches u v ∨ a.Reaches v u := by
  induction hu with
  | root => exact .inr hv
  | @child up down hup hc ih =>
    cases hv with
    | root => exact .inl (.child hup hc)
    | @child up' _ hup' hc' =>
      have hparent := (h.mem_children.mp hc).symm.trans (h.mem_children.mp hc')
      obtain rfl : up = up' := Option.some.inj hparent
      exact ih hup'

/-- Nothing leads from one node to another one with the same parent. -/
theorem Synced.eq_of_reaches (h : a.Synced) (hr : a.Ranks rank) (hu : a.parent u = q)
    (hv : a.parent v = q) (hreach : a.Reaches u v) : u = v := by
  cases hreach with
  | root => rfl
  | @child up _ hup hc =>
    have hq : q = some up := hv.symm.trans (h.mem_children.mp hc)
    subst hq
    have hle := hr.le hup
    have hlt := hr up u (h.mem_children.mpr hu)
    omega

theorem exists_trees {P : Tree → Prop} (ids : List NodeId)
    (h : ∀ id ∈ ids, ∃ t : Tree, t.handle = id ∧ P t) :
    ∃ ts : List Tree, ts.map Tree.handle = ids ∧ ∀ t ∈ ts, P t := by
  induction ids with
  | nil => exact ⟨[], rfl, nofun⟩
  | cons id ids ih =>
    obtain ⟨⟨t, rfl, ht⟩, hids⟩ := List.forall_mem_cons.mp h
    obtain ⟨ts, rfl, hts⟩ := ih hids
    exact ⟨t :: ts, rfl, List.forall_mem_cons.mpr ⟨ht, hts⟩⟩

/-- Every node is the root of a tree. -/
theorem Synced.exists_holds (h : a.Synced) (hr : a.Ranks rank) (x : NodeId)
    (hx : x.index < a.size) : ∃ t, t.handle = x ∧ a.Holds (a.parent x) t := by
  induction hn : rank x using Nat.strongRecOn generalizing x with
  | ind n ih =>
    subst hn
    obtain ⟨l, hl⟩ := exists_links hx
    have hbelow : ∀ c ∈ a.children x, ∃ t : Tree, t.handle = c ∧ a.Holds (some x) t := by
      intro c hc
      rw [← h.mem_children.mp hc]
      exact ih (rank c) (hr x c hc) c (h.lt_size hc).2 rfl
    obtain ⟨ts, hts, hholds⟩ := exists_trees (a.children x) hbelow
    refine ⟨.node x l.kind ts, rfl, holds_node.mpr ⟨?_, holdsAll_iff.mpr hholds⟩⟩
    rw [hl, hts, parent_of_links hl, children_of_links hl]

theorem Synced.nodup_idsOf (h : a.Synced) (hr : a.Ranks rank) {ts : List Tree}
    (hts : a.HoldsAll q ts) (hroots : (ts.map Tree.handle).Nodup)
    (hids : ∀ t ∈ ts, t.ids.Nodup) : (idsOf ts).Nodup := by
  induction ts with
  | nil => simp
  | cons t ts ih =>
    obtain ⟨ht, hts⟩ := holdsAll_cons.mp hts
    obtain ⟨hnot, hroots⟩ := List.nodup_cons.mp hroots
    obtain ⟨hfirst, hids⟩ := List.forall_mem_cons.mp hids
    rw [Tree.idsOf_cons]
    refine List.nodup_append.mpr ⟨hfirst, ih hts hroots hids, ?_⟩
    rintro i hi j hj rfl
    obtain ⟨u, hu, hi'⟩ := Tree.mem_idsOf.mp hj
    have hu' := holdsAll_iff.mp hts u hu
    have heq : t.handle = u.handle := by
      rcases h.reaches_or_reaches (ht.reaches_iff.mpr hi) (hu'.reaches_iff.mpr hi') with hw | hw
      · exact h.eq_of_reaches hr ht.parent_eq hu'.parent_eq hw
      · exact (h.eq_of_reaches hr hu'.parent_eq ht.parent_eq hw).symm
    exact hnot (heq ▸ List.mem_map_of_mem hu)

theorem Synced.nodup_ids (h : a.Synced) (hr : a.Ranks rank) {t : Tree} (ht : a.Holds q t) :
    t.ids.Nodup := by
  induction t generalizing q with
  | node i k cs ih =>
    have hcs := (holds_node.mp ht).2
    have hchildren : a.children i = cs.map Tree.handle := ht.children
    rw [Tree.ids_node]
    refine List.nodup_append.mpr ⟨h.nodup_idsOf hr hcs (hchildren ▸ h.nodup_children i)
      fun c hc => ih c hc (holdsAll_iff.mp hcs c hc), List.nodup_singleton i, ?_⟩
    rintro j hj j' hj' rfl
    obtain rfl := List.mem_singleton.mp hj'
    obtain ⟨c, hc, hjc⟩ := Tree.mem_idsOf.mp hj
    have hle := hr.le ((holdsAll_iff.mp hcs c hc).reaches_iff.mpr hjc)
    have hlt := hr j c.handle (hchildren ▸ List.mem_map_of_mem hc)
    omega

theorem exists_rank_bound (rank : NodeId → Nat) (size : Nat) :
    ∃ n, ∀ x : NodeId, x.index < size → rank x < n := by
  induction size with
  | zero => exact ⟨0, nofun⟩
  | succ size ih =>
    obtain ⟨n, hn⟩ := ih
    refine ⟨max n (rank ⟨size⟩ + 1), fun x hx => ?_⟩
    rcases Nat.lt_succ_iff_lt_or_eq.mp hx with hlt | rfl
    · exact Nat.lt_of_lt_of_le (hn x hlt) (Nat.le_max_left ..)
    · exact Nat.lt_of_lt_of_le (Nat.lt_succ_self _) (Nat.le_max_right ..)

theorem Synced.exists_root (h : a.Synced) (hr : a.Ranks rank) (x : NodeId)
    (hx : x.index < a.size) :
    ∃ root : NodeId, root.index < a.size ∧ a.parent root = none ∧ a.Reaches root x := by
  obtain ⟨n, hbound⟩ := exists_rank_bound rank a.size
  -- up from `x` the rank comes closer to the bound
  induction hm : n - rank x using Nat.strongRecOn generalizing x with
  | ind m ih =>
    subst hm
    cases hp : a.parent x with
    | none => exact ⟨x, hx, hp, .root⟩
    | some p =>
      have hc := h.mem_children.mpr hp
      have hlt := hr p x hc
      have hsize := (h.lt_size hc).1
      have hx' := hbound x hx
      obtain ⟨root, hroot, hnone, hreach⟩ := ih (n - rank p) (by omega) p hsize rfl
      exact ⟨root, hroot, hnone, .child hreach hc⟩

theorem Synced.exists_forest (h : a.Synced) (hr : a.Ranks rank) :
    ∃ ts, a.Forest ts ∧ ∀ id : NodeId, id.index < a.size ↔ id ∈ idsOf ts := by
  let roots := ((List.range a.size).map NodeId.mk).filter fun id => a.parent id = none
  have hmem : ∀ {id}, id ∈ roots ↔ id.index < a.size ∧ a.parent id = none := by
    intro id
    simp only [roots, List.mem_filter, List.mem_map, List.mem_range, decide_eq_true_eq]
    refine and_congr_left fun _ => ⟨?_, fun hi => ⟨id.index, hi, rfl⟩⟩
    rintro ⟨i, hi, rfl⟩
    exact hi
  obtain ⟨ts, hts, hholds⟩ := exists_trees (P := a.Holds none) roots fun id hid => by
    obtain ⟨hi, hp⟩ := hmem.mp hid
    exact hp ▸ h.exists_holds hr id hi
  have hnodup : (ts.map Tree.handle).Nodup := by
    rw [hts]
    refine (List.nodup_range.map ?_).filter _
    rintro i j hij
    exact congrArg NodeId.index hij
  have hall : a.HoldsAll none ts := holdsAll_iff.mpr hholds
  refine ⟨ts, ⟨hall, h.nodup_idsOf hr hall hnodup fun t ht => h.nodup_ids hr (hholds t ht)⟩,
    fun id => ⟨fun hid => ?_, fun hid => hall.lt_size id hid⟩⟩
  obtain ⟨root, hroot, hnone, hreach⟩ := h.exists_root hr id hid
  obtain ⟨t, ht, rfl⟩ := List.mem_map.mp (hts ▸ hmem.mpr ⟨hroot, hnone⟩)
  exact Tree.mem_idsOf.mpr ⟨t, ht, (hholds t ht).reaches_iff.mp hreach⟩

-- ---------------------------------------------------------------------------
-- Runs of operations
-- ---------------------------------------------------------------------------

/-- After every operation of a run that fails nowhere, a node has a parent if and only if it is
among the children of that, where it is once. The operation leaves all nodes alone but those it
is given, their parents and the children it takes. If no operation of the run has put a node
below itself, the arena is a forest, and the check of its links comes to its end and finds
nothing wherever it starts. -/
theorem links_of_run (edits : List Edit) (e : Edit) {a b : Arena}
    (hrun : edits.foldlM Edit.apply .empty = .ok a) (hlast : e.apply a = .ok b) :
    (∀ p c, (b.parent c = some p ↔ c ∈ b.children p) ∧
      (c ∈ b.children p → (b.children p).count c = 1)) ∧
    (∀ id : NodeId, id.index < a.size → e.Spares a id →
      b.parent id = a.parent id ∧ b.children id = a.children id) ∧
    (Edit.Apart .empty (edits ++ [e]) →
      (∃ ts, b.Forest ts ∧ ∀ id : NodeId, id.index < b.size ↔ id ∈ idsOf ts) ∧
      ∀ root : NodeId, root.index < b.size →
        (∃ n, b.Checks [root] n none) ∧ b.badLink? root = none) := by
  have ha : a.Synced := Edit.synced_of_run synced_empty hrun
  have hmoves := Edit.moves_of_apply ha hlast
  have hb : b.Synced := hmoves.synced ha
  refine ⟨fun p c => ⟨hb.mem_children.symm, fun hc => ?_⟩,
    fun id hid hspares => hmoves.frame (hspares.not_moved hid), fun hapart => ?_⟩
  · rw [hb p c, if_pos (hb.mem_children.mp hc)]
  · have hall : (edits ++ [e]).foldlM Edit.apply .empty = .ok b := by
      rw [List.foldlM_append, hrun]
      simp [bind, Except.bind, hlast, pure, Except.pure]
    have hranks : ∃ rank, Arena.empty.Ranks rank := by
      refine ⟨fun _ => 0, fun p c hc => ?_⟩
      simp [children, get, empty, default, instInhabitedNode.default] at hc
    obtain ⟨rank, hr⟩ := Edit.exists_ranks_of_run synced_empty hranks hall hapart
    refine ⟨hb.exists_forest hr, fun root hroot => ?_⟩
    obtain ⟨t, rfl, ht⟩ := hb.exists_holds hr root hroot
    exact ht.checks (hb.nodup_ids hr ht)

theorem not_reaches_of_leaf {p c : NodeId} (hleaf : a.children c = []) (hne : p ≠ c) :
    ¬ a.Reaches c p := by
  have honly : ∀ x, a.Reaches c x → x = c := by
    intro x hx
    induction hx with
    | root => rfl
    | child _ hc ih => simp [ih, hleaf] at hc
  exact fun h => hne (honly p h)

/-- A leaf is taken off its parent, put back and then replaced by another one. -/
theorem links_replaced_leaf :
    ∃ edits a b,
      edits = [.add .block .null ⟨0⟩, .add .literal .null ⟨0⟩, .add .literal .null ⟨0⟩,
        .pushChild ⟨0⟩ ⟨1⟩, .detach ⟨1⟩, .reattach ⟨⟨0⟩, 0⟩ ⟨1⟩] ∧
      edits.foldlM Edit.apply .empty = .ok a ∧ (Edit.replaceNode ⟨1⟩ ⟨2⟩).apply a = .ok b ∧
      (b.parent ⟨2⟩ = some ⟨0⟩ ↔ ⟨2⟩ ∈ b.children ⟨0⟩) ∧ b.children ⟨0⟩ = [⟨2⟩] ∧
      (∃ ts, b.Forest ts ∧ ∀ id : NodeId, id.index < b.size ↔ id ∈ idsOf ts) ∧
      b.badLink? ⟨0⟩ = none := by
  have hleaf : ∀ {a : Arena} {e : Edit},
      (∀ m ∈ e.moves a, a.children m.child = [] ∧ m.parent ≠ m.child) →
      ∀ p c, Move.attach p c ∈ e.moves a → ¬ a.Reaches c p :=
    fun h p c hm => not_reaches_of_leaf (h _ hm).1 (h _ hm).2
  refine ⟨_, _, _, rfl, rfl, rfl, ?_⟩
  obtain ⟨hsync, -, hforest⟩ := links_of_run [.add .block .null ⟨0⟩, .add .literal .null ⟨0⟩,
    .add .literal .null ⟨0⟩, .pushChild ⟨0⟩ ⟨1⟩, .detach ⟨1⟩, .reattach ⟨⟨0⟩, 0⟩ ⟨1⟩]
    (.replaceNode ⟨1⟩ ⟨2⟩) rfl rfl
  have hapart := hforest (.cons rfl nofun (.cons rfl nofun (.cons rfl nofun
    (.cons rfl (hleaf (by decide)) (.cons rfl (hleaf (by decide)) (.cons rfl (hleaf (by decide))
    (.cons rfl (hleaf (by decide)) trivial)))))))
  exact ⟨(hsync _ _).1, rfl, hapart.1, (hapart.2 ⟨0⟩ (by decide)).2⟩

end Arena
end BlockLang
