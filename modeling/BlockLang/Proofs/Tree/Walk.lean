import BlockLang.Proofs.Tree.Order

/-!
# Walking a tree that is changed on the way

A visitor that works at and below the node it is at, or puts another node in its place, leaves
the rest of the tree alone (`Works.leaves`). So the nodes that a walk from below has yet to visit
are still where they were (`Kept.visit`), and the walk visits the nodes that the tree had at the
beginning in their order (`Synced.walks`).
-/

namespace BlockLang

open BlockLang.Tree (idsOf)

namespace Move

variable {a b : Arena} {m : Move} {x : NodeId}

theorem Does.synced (h : m.Does a b) (hs : a.Synced) : b.Synced := (Moves.one h).synced hs

theorem Does.parent_of_ne (h : m.Does a b) (hx : x ≠ m.child) : b.parent x = a.parent x := by
  cases m <;> exact (h.parent x).trans (if_neg hx)

theorem Does.children_of_ne (h : m.Does a b) (hx : x ≠ m.parent) : b.children x = a.children x := by
  cases m <;> exact h.others x hx

theorem Does.parent_child (h : m.Does a b) :
    b.parent m.child = some m.parent ∨ b.parent m.child = none := by
  cases m with
  | attach p c => exact .inl ((h.parent c).trans (if_pos rfl))
  | detach p c => exact .inr ((h.parent c).trans (if_pos rfl))

end Move

namespace Arena

variable {a b c : Arena} {n x y root : NodeId}

-- ---------------------------------------------------------------------------
-- Working at a node
-- ---------------------------------------------------------------------------

/-- Two nodes are in one tree. -/
def Together (a : Arena) (x y : NodeId) : Prop := ∃ top, a.Reaches top x ∧ a.Reaches top y

/-- `x` is in the tree of `n`, but is not `n` and not below it. -/
def Outside (a : Arena) (n x : NodeId) : Prop := a.Together n x ∧ ¬ a.Reaches n x

/-- What becomes of `a` while a visitor is at the node `n`. One thing after the other, it may
annotate nodes, do edits in which no node outside has a part (so it may add nodes and change what
is below `n`), and put another node that is not outside in the place of `n`. -/
inductive Works (a : Arena) (n : NodeId) : Arena → Prop
  | start : Works a n a
  | annotate {b : Arena} (before : Works a n b) (id : NodeId) (f : Facts → Facts) :
    Works a n (b.annotate id f)
  | edit {b c : Arena} (before : Works a n b) (e : Edit)
    (inside : ∀ m ∈ e.moves b, ¬ a.Outside n m.parent ∧ ¬ a.Outside n m.child)
    (done : e.apply b = .ok c) : Works a n c
  | replace {b c : Arena} (before : Works a n b) (new : NodeId) (inside : ¬ a.Outside n new)
    (done : b.replaceNode n new = .ok c) : Works a n c

/-- The nodes outside keep their parents, and their children but for the place of `n`. -/
structure Leaves (a : Arena) (n : NodeId) (b : Arena) : Prop where
  synced : b.Synced
  parent : ∀ x, a.Outside n x → b.parent x = a.parent x
  children : ∀ x, a.Outside n x → a.parent n ≠ some x → b.children x = a.children x
  /-- No other node outside gets `n`. -/
  place : ∀ x, a.Outside n x → b.parent n = some x → a.parent n = some x

theorem sameLinks_annotate (id : NodeId) (f : Facts → Facts) : a.SameLinks (a.annotate id f) := by
  intro other
  simp only [annotate, parent, children, get_modify]
  split <;> exact ⟨rfl, rfl⟩

theorem not_outside_self : ¬ a.Outside n n := fun h => h.2 .root

theorem Leaves.of_sameLinks (h : a.Leaves n b) (hs : b.SameLinks c) : a.Leaves n c where
  synced := h.synced.congr hs
  parent x hx := (hs x).1.trans (h.parent x hx)
  children x hx hne := (hs x).2.trans (h.children x hx hne)
  place x hx hp := h.place x hx ((hs n).1.symm.trans hp)

/-- One move, of a node that is not outside. -/
theorem Leaves.move {m : Move} (h : a.Leaves n b) (hm : m.Does b c)
    (hchild : ¬ a.Outside n m.child)
    (hparent : a.Outside n m.parent → a.parent n = some m.parent) : a.Leaves n c where
  synced := hm.synced h.synced
  parent x hx := by
    have hne : x ≠ m.child := by
      rintro rfl
      exact hchild hx
    rw [hm.parent_of_ne hne, h.parent x hx]
  children x hx hp := by
    have hne : x ≠ m.parent := by
      rintro rfl
      exact hp (hparent hx)
    rw [hm.children_of_ne hne, h.children x hx hp]
  place x hx hp := by
    by_cases hn : n = m.child
    · rw [hn] at hp
      obtain hm | hm := hm.parent_child
      · obtain rfl : m.parent = x := Option.some.inj (hm.symm.trans hp)
        exact hparent hx
      · cases hm.symm.trans hp
    · exact h.place x hx ((hm.parent_of_ne hn).symm.trans hp)

theorem Leaves.moves {ms : List Move} (h : a.Leaves n b) (hms : Moves b ms c)
    (hinside : ∀ m ∈ ms, ¬ a.Outside n m.child ∧
      (a.Outside n m.parent → a.parent n = some m.parent)) : a.Leaves n c := by
  induction hms with
  | nil same => exact h.of_sameLinks same
  | cons move rest ih =>
    obtain ⟨⟨hchild, hparent⟩, hrest⟩ := List.forall_mem_cons.mp hinside
    exact ih (h.move move hchild hparent) hrest

theorem Leaves.replaceNode {new : NodeId} (h : a.Leaves n b) (hnew : ¬ a.Outside n new)
    (hdone : b.replaceNode n new = .ok c) : a.Leaves n c := by
  have hmoves := moves_replaceNode h.synced hdone
  cases hp : b.parent n with
  | none =>
    simp only [Edit.moves, hp] at hmoves
    exact h.moves hmoves (List.forall_mem_nil _)
  | some p =>
    simp only [Edit.moves, hp] at hmoves
    have hplace : a.Outside n p → a.parent n = some p := fun hout => h.place p hout hp
    refine h.moves hmoves (List.forall_mem_cons.mpr ⟨⟨not_outside_self, hplace⟩, ?_⟩)
    exact List.forall_mem_singleton.mpr ⟨hnew, hplace⟩

theorem Works.leaves (h : a.Works n b) (hs : a.Synced) : a.Leaves n b := by
  induction h with
  | start => exact ⟨hs, fun _ _ => rfl, fun _ _ _ => rfl, fun _ _ hp => hp⟩
  | annotate _ id f ih => exact ih.of_sameLinks (sameLinks_annotate id f)
  | edit _ e hinside hdone ih =>
    refine ih.moves (Edit.moves_of_apply ih.synced hdone) fun m hm => ?_
    obtain ⟨hparent, hchild⟩ := hinside m hm
    exact ⟨hchild, fun hout => absurd hout hparent⟩
  | replace _ new hnew hdone ih => exact ih.replaceNode hnew hdone

/-- A node that is new is not outside. -/
theorem Synced.not_outside_of_not_lt (h : a.Synced) (hx : ¬ x.index < a.size) :
    ¬ a.Outside n x := by
  rintro ⟨⟨top, hn, hreach⟩, hnot⟩
  obtain rfl : top = x := by
    cases hreach with
    | root => rfl
    | child _ hc => exact absurd (h.lt_size hc).2 hx
  have honly : ∀ {y}, a.Reaches top y → y = top := by
    intro y hy
    induction hy with
    | root => rfl
    | child _ hc ih =>
      subst ih
      exact absurd (h.lt_size hc).1 hx
  exact hnot (honly hn ▸ .root)

-- ---------------------------------------------------------------------------
-- What is still to be visited
-- ---------------------------------------------------------------------------

theorem Synced.together_trans (h : a.Synced) (hx : a.Together root x) (hy : a.Together root y) :
    a.Together x y := by
  obtain ⟨top, hroot, hx⟩ := hx
  obtain ⟨top', hroot', hy⟩ := hy
  obtain hle | hle := h.reaches_or_reaches hroot hroot'
  · exact ⟨top, hx, hle.trans hy⟩
  · exact ⟨top', hle.trans hx, hy⟩

theorem Together.of_reaches (hx : a.Together root x) (hy : a.Reaches x y) : a.Together root y := by
  obtain ⟨top, hroot, hx⟩ := hx
  exact ⟨top, hroot, hx.trans hy⟩

theorem Synced.together_parent (h : a.Synced) (hy : a.Together root y)
    (hx : a.parent y = some x) : a.Together root x := by
  have hc : y ∈ a.children x := h.mem_children.mpr hx
  obtain ⟨top, hroot, hy⟩ := hy
  cases hy with
  | root => exact ⟨x, (Reaches.child .root hc).trans hroot, .root⟩
  | @child up _ hup hc' =>
    obtain rfl : up = x := Option.some.inj ((h.mem_children.mp hc').symm.trans hx)
    exact ⟨top, hroot, hup⟩

/-- With a node all nodes below it have been visited. -/
def Below (a : Arena) (visited : List NodeId) : Prop :=
  ∀ x ∈ visited, ∀ y, a.Reaches x y → y ∈ visited

/-- In the tree of `root` the nodes that are not visited have kept their parents, and their
children unless one of these has been visited. -/
structure Kept (a : Arena) (root : NodeId) (visited : List NodeId) (b : Arena) : Prop where
  synced : b.Synced
  below : a.Below visited
  parent : ∀ x, a.Together root x → x ∉ visited → b.parent x = a.parent x
  children : ∀ x, a.Together root x → x ∉ visited → (∀ c ∈ a.children x, c ∉ visited) →
    b.children x = a.children x

namespace Kept

variable {visited : List NodeId}

theorem start (h : a.Synced) : a.Kept root [] a :=
  ⟨h, nofun, fun _ _ _ => rfl, fun _ _ _ _ => rfl⟩

/-- Nodes that are not visited are reached as before. -/
theorem reaches (h : a.Kept root visited b) (ha : a.Synced) (htop : a.Together root x)
    (hreach : a.Reaches x y) (hy : y ∉ visited) : b.Reaches x y := by
  induction hreach with
  | root => exact .root
  | @child up down hup hc ih =>
    have hup' : up ∉ visited := fun hmem => hy (h.below up hmem down (.child .root hc))
    have hdown := h.parent down (htop.of_reaches (hup.child hc)) hy
    exact (ih hup').child (h.synced.mem_children.mpr (hdown.trans (ha.mem_children.mp hc)))

theorem of_reaches (h : a.Kept root visited b) (ha : a.Synced) (hreach : b.Reaches x y)
    (htop : a.Together root y) (hy : y ∉ visited) : a.Reaches x y := by
  induction hreach with
  | root => exact .root
  | @child up down hup hc ih =>
    have hparent : a.parent down = some up :=
      (h.parent down htop hy).symm.trans (h.synced.mem_children.mp hc)
    have hc' : down ∈ a.children up := ha.mem_children.mpr hparent
    have hup' : up ∉ visited := fun hmem => hy (h.below up hmem down (.child .root hc'))
    exact (ih (ha.together_parent htop hparent) hup').child hc'

/-- A node whose turn it is, and what is outside of it. -/
theorem outside (h : a.Kept root visited b) (ha : a.Synced) (hn : a.Together root n)
    (hnew : n ∉ visited) (hturn : ∀ x, a.Reaches n x → x = n ∨ x ∈ visited)
    (hx : a.Together root x) (hleft : x ∉ visited) (hne : x ≠ n) : b.Outside n x := by
  obtain ⟨top, htopn, htopx⟩ := ha.together_trans hn hx
  have htop : a.Together root top := by
    obtain ⟨top', hroot, hn'⟩ := hn
    obtain hle | hle := ha.reaches_or_reaches hn' htopn
    · exact ⟨top', hroot, hle⟩
    · exact ⟨top, hle.trans hroot, .root⟩
  refine ⟨⟨top, h.reaches ha htop htopn hnew, h.reaches ha htop htopx hleft⟩, fun hreach => ?_⟩
  obtain rfl | hmem := hturn x (h.of_reaches ha hreach hx hleft)
  · exact hne rfl
  · exact hleft hmem

/-- What a visitor that works at the next node keeps. -/
theorem visit (h : a.Kept root visited b) (ha : a.Synced) (hn : a.Together root n)
    (hnew : n ∉ visited) (hturn : ∀ x, a.Reaches n x → x = n ∨ x ∈ visited)
    (hworks : b.Works n c) : a.Kept root (visited ++ [n]) c := by
  have hleaves := hworks.leaves h.synced
  have hleft : ∀ {x}, x ∉ visited ++ [n] → x ∉ visited ∧ x ≠ n := fun hx => by
    simpa using hx
  refine ⟨hleaves.synced, fun x hx y hy => ?_, fun x hx hnot => ?_, fun x hx hnot hcs => ?_⟩
  · rw [List.mem_append, List.mem_singleton] at hx ⊢
    obtain hx | rfl := hx
    · exact .inl (h.below x hx y hy)
    · exact (hturn y hy).symm
  · obtain ⟨hnot, hne⟩ := hleft hnot
    rw [hleaves.parent x (h.outside ha hn hnew hturn hx hnot hne), h.parent x hx hnot]
  · obtain ⟨hnot, hne⟩ := hleft hnot
    have hparent : b.parent n ≠ some x := fun hp => by
      have hmem : n ∈ a.children x := ha.mem_children.mpr ((h.parent n hn hnew).symm.trans hp)
      exact (hleft (hcs n hmem)).2 rfl
    rw [hleaves.children x (h.outside ha hn hnew hturn hx hnot hne) hparent]
    exact h.children x hx hnot fun d hd => (hleft (hcs d hd)).1

end Kept

end Arena

-- ---------------------------------------------------------------------------
-- The walk from below
-- ---------------------------------------------------------------------------

namespace Walk

variable {σ ε α β : Type} {tree : σ → Arena} {visit : NodeId → ExceptT ε (StateM σ) Unit}

/-- What comes of a walk that begins with `s`, and what it makes of that. -/
def start (walk : ExceptT ε (StateM σ) α) (s : σ) : Except ε α × σ :=
  StateT.run (ExceptT.run walk) s

/-- Reads the children of a node in the arena that is part of the state. -/
def childrenIn (tree : σ → Arena) (id : NodeId) : ExceptT ε (StateM σ) (List NodeId) :=
  return (tree (← get)).children id

theorem start_bind (walk : ExceptT ε (StateM σ) α) (f : α → ExceptT ε (StateM σ) β) (s : σ) :
    start (walk >>= f) s =
      match start walk s with
      | (.ok a, s') => start (f a) s'
      | (.error e, s') => (.error e, s') := by
  simp only [start, ExceptT.run_bind, StateT.run_bind]
  rcases StateT.run (ExceptT.run walk) s with ⟨_ | _, _⟩ <;> rfl

theorem start_childrenIn_bind (id : NodeId) (f : List NodeId → ExceptT ε (StateM σ) β) (s : σ) :
    start (childrenIn tree id >>= f) s = start (f ((tree s).children id)) s := by
  rw [start_bind]
  rfl

/-- From `s` a walk visits `ids` in turn and nothing else, and `P` holds if no visit fails. -/
structure Visits (visit : NodeId → ExceptT ε (StateM σ) Unit) (walk : ExceptT ε (StateM σ) Unit)
    (ids : List NodeId) (s : σ) (P : σ → Prop) : Prop where
  same : start walk s = start (ids.forM visit) s
  after : ∀ s', start (ids.forM visit) s = (.ok (), s') → P s'

namespace Visits

variable {first second : ExceptT ε (StateM σ) Unit} {ids ids' : List NodeId} {s : σ}
  {P Q : σ → Prop}

theorem nil (h : P s) : Visits visit (pure ()) [] s P :=
  ⟨rfl, fun _ hs => (Prod.mk.inj hs).2 ▸ h⟩

theorem one {n : NodeId} (h : ∀ s', start (visit n) s = (.ok (), s') → P s') :
    Visits visit (visit n) [n] s P := by
  have hrun : [n].forM visit = visit n := by simp
  exact ⟨by rw [hrun], by rwa [hrun]⟩

theorem congr (h : Visits visit first ids s P) (hsame : start second s = start first s) :
    Visits visit second ids s P :=
  ⟨hsame.trans h.same, h.after⟩

theorem append (h : Visits visit first ids s P)
    (hrest : ∀ s', P s' → Visits visit second ids' s' Q) :
    Visits visit (do first; second) (ids ++ ids') s Q := by
  have hrun : start ((ids ++ ids').forM visit) s =
      start (do ids.forM visit; ids'.forM visit) s := by
    simp
  have hsame := h.same
  have hafter := h.after
  constructor
  · rw [hrun, start_bind, start_bind, hsame]
    rcases hr : start (ids.forM visit) s with ⟨_ | _, s'⟩
    · rfl
    · exact (hrest s' (hafter s' hr)).same
  · intro s'' hs
    rw [hrun, start_bind] at hs
    rcases hr : start (ids.forM visit) s with ⟨_ | _, s'⟩ <;> rw [hr] at hs
    · cases hs
    · exact (hrest s' (hafter s' hr)).after s'' hs

end Visits

section
variable {a : Arena} {q : Option NodeId} {t : Tree} {root : NodeId} {visited : List NodeId} {s : σ}

/-- Trees beside each other are walked one after the other. -/
theorem visits_forM (walk : NodeId → ExceptT ε (StateM σ) Unit) (ts : List Tree)
    (hn : (idsOf ts).Nodup) (hk : a.Kept root visited (tree s))
    (hnew : ∀ x ∈ idsOf ts, x ∉ visited)
    (hwalk : ∀ t ∈ ts, ∀ {visited s}, a.Kept root visited (tree s) →
      (∀ x ∈ t.ids, x ∉ visited) → Visits visit (walk t.handle) t.ids s
        fun s' => a.Kept root (visited ++ t.ids) (tree s')) :
    Visits visit ((ts.map Tree.handle).forM walk) (idsOf ts) s
      fun s' => a.Kept root (visited ++ idsOf ts) (tree s') := by
  induction ts generalizing visited s with
  | nil => exact .nil (by simpa using hk)
  | cons t ts ih =>
    obtain ⟨hfirst, hwalk⟩ := List.forall_mem_cons.mp hwalk
    rw [Tree.idsOf_cons] at hn hnew ⊢
    obtain ⟨-, hrest, hapart⟩ := List.nodup_append.mp hn
    rw [List.map_cons, ← List.append_assoc]
    refine (hfirst hk fun x hx => hnew x (List.mem_append_left _ hx)).append fun s' hk' => ?_
    refine ih hrest hk' (fun x hx hmem => ?_) hwalk
    obtain hmem | hmem := List.mem_append.mp hmem
    · exact hnew x (List.mem_append_right _ hx) hmem
    · exact hapart x hmem x hx rfl

/-- A tree none of whose nodes has been visited is walked in the order that it had. -/
theorem visits_bottomUp (ha : a.Synced) (hvisit : ∀ n, a.Reaches root n → ∀ s s', (tree s).Synced →
      start (visit n) s = (.ok (), s') → (tree s).Works n (tree s'))
    {depth : Nat} (ht : a.Holds q t) (hn : t.ids.Nodup) (hd : t.height ≤ depth)
    (hroot : a.Reaches root t.handle) (hk : a.Kept root visited (tree s))
    (hnew : ∀ x ∈ t.ids, x ∉ visited) :
    Visits visit (bottomUp (childrenIn tree) visit depth t.handle) t.ids s
      fun s' => a.Kept root (visited ++ t.ids) (tree s') := by
  induction depth generalizing t q visited s with
  | zero =>
    cases t
    simp at hd
  | succ depth ih =>
    have hreach : ∀ x, a.Reaches t.handle x ↔ x ∈ t.ids := fun x => ht.reaches_iff
    have hcs := Arena.holdsAll_iff.mp ht.below
    have hchildren := ht.children
    have hnodup : ∀ c ∈ t.children, c.ids.Nodup := fun c hc => Tree.nodup_ids_of_mem hn hc
    obtain ⟨i, k, cs⟩ := t
    have htogether : a.Together root i := ⟨root, .root, hroot⟩
    simp only [Tree.handle_node, Tree.children_node, Tree.ids_node, List.mem_append,
      List.mem_singleton] at hreach hn hnew hroot hcs hchildren hnodup ⊢
    obtain ⟨hbelow, -, hapart⟩ := List.nodup_append.mp hn
    have hchild : ∀ c ∈ cs, a.Reaches root c.handle := fun c hc =>
      hroot.child (hchildren ▸ List.mem_map_of_mem hc)
    -- No child has been visited, so the children are still those of the beginning.
    have hsnapshot : (tree s).children i = cs.map Tree.handle := by
      refine (hk.children i htogether (hnew i (.inr rfl)) fun c hc => ?_).trans hchildren
      exact hnew c ((hreach c).mp (.child .root hc))
    have hwalk := visits_forM (bottomUp (childrenIn tree) visit depth) cs hbelow hk
      (fun x hx => hnew x (.inl hx)) fun c hc _ _ hk' hnew' =>
        ih (hcs c hc) (hnodup c hc) (Tree.height_le_of_mem hd hc) (hchild c hc) hk' hnew'
    have hlast : ∀ s', a.Kept root (visited ++ idsOf cs) (tree s') →
        Visits visit (visit i) [i] s' fun s' =>
          a.Kept root (visited ++ idsOf cs ++ [i]) (tree s') := by
      refine fun s' hk' => .one fun s'' hs => ?_
      refine hk'.visit ha htogether (fun hmem => ?_) (fun x hx => ?_)
        (hvisit i hroot s' s'' hk'.synced hs)
      · obtain hmem | hmem := List.mem_append.mp hmem
        · exact hnew i (.inr rfl) hmem
        · exact hapart i hmem i List.mem_cons_self rfl
      · exact ((hreach x).mp hx).symm.imp_right (List.mem_append_right _)
    rw [← List.append_assoc]
    exact (hwalk.append hlast).congr (by rw [bottomUp, start_childrenIn_bind, hsnapshot])

end

end Walk

/-- Collecting every node below a root gives the nodes in the order of `preorder`, and a walk
from below visits those that the tree had at the beginning in the order of `postorder`, whatever
its visitor does at and below the nodes it is at and in their places. Both orders list each node
below the root once. -/
theorem Arena.Synced.walks {σ ε : Type} {tree : σ → Arena}
    {visit : NodeId → ExceptT ε (StateM σ) Unit} {s : σ} {root : NodeId}
    (hsynced : (tree s).Synced) (hacyclic : (tree s).Acyclic) (hroot : root.index < (tree s).size)
    (hvisit : ∀ n, (tree s).Reaches root n → ∀ s₁ s₂, (tree s₁).Synced →
      Walk.start (visit n) s₁ = (.ok (), s₂) → (tree s₁).Works n (tree s₂)) :
    (∀ x : NodeId, x.index < (tree s).size →
      (tree s).preorder x = x :: ((tree s).children x).flatMap (tree s).preorder ∧
      (tree s).postorder x = ((tree s).children x).flatMap (tree s).postorder ++ [x]) ∧
    ((tree s).preorder root).Nodup ∧
    (∀ x, x ∈ (tree s).preorder root ↔ (tree s).Reaches root x) ∧
    (tree s).collect (fun _ => true) root = (tree s).preorder root ∧
    ((tree s).postorder root).Nodup ∧
    (∀ x, x ∈ (tree s).postorder root ↔ (tree s).Reaches root x) ∧
    ∀ depth, (tree s).size ≤ depth →
      Walk.start (Walk.bottomUp (Walk.childrenIn tree) visit depth root) s =
        Walk.start (((tree s).postorder root).forM visit) s := by
  obtain ⟨rank, hr⟩ := hsynced.exists_ranks hacyclic
  obtain ⟨hpre, hmempre⟩ := hsynced.mem_preorder hr hroot
  obtain ⟨hpost, hmempost⟩ := hsynced.mem_postorder hr hroot
  refine ⟨fun x hx => ⟨hsynced.preorder_eq hr hx, hsynced.postorder_eq hr hx⟩, hpre, hmempre, ?_,
    hpost, hmempost, fun depth hdepth => ?_⟩
  · rw [hsynced.collect_eq hr _ hroot]
    exact List.filter_true _
  · obtain ⟨t, rfl, ht⟩ := hsynced.exists_holds hr root hroot
    have hnodup := hsynced.nodup_ids hr ht
    have hheight := ht.height_le hnodup
    have hids : (tree s).postorder t.handle = t.ids := (ht.orders hheight).2
    rw [hids]
    exact (Walk.visits_bottomUp hsynced hvisit ht hnodup (Nat.le_trans hheight hdepth) .root
      (.start hsynced) nofun).same

/-- A sum of two symbols. -/
def sumTree : Arena := ⟨.ofList [
  ⟨.symbol "a", .null, ⟨0⟩, .none, some ⟨2⟩, []⟩,
  ⟨.symbol "b", .null, ⟨0⟩, .none, some ⟨2⟩, []⟩,
  ⟨.binary .add, .null, ⟨0⟩, .none, none, [⟨0⟩, ⟨1⟩]⟩]⟩

/-- Notes a node, and puts a new symbol in its place if it is the symbol `a`. -/
def relabel (id : NodeId) : ExceptT Fault (StateM (Arena × List NodeId)) Unit := do
  let (a, seen) ← get
  match a.kind id with
  | .symbol "a" =>
    let (new, a) := a.add (.symbol "c") .null ⟨0⟩
    match a.replaceNode id new with
    | .ok a => set (a, seen ++ [id])
    | .error fault => throw fault
  | _ => set (a, seen ++ [id])

theorem works_relabel (n : NodeId) (s₁ s₂ : Arena × List NodeId) (hs : s₁.1.Synced)
    (h : Walk.start (relabel n) s₁ = (.ok (), s₂)) : s₁.1.Works n s₂.1 := by
  obtain ⟨a, seen⟩ := s₁
  have hget : Walk.start (get : ExceptT Fault (StateM (Arena × List NodeId)) _) (a, seen) =
      (.ok (a, seen), (a, seen)) := rfl
  rw [relabel, Walk.start_bind, hget] at h
  simp only [] at h
  split at h
  · split at h
    · next a' hreplace =>
      obtain rfl : (a', seen ++ [n]) = s₂ := (Prod.mk.inj h).2
      refine .replace (.edit .start (.add (.symbol "c") .null ⟨0⟩) nofun rfl) ⟨a.size⟩ ?_ hreplace
      exact hs.not_outside_of_not_lt (Nat.lt_irrefl _)
    · cases h
  · obtain rfl : (a, seen ++ [n]) = s₂ := (Prod.mk.inj h).2
    exact .start

theorem synced_sumTree : sumTree.Synced := by
  have hrun : [Edit.add (.symbol "a") .null ⟨0⟩, .add (.symbol "b") .null ⟨0⟩,
      .addWith (.binary .add) .null ⟨0⟩ [⟨0⟩, ⟨1⟩]].foldlM Edit.apply .empty = .ok sumTree := rfl
  exact Edit.synced_of_run Arena.synced_empty hrun

theorem acyclic_sumTree : sumTree.Acyclic := by
  have hbelow : ∀ i < 3, ∀ c ∈ sumTree.children ⟨i⟩, c.index < i := by decide
  have hranks : sumTree.Ranks NodeId.index := fun p c hc =>
    hbelow p.index (synced_sumTree.lt_size hc).1 c hc
  exact hranks.acyclic

/-- The symbol is replaced on the way, and the walk still visits the three nodes. -/
theorem walks_sumTree :
    (sumTree.Synced ∧ sumTree.Acyclic ∧ (⟨2⟩ : NodeId).index < sumTree.size ∧
      ∀ n, sumTree.Reaches ⟨2⟩ n → ∀ s₁ s₂ : Arena × List NodeId, s₁.1.Synced →
        Walk.start (relabel n) s₁ = (.ok (), s₂) → s₁.1.Works n s₂.1) ∧
    sumTree.collect (fun _ => true) ⟨2⟩ = [⟨2⟩, ⟨0⟩, ⟨1⟩] ∧
    (Walk.start (Walk.bottomUp (Walk.childrenIn Prod.fst) relabel 3 ⟨2⟩) (sumTree, [])).2.2 =
      [⟨0⟩, ⟨1⟩, ⟨2⟩] := by
  have hvisit : ∀ n, sumTree.Reaches ⟨2⟩ n → ∀ s₁ s₂ : Arena × List NodeId, s₁.1.Synced →
      Walk.start (relabel n) s₁ = (.ok (), s₂) → s₁.1.Works n s₂.1 := fun n _ => works_relabel n
  obtain ⟨-, -, -, hcollect, -, -, hwalk⟩ :=
    @Arena.Synced.walks _ _ Prod.fst relabel (sumTree, []) ⟨2⟩ synced_sumTree acyclic_sumTree
      (by decide) hvisit
  refine ⟨⟨synced_sumTree, acyclic_sumTree, by decide, hvisit⟩, hcollect.trans (by decide), ?_⟩
  rw [hwalk 3 (by decide)]
  decide

end BlockLang
