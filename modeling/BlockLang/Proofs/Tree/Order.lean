import BlockLang.Tree.Walk
import BlockLang.Proofs.Tree.Rooted
import Mathlib.Data.Finset.Range
import Mathlib.Data.Finset.Card

/-!
# The nodes of a tree in order

In a synced arena without cycles the nodes below a root have two orders, each node before or
after those below it. Both list what can be reached from the root, each node once, and
collecting from a stack follows the first (`Synced.collect_eq`).
-/

namespace BlockLang

open BlockLang.Tree (idsOf)

theorem Tree.height_le_of_mem {t c : Tree} (hd : t.height ≤ depth + 1) (hc : c ∈ t.children) :
    c.height ≤ depth := by
  cases t with
  | node i k cs =>
    have hc : c ∈ cs := hc
    have := height_le_heightOf hc
    rw [height_node] at hd
    omega

namespace Arena

def postorderWithin (a : Arena) : Nat → NodeId → List NodeId
  | 0, _ => []
  | depth + 1, id => (a.children id).flatMap (postorderWithin a depth) ++ [id]

/-- The nodes below `root`, itself included, each after its children. -/
def postorder (a : Arena) (root : NodeId) : List NodeId := a.postorderWithin a.size root

variable {a : Arena} {q : Option NodeId} {t : Tree} {x : NodeId}

-- ---------------------------------------------------------------------------
-- Arenas without cycles
-- ---------------------------------------------------------------------------

/-- No node is below one of its children. -/
def Acyclic (a : Arena) : Prop := ∀ p c, c ∈ a.children p → ¬ a.Reaches c p

theorem Ranks.acyclic (h : a.Ranks rank) : a.Acyclic := fun p c hc hreach =>
  Nat.not_lt_of_le (h.le hreach) (h p c hc)

/-- A node can be ranked by how many nodes it reaches. -/
theorem Synced.exists_ranks (h : a.Synced) (hacyclic : a.Acyclic) : ∃ rank, a.Ranks rank := by
  classical
  refine ⟨fun x => ((Finset.range a.size).filter fun i => a.Reaches x ⟨i⟩).card,
    fun p c hc => Finset.card_lt_card ?_⟩
  refine Finset.ssubset_iff_of_subset (fun i hi => ?_) |>.mpr ⟨p.index, ?_, ?_⟩
  · obtain ⟨hi, hreach⟩ := Finset.mem_filter.mp hi
    exact Finset.mem_filter.mpr ⟨hi, (Reaches.child .root hc).trans hreach⟩
  · exact Finset.mem_filter.mpr ⟨Finset.mem_range.mpr (h.lt_size hc).1, .root⟩
  · exact fun hi => hacyclic p c hc (Finset.mem_filter.mp hi).2

-- ---------------------------------------------------------------------------
-- Both orders
-- ---------------------------------------------------------------------------

/-- Both orders of a tree that is spelled out, deep enough. -/
theorem Holds.orders (h : a.Holds q t) {depth : Nat} (hd : t.height ≤ depth) :
    (a.preorderWithin depth t.handle).Perm t.ids ∧ a.postorderWithin depth t.handle = t.ids := by
  induction depth generalizing t q with
  | zero =>
    cases t
    simp at hd
  | succ depth ih =>
    obtain ⟨i, k, cs⟩ := t
    have hbelow : ∀ c ∈ cs, (a.preorderWithin depth c.handle).Perm c.ids ∧
        a.postorderWithin depth c.handle = c.ids := fun c hc =>
      ih (holdsAll_iff.mp h.below c hc) (Tree.height_le_of_mem hd hc)
    have hchildren : a.children i = cs.map Tree.handle := h.children
    rw [Tree.handle_node, preorderWithin, postorderWithin, hchildren, Tree.ids_node,
      Tree.idsOf_eq_flatMap, List.flatMap_map, List.flatMap_map]
    constructor
    · refine (List.Perm.cons i ?_).trans (List.perm_append_singleton i _).symm
      exact List.Perm.flatMap_left cs fun c hc => (hbelow c hc).1
    · exact congrArg (· ++ [i]) (List.flatMap_congr fun c hc => (hbelow c hc).2)

theorem Holds.preorderWithin_eq (h : a.Holds q t) {m n : Nat} (hm : t.height ≤ m)
    (hn : t.height ≤ n) : a.preorderWithin m t.handle = a.preorderWithin n t.handle := by
  induction m generalizing n t q with
  | zero =>
    cases t
    simp at hm
  | succ m ih =>
    cases n with
    | zero =>
      cases t
      simp at hn
    | succ n =>
      rw [preorderWithin, preorderWithin, h.children, List.flatMap_map, List.flatMap_map]
      congr 1
      exact List.flatMap_congr fun c hc => ih (holdsAll_iff.mp h.below c hc)
        (Tree.height_le_of_mem hm hc) (Tree.height_le_of_mem hn hc)

section
variable (h : a.Synced) (hr : a.Ranks rank)
include h hr

theorem Synced.preorder_eq (hx : x.index < a.size) :
    a.preorder x = x :: (a.children x).flatMap a.preorder := by
  obtain ⟨t, rfl, ht⟩ := h.exists_holds hr x hx
  have hheight := ht.height_le (h.nodup_ids hr ht)
  obtain ⟨depth, hdepth⟩ : ∃ depth, a.size = depth + 1 := ⟨a.size - 1, by omega⟩
  rw [hdepth] at hheight
  have hbelow : (a.children t.handle).flatMap (a.preorderWithin depth) =
      (a.children t.handle).flatMap a.preorder := by
    rw [ht.children, List.flatMap_map, List.flatMap_map]
    refine List.flatMap_congr fun c hc => ?_
    have hc' := holdsAll_iff.mp ht.below c hc
    exact hc'.preorderWithin_eq (Tree.height_le_of_mem hheight hc)
      (hc'.height_le (h.nodup_ids hr hc'))
  rw [← hbelow]
  conv_lhs => rw [preorder, hdepth, preorderWithin]

theorem Synced.postorder_eq (hx : x.index < a.size) :
    a.postorder x = (a.children x).flatMap a.postorder ++ [x] := by
  obtain ⟨t, rfl, ht⟩ := h.exists_holds hr x hx
  have horder : ∀ {q u}, a.Holds q u → a.postorder u.handle = u.ids := fun hu =>
    (hu.orders (hu.height_le (h.nodup_ids hr hu))).2
  have hbelow : (a.children t.handle).flatMap a.postorder = idsOf t.children := by
    rw [ht.children, List.flatMap_map, Tree.idsOf_eq_flatMap]
    exact List.flatMap_congr fun c hc => horder (holdsAll_iff.mp ht.below c hc)
  rw [hbelow, horder ht]
  cases t
  rfl

theorem Synced.mem_preorder (hx : x.index < a.size) :
    (a.preorder x).Nodup ∧ ∀ y, y ∈ a.preorder x ↔ a.Reaches x y := by
  obtain ⟨t, rfl, ht⟩ := h.exists_holds hr x hx
  have hnodup := h.nodup_ids hr ht
  have hperm : (a.preorder t.handle).Perm t.ids := (ht.orders (ht.height_le hnodup)).1
  exact ⟨hperm.nodup_iff.mpr hnodup, fun y => hperm.mem_iff.trans ht.reaches_iff.symm⟩

theorem Synced.mem_postorder (hx : x.index < a.size) :
    (a.postorder x).Nodup ∧ ∀ y, y ∈ a.postorder x ↔ a.Reaches x y := by
  obtain ⟨t, rfl, ht⟩ := h.exists_holds hr x hx
  have hnodup := h.nodup_ids hr ht
  have hids : a.postorder t.handle = t.ids := (ht.orders (ht.height_le hnodup)).2
  rw [hids]
  exact ⟨hnodup, fun y => ht.reaches_iff.symm⟩

-- ---------------------------------------------------------------------------
-- Collecting from a stack
-- ---------------------------------------------------------------------------

/-- From a stack of trees one node is taken at a time, so there are as many steps as nodes. -/
theorem Synced.collectWithin_eq (select : NodeId → Bool) {fuel : Nat} (ts : List Tree)
    (hts : ∀ t ∈ ts, ∃ q, a.Holds q t) (hfuel : (idsOf ts).length ≤ fuel) :
    a.collectWithin select fuel (ts.map Tree.handle) =
      ((ts.map Tree.handle).flatMap a.preorder).filter select := by
  induction fuel generalizing ts with
  | zero =>
    cases ts with
    | nil => rfl
    | cons t ts =>
      cases t
      simp at hfuel
  | succ fuel ih =>
    cases ts with
    | nil => rfl
    | cons t ts =>
      obtain ⟨⟨q, ht⟩, hts⟩ := List.forall_mem_cons.mp hts
      have hbelow : ∀ u ∈ t.children ++ ts, ∃ q, a.Holds q u := fun u hu =>
        (List.mem_append.mp hu).elim (fun hu => ⟨_, holdsAll_iff.mp ht.below u hu⟩) (hts u)
      have hrest : (idsOf (t.children ++ ts)).length ≤ fuel := by
        cases t
        simp only [Tree.idsOf_cons, Tree.ids_node, List.length_append, List.length_cons,
          List.length_nil] at hfuel
        rw [Tree.children_node, Tree.idsOf_append, List.length_append]
        omega
      have hroot := h.preorder_eq hr (lt_size_of_links ht.links)
      have hfound := ih (t.children ++ ts) hbelow hrest
      rw [List.map_append, ← ht.children, List.flatMap_append] at hfound
      rw [List.map_cons, collectWithin, List.flatMap_cons, hroot, List.cons_append,
        List.filter_cons, hfound]

theorem Synced.collect_eq (select : NodeId → Bool) (hx : x.index < a.size) :
    a.collect select x = (a.preorder x).filter select := by
  obtain ⟨t, rfl, ht⟩ := h.exists_holds hr x hx
  have hfound := h.collectWithin_eq hr select [t] (fun u hu => ⟨_, List.mem_singleton.mp hu ▸ ht⟩)
    (by simpa using length_le_size (h.nodup_ids hr ht) ht.lt_size)
  rw [List.map_singleton, List.flatMap_singleton] at hfound
  exact hfound

end

end Arena
end BlockLang
