import BlockLang.Proofs.Tree.Graft

/-!
# Subtrees

A property of all nodes of a tree is one of its subtrees, which are listed with each
after those below it. In an arena that spells the tree out they are what can be
reached from its root, and every link between them is sound.
-/

namespace BlockLang

namespace Tree

mutual
/-- The tree and all trees below it, each after those below it. -/
def subtrees : Tree → List Tree
  | node id kind children => subtreesOf children ++ [node id kind children]
def subtreesOf : List Tree → List Tree
  | [] => []
  | t :: ts => t.subtrees ++ subtreesOf ts
end

@[simp] theorem subtrees_node :
    (node i k cs).subtrees = subtreesOf cs ++ [node i k cs] := by rw [subtrees]
@[simp] theorem subtreesOf_nil : subtreesOf [] = [] := by rw [subtreesOf]
@[simp] theorem subtreesOf_cons : subtreesOf (t :: ts) = t.subtrees ++ subtreesOf ts := by
  rw [subtreesOf]

@[simp] theorem subtreesOf_append (ts us : List Tree) :
    subtreesOf (ts ++ us) = subtreesOf ts ++ subtreesOf us := by
  induction ts with
  | nil => simp
  | cons t ts ih => simp [ih]

theorem mem_subtreesOf {ts : List Tree} : u ∈ subtreesOf ts ↔ ∃ t ∈ ts, u ∈ t.subtrees := by
  induction ts with
  | nil => simp
  | cons t ts ih => simp [ih]

theorem self_mem_subtrees (t : Tree) : t ∈ t.subtrees := by
  cases t
  simp

theorem mem_subtreesOf_of_mem {ts : List Tree} (h : t ∈ ts) : t ∈ subtreesOf ts :=
  mem_subtreesOf.mpr ⟨t, h, t.self_mem_subtrees⟩

theorem subtrees_trans {t u v : Tree} (hu : u ∈ t.subtrees) (hv : v ∈ u.subtrees) :
    v ∈ t.subtrees := by
  induction t with
  | node i k cs ih =>
    simp only [subtrees_node, List.mem_append, List.mem_singleton] at hu ⊢
    rcases hu with hu | rfl
    · obtain ⟨c, hc, hu⟩ := mem_subtreesOf.mp hu
      exact .inl (mem_subtreesOf.mpr ⟨c, hc, ih c hc hu⟩)
    · simpa using hv

theorem child_mem_subtrees {t c : Tree} (h : c ∈ t.children) : c ∈ t.subtrees := by
  cases t
  simp only [subtrees_node, List.mem_append]
  exact .inl (mem_subtreesOf_of_mem h)

theorem ids_eq_map (t : Tree) : t.ids = t.subtrees.map handle := by
  induction t with
  | node i k cs ih =>
    have hcs : idsOf cs = (subtreesOf cs).map handle := by
      induction cs with
      | nil => simp
      | cons c cs ihs =>
        rw [idsOf_cons, ih c (by simp), ihs fun d hd => ih d (by simp [hd]), subtreesOf_cons,
          List.map_append]
    simp [hcs]

theorem idsOf_eq_map (ts : List Tree) : idsOf ts = (subtreesOf ts).map handle := by
  induction ts with
  | nil => simp
  | cons t ts ih => simp [ih, ids_eq_map]

theorem mem_ids {t : Tree} : i ∈ t.ids ↔ ∃ u ∈ t.subtrees, u.handle = i := by
  simp [ids_eq_map]

theorem map_handle_sublist (ts : List Tree) : (ts.map handle).Sublist (idsOf ts) := by
  induction ts with
  | nil => simp
  | cons t ts ih =>
    rw [List.map_cons, idsOf_cons]
    exact (List.singleton_sublist.mpr t.handle_mem_ids).append ih

theorem nodup_ids_of_mem {t c : Tree} (hn : t.ids.Nodup) (hc : c ∈ t.children) : c.ids.Nodup := by
  cases t with
  | node i k cs =>
    obtain ⟨l, r, rfl⟩ := List.append_of_mem hc
    simp only [ids_node, idsOf_append, idsOf_cons] at hn
    exact hn.of_append_left.of_append_right.of_append_left

/-- Every subtree of `t` satisfies `P`. -/
def Every (P : Tree → Prop) (t : Tree) : Prop := ∀ u ∈ t.subtrees, P u

variable {P Q : Tree → Prop}

theorem every_node : Every P (node i k cs) ↔ (∀ c ∈ cs, Every P c) ∧ P (node i k cs) := by
  simp only [Every, subtrees_node, List.mem_append, List.mem_singleton, mem_subtreesOf]
  constructor
  · intro h
    exact ⟨fun c hc u hu => h u (.inl ⟨c, hc, hu⟩), h _ (.inr rfl)⟩
  · rintro ⟨hcs, ht⟩ u (⟨c, hc, hu⟩ | rfl)
    · exact hcs c hc u hu
    · exact ht

theorem Every.self (h : Every P t) : P t := h t t.self_mem_subtrees

theorem Every.child (h : Every P t) (hc : c ∈ t.children) : Every P c :=
  fun _ hu => h _ (subtrees_trans (child_mem_subtrees hc) hu)

/-- A root gives way to its children. -/
theorem length_idsOf_cons (t : Tree) (ts : List Tree) :
    (idsOf (t :: ts)).length = (idsOf (t.children.reverse ++ ts)).length + 1 := by
  have hperm := (idsOf_perm (List.reverse_perm t.children)).length_eq
  rw [idsOf_append, List.length_append, hperm]
  cases t with
  | node i k cs =>
    simp only [idsOf_cons, ids_node, children_node, List.length_append, List.length_cons,
      List.length_nil]
    omega

end Tree

open BlockLang.Tree (idsOf)

namespace Arena

/-- `id` can be reached from `root` by going down. -/
inductive Reaches (a : Arena) (root : NodeId) : NodeId → Prop
  | root : Reaches a root root
  | child {up down : NodeId} : Reaches a root up → down ∈ a.children up → Reaches a root down

variable {a : Arena} {parent : Option NodeId}

theorem Reaches.trans {i j k : NodeId} (h : a.Reaches i j) (h' : a.Reaches j k) :
    a.Reaches i k := by
  induction h' with
  | root => exact h
  | child _ hc ih => exact .child ih hc

theorem Holds.subtree (h : a.Holds parent t) (hu : u ∈ t.subtrees) : ∃ q, a.Holds q u := by
  induction t generalizing parent with
  | node i k cs ih =>
    simp only [Tree.subtrees_node, List.mem_append, List.mem_singleton] at hu
    rcases hu with hu | rfl
    · obtain ⟨c, hc, hu⟩ := Tree.mem_subtreesOf.mp hu
      exact ih c hc (holdsAll_iff.mp (holds_node.mp h).2 c hc) hu
    · exact ⟨parent, h⟩

theorem Holds.reaches_iff (h : a.Holds parent t) : a.Reaches t.handle i ↔ i ∈ t.ids := by
  constructor
  · intro hr
    induction hr with
    | root => exact t.handle_mem_ids
    | child _ hc ih =>
      obtain ⟨u, hu, rfl⟩ := Tree.mem_ids.mp ih
      obtain ⟨q, hq⟩ := h.subtree hu
      rw [hq.children] at hc
      obtain ⟨d, hd, rfl⟩ := List.mem_map.mp hc
      exact Tree.mem_ids.mpr ⟨d, Tree.subtrees_trans hu (Tree.child_mem_subtrees hd), rfl⟩
  · intro hi
    induction t generalizing parent with
    | node j k cs ih =>
      simp only [Tree.ids_node, List.mem_append, List.mem_singleton] at hi
      rcases hi with hi | rfl
      · obtain ⟨c, hc, hi⟩ := Tree.mem_idsOf.mp hi
        have hr := ih c hc (holdsAll_iff.mp (holds_node.mp h).2 c hc) hi
        have hm : c.handle ∈ a.children j := by
          rw [children_of_links (holds_node.mp h).1]
          exact List.mem_map_of_mem hc
        exact (Reaches.child .root hm).trans hr
      · exact .root

theorem linked_of_holds (h : a.Holds parent t) (hn : t.ids.Nodup)
    (hc : c ∈ t.children.map Tree.handle) : a.linked t.handle c = true := by
  have hone : (t.children.map Tree.handle).count c = 1 := by
    cases t with
    | node i k cs =>
      rw [Tree.ids_node] at hn
      exact List.count_eq_one_of_mem ((Tree.map_handle_sublist cs).nodup hn.of_append_left) hc
  obtain ⟨d, hd, rfl⟩ := List.mem_map.mp hc
  have hp := (holdsAll_iff.mp h.below d hd).parent_eq
  simp [linked, hp, h.children, hone]

-- ---------------------------------------------------------------------------
-- The check of the links
-- ---------------------------------------------------------------------------

/-- From the nodes on the stack, the check of the links ends after so many steps, at a badly
linked node or because no node is left. -/
inductive Checks (a : Arena) : List NodeId → Nat → Option NodeId → Prop
  | done : Checks a [] 0 none
  | bad {node child : NodeId} {stack : List NodeId}
    (found : (a.children node).find? (!a.linked node ·) = some child) :
    Checks a (node :: stack) 1 (some child)
  | next {node : NodeId} {stack : List NodeId} {n : Nat} {r : Option NodeId}
    (clean : (a.children node).find? (!a.linked node ·) = none)
    (rest : Checks a ((a.children node).reverse ++ stack) n r) : Checks a (node :: stack) (n + 1) r

theorem Checks.badLinkWithin_eq {stack : List NodeId} {n : Nat} {r : Option NodeId}
    (h : a.Checks stack n r) {fuel : Nat} (hn : n ≤ fuel) : a.badLinkWithin fuel stack = r := by
  induction h generalizing fuel with
  | done => cases fuel <;> rfl
  | bad found =>
    cases fuel with
    | zero => omega
    | succ fuel => simp only [badLinkWithin, found]
  | next clean _ ih =>
    cases fuel with
    | zero => omega
    | succ fuel =>
      simp only [badLinkWithin, clean]
      exact ih (by omega)

/-- Below trees that are spelled out, each node is looked at once, and none is badly linked. -/
theorem checks_of_holds (ts : List Tree) (h : ∀ t ∈ ts, ∃ q, a.Holds q t ∧ t.ids.Nodup) :
    a.Checks (ts.map Tree.handle) (idsOf ts).length none := by
  induction hn : (idsOf ts).length generalizing ts with
  | zero =>
    cases ts with
    | nil => exact .done
    | cons t ts => exact absurd ((Tree.length_idsOf_cons t ts).symm.trans hn) (Nat.succ_ne_zero _)
  | succ n ih =>
    cases ts with
    | nil => simp at hn
    | cons t ts =>
      obtain ⟨⟨q, ht, hnodup⟩, hts⟩ := List.forall_mem_cons.mp h
      have hclean : (a.children t.handle).find? (!a.linked t.handle ·) = none := by
        rw [ht.children, List.find?_eq_none]
        intro c hc
        simp [linked_of_holds ht hnodup hc]
      have hrest : ∀ u ∈ t.children.reverse ++ ts, ∃ q, a.Holds q u ∧ u.ids.Nodup := by
        intro u hu
        rcases List.mem_append.mp hu with hu | hu
        · have hc := List.mem_reverse.mp hu
          exact ⟨_, holdsAll_iff.mp ht.below u hc, Tree.nodup_ids_of_mem hnodup hc⟩
        · exact hts u hu
      refine .next hclean ?_
      have hbelow := ih _ hrest (Nat.succ.inj ((Tree.length_idsOf_cons t ts).symm.trans hn))
      rwa [List.map_append, List.map_reverse, ← ht.children] at hbelow

/-- The check of the links below a tree that is spelled out comes to its end and finds nothing. -/
theorem Holds.checks (h : a.Holds parent t) (hn : t.ids.Nodup) :
    (∃ n, a.Checks [t.handle] n none) ∧ a.badLink? t.handle = none := by
  have hchecks := checks_of_holds (a := a) [t] (by simpa using ⟨⟨parent, h⟩, hn⟩)
  refine ⟨⟨_, hchecks⟩, hchecks.badLinkWithin_eq ?_⟩
  have hlen := length_le_size hn h.lt_size
  simp only [Tree.idsOf_cons, Tree.idsOf_nil, List.append_nil]
  omega

end Arena
end BlockLang
