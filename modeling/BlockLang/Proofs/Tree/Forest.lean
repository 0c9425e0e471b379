import BlockLang.Proofs.Tree.Link
import Mathlib.Data.List.Nodup
import Mathlib.Data.List.Perm.Subperm

/-!
# Trees in the arena

`Tree` is a tree of handles and kinds. `Holds` says that the links of an arena spell
such a tree out, and `Forest` that they spell out several that share no node, none of
which has a parent. A list of frames leads from the root of a tree down to a gap that
trees can be put into; what an operation does to attached nodes is said of such gaps.
-/

namespace BlockLang

inductive Tree where
  | node (id : NodeId) (kind : NodeKind) (children : List Tree)

namespace Tree

def handle : Tree → NodeId
  | node id _ _ => id

def kind : Tree → NodeKind
  | node _ kind _ => kind

def children : Tree → List Tree
  | node _ _ children => children

@[simp] theorem handle_node : (node i k cs).handle = i := rfl
@[simp] theorem kind_node : (node i k cs).kind = k := rfl
@[simp] theorem children_node : (node i k cs).children = cs := rfl

@[elab_as_elim, induction_eliminator]
theorem induction {motive : Tree → Prop}
    (node : ∀ id kind children, (∀ c ∈ children, motive c) → motive (node id kind children)) :
    (t : Tree) → motive t
  | .node id kind children => node id kind children fun c _ => induction node c

mutual
/-- The handles of a tree, each after those below it. -/
def ids : Tree → List NodeId
  | node id _ children => idsOf children ++ [id]
def idsOf : List Tree → List NodeId
  | [] => []
  | t :: ts => t.ids ++ idsOf ts
end

@[simp] theorem ids_node : (node i k cs).ids = idsOf cs ++ [i] := by rw [ids]
@[simp] theorem idsOf_nil : idsOf [] = [] := by rw [idsOf]
@[simp] theorem idsOf_cons : idsOf (t :: ts) = t.ids ++ idsOf ts := by rw [idsOf]

@[simp] theorem idsOf_append (ts us : List Tree) : idsOf (ts ++ us) = idsOf ts ++ idsOf us := by
  induction ts with
  | nil => simp
  | cons t ts ih => simp [ih]

theorem idsOf_eq_flatMap (ts : List Tree) : idsOf ts = ts.flatMap ids := by
  induction ts with
  | nil => simp
  | cons t ts ih => simp [ih]

theorem mem_idsOf {ts : List Tree} : i ∈ idsOf ts ↔ ∃ t ∈ ts, i ∈ t.ids := by
  simp [idsOf_eq_flatMap]

theorem handle_mem_ids (t : Tree) : t.handle ∈ t.ids := by
  cases t
  simp

theorem handle_mem_idsOf {ts : List Tree} (h : t ∈ ts) : t.handle ∈ idsOf ts :=
  mem_idsOf.mpr ⟨t, h, t.handle_mem_ids⟩

theorem idsOf_perm {ts us : List Tree} (h : ts.Perm us) : (idsOf ts).Perm (idsOf us) := by
  rw [idsOf_eq_flatMap, idsOf_eq_flatMap]
  exact h.flatMap_right _

mutual
/-- Length of the longest path down. -/
def height : Tree → Nat
  | node _ _ children => heightOf children + 1
def heightOf : List Tree → Nat
  | [] => 0
  | t :: ts => max t.height (heightOf ts)
end

@[simp] theorem height_node : (node i k cs).height = heightOf cs + 1 := by rw [height]

theorem height_le_heightOf {ts : List Tree} (h : t ∈ ts) : t.height ≤ heightOf ts := by
  induction ts with
  | nil => simp at h
  | cons u us ih =>
    rw [heightOf]
    rcases List.mem_cons.mp h with rfl | h
    · exact Nat.le_max_left _ _
    · exact Nat.le_trans (ih h) (Nat.le_max_right _ _)

theorem height_le_length_ids (t : Tree) : t.height ≤ t.ids.length := by
  induction t with
  | node i k cs ih =>
    have hcs : heightOf cs ≤ (idsOf cs).length := by
      induction cs with
      | nil => simp [heightOf]
      | cons c cs ihs =>
        have hc := ih c (by simp)
        have hs := ihs fun d hd => ih d (by simp [hd])
        rw [heightOf, idsOf_cons, List.length_append]
        omega
    simp
    omega

end Tree

open BlockLang.Tree (idsOf ids_node handle_node idsOf_cons idsOf_append idsOf_nil mem_idsOf)

namespace Arena

mutual
/-- The arena spells out the tree, whose root has the given parent. -/
def Holds (a : Arena) (parent : Option NodeId) : Tree → Prop
  | .node id kind children =>
    a.links id = some ⟨kind, parent, children.map Tree.handle⟩ ∧ a.HoldsAll (some id) children
def HoldsAll (a : Arena) (parent : Option NodeId) : List Tree → Prop
  | [] => True
  | t :: ts => a.Holds parent t ∧ a.HoldsAll parent ts
end

variable {a b : Arena} {parent : Option NodeId}

theorem holds_node : a.Holds parent (.node i k cs) ↔
    a.links i = some ⟨k, parent, cs.map Tree.handle⟩ ∧ a.HoldsAll (some i) cs := by
  rw [Holds]

@[simp] theorem holdsAll_nil : a.HoldsAll parent [] := by
  rw [HoldsAll]
  trivial

@[simp] theorem holdsAll_cons :
    a.HoldsAll parent (t :: ts) ↔ a.Holds parent t ∧ a.HoldsAll parent ts := by
  rw [HoldsAll]

@[simp] theorem holdsAll_append {ts us : List Tree} :
    a.HoldsAll parent (ts ++ us) ↔ a.HoldsAll parent ts ∧ a.HoldsAll parent us := by
  induction ts with
  | nil => simp
  | cons t ts ih => simp [ih, and_assoc]

theorem holdsAll_iff {ts : List Tree} : a.HoldsAll parent ts ↔ ∀ t ∈ ts, a.Holds parent t := by
  induction ts with
  | nil => simp
  | cons t ts ih => simp [ih]

theorem Holds.links (h : a.Holds parent t) :
    a.links t.handle = some ⟨t.kind, parent, t.children.map Tree.handle⟩ := by
  cases t
  exact (holds_node.mp h).1

theorem Holds.kind (h : a.Holds parent t) : a.kind t.handle = t.kind := kind_of_links h.links

theorem Holds.children (h : a.Holds parent t) : a.children t.handle = t.children.map Tree.handle :=
  children_of_links h.links

theorem Holds.parent_eq (h : a.Holds parent t) : a.parent t.handle = parent :=
  parent_of_links h.links

theorem Holds.below (h : a.Holds parent t) : a.HoldsAll (some t.handle) t.children := by
  cases t
  exact (holds_node.mp h).2

/-- A tree depends only on the links of its own nodes. -/
theorem Holds.congr (h : a.Holds parent t) (hl : ∀ i ∈ t.ids, b.links i = a.links i) :
    b.Holds parent t := by
  induction t generalizing parent with
  | node i k cs ih =>
    rw [holds_node] at h ⊢
    refine ⟨(hl i (by simp)).trans h.1, holdsAll_iff.mpr fun c hc => ?_⟩
    refine ih c hc (holdsAll_iff.mp h.2 c hc) fun j hj => hl j ?_
    simp only [ids_node, List.mem_append]
    exact .inl (mem_idsOf.mpr ⟨c, hc, hj⟩)

theorem HoldsAll.congr {ts : List Tree} (h : a.HoldsAll parent ts)
    (hl : ∀ i ∈ idsOf ts, b.links i = a.links i) : b.HoldsAll parent ts :=
  holdsAll_iff.mpr fun t ht =>
    (holdsAll_iff.mp h t ht).congr fun i hi => hl i (mem_idsOf.mpr ⟨t, ht, hi⟩)

/-- Links spell out one tree below a node. -/
theorem Holds.unique (ht : a.Holds parent t) (hu : a.Holds q u) (h : t.handle = u.handle) :
    t = u := by
  induction t generalizing parent q u with
  | node i k cs ih =>
    obtain ⟨j, k', ds⟩ := u
    obtain rfl : i = j := h
    obtain ⟨hlinks, hcs⟩ := holds_node.mp ht
    obtain ⟨hlinks', hds⟩ := holds_node.mp hu
    obtain ⟨rfl, -, hhandles⟩ := Links.mk.inj (Option.some.inj (hlinks.symm.trans hlinks'))
    have hlength : cs.length = ds.length := by simpa using congrArg List.length hhandles
    have hsame : cs = ds := by
      refine List.ext_getElem hlength fun n hn hm => ?_
      have hhandle : cs[n].handle = ds[n].handle := by
        simpa [hn, hm] using congrArg (·[n]?) hhandles
      exact ih _ (List.getElem_mem hn) (holdsAll_iff.mp hcs _ (List.getElem_mem hn))
        (holdsAll_iff.mp hds _ (List.getElem_mem hm)) hhandle
    rw [hsame]

/-- A tree moves to another parent when the parent of its root changes. -/
theorem Holds.move (h : a.Holds parent t) (hn : t.ids.Nodup)
    (hr : b.links t.handle = (a.links t.handle).map fun l => { l with parent := q })
    (hl : ∀ i ∈ t.ids, i ≠ t.handle → b.links i = a.links i) : b.Holds q t := by
  cases t with
  | node i k cs =>
    rw [holds_node] at h ⊢
    refine ⟨by rw [handle_node, h.1] at hr; exact hr, h.2.congr fun j hj => ?_⟩
    refine hl j (by simp [hj]) ?_
    rintro rfl
    simp only [ids_node, List.nodup_append] at hn
    exact hn.2.2 _ hj _ (by simp) rfl

theorem Holds.lt_size (h : a.Holds parent t) : ∀ i ∈ t.ids, i.index < a.size := by
  induction t generalizing parent with
  | node i k cs ih =>
    intro j hj
    rw [holds_node] at h
    simp only [ids_node, List.mem_append, List.mem_singleton] at hj
    rcases hj with hj | rfl
    · obtain ⟨c, hc, hj⟩ := mem_idsOf.mp hj
      exact ih c hc (holdsAll_iff.mp h.2 c hc) j hj
    · exact lt_size_of_links h.1

theorem HoldsAll.lt_size {ts : List Tree} (h : a.HoldsAll parent ts) :
    ∀ i ∈ idsOf ts, i.index < a.size := by
  intro i hi
  obtain ⟨t, ht, hi⟩ := mem_idsOf.mp hi
  exact (holdsAll_iff.mp h t ht).lt_size i hi

/-- There are no more handles than nodes. -/
theorem length_le_size {ids : List NodeId} (hn : ids.Nodup) (h : ∀ i ∈ ids, i.index < a.size) :
    ids.length ≤ a.size := by
  have hmap : (ids.map NodeId.index).Nodup := by
    refine List.Nodup.map ?_ hn
    rintro ⟨i⟩ ⟨j⟩ rfl
    rfl
  have hsub : ids.map NodeId.index ⊆ List.range a.size := by
    intro n hm
    obtain ⟨i, hi, rfl⟩ := List.mem_map.mp hm
    exact List.mem_range.mpr (h i hi)
  simpa using (List.subperm_of_subset hmap hsub).length_le

theorem Holds.height_le (h : a.Holds parent t) (hn : t.ids.Nodup) : t.height ≤ a.size :=
  Nat.le_trans t.height_le_length_ids (length_le_size hn h.lt_size)

-- ---------------------------------------------------------------------------
-- Gaps in trees
-- ---------------------------------------------------------------------------

end Arena

/-- A node on the way to a gap, with the trees to the left and right of the way. -/
structure Frame where
  id : NodeId
  kind : NodeKind
  left : List Tree
  right : List Tree

namespace Frame

/-- The trees above a gap, innermost frame first, with `ts` in the gap. -/
def plug : List Frame → List Tree → List Tree
  | [], ts => ts
  | f :: fs, ts => plug fs [.node f.id f.kind (f.left ++ ts ++ f.right)]

/-- The parent of what is in the gap. -/
def top : List Frame → Option NodeId
  | [] => none
  | f :: _ => some f.id

/-- The handles around a gap. -/
def ids : List Frame → List NodeId
  | [] => []
  | f :: fs => f.id :: (idsOf f.left ++ idsOf f.right ++ ids fs)

/-- The arena spells out what is around a gap with nodes of the given handles in it. -/
def Around (a : Arena) : List Frame → List NodeId → Prop
  | [], _ => True
  | f :: fs, gap =>
    a.links f.id = some ⟨f.kind, top fs, f.left.map Tree.handle ++ gap ++ f.right.map Tree.handle⟩ ∧
      a.HoldsAll (some f.id) f.left ∧ a.HoldsAll (some f.id) f.right ∧ Around a fs [f.id]

variable {a b : Arena} {fs : List Frame}

theorem holdsAll_plug {ts : List Tree} :
    a.HoldsAll none (plug fs ts) ↔ Around a fs (ts.map Tree.handle) ∧ a.HoldsAll (top fs) ts := by
  induction fs generalizing ts with
  | nil => simp [plug, Around, top]
  | cons f fs ih =>
    simp only [plug, ih, Around, top, List.map_cons, List.map_nil, handle_node, Arena.holdsAll_cons,
      Arena.holdsAll_nil, and_true, Arena.holds_node, List.map_append, Arena.holdsAll_append]
    constructor
    · rintro ⟨h, hl, ⟨h1, h2⟩, h3⟩
      exact ⟨⟨hl, h1, h3, h⟩, h2⟩
    · rintro ⟨⟨hl, h1, h3, h⟩, h2⟩
      exact ⟨h, hl, ⟨h1, h2⟩, h3⟩

theorem perm_idsOf_plug (fs : List Frame) (ts : List Tree) :
    (idsOf (plug fs ts)).Perm (ids fs ++ idsOf ts) := by
  induction fs generalizing ts with
  | nil => simp [plug, ids]
  | cons f fs ih =>
    refine (ih _).trans (List.perm_iff_count.mpr fun i => ?_)
    simp only [ids, idsOf_cons, ids_node, idsOf_append, idsOf_nil, List.append_nil,
      List.count_append, List.count_cons, List.count_nil, List.cons_append]
    omega

theorem Around.congr {gap : List NodeId} (h : Around a fs gap)
    (hl : ∀ i ∈ ids fs, b.links i = a.links i) : Around b fs gap := by
  induction fs generalizing gap with
  | nil => trivial
  | cons f fs ih =>
    obtain ⟨hf, hleft, hright, hrest⟩ := h
    simp only [ids, List.mem_cons, List.mem_append] at hl
    exact ⟨(hl f.id (.inl rfl)).trans hf, hleft.congr fun i hi => hl i (by simp [hi]),
      hright.congr fun i hi => hl i (by simp [hi]), ih hrest fun i hi => hl i (by simp [hi])⟩

end Frame
end BlockLang
