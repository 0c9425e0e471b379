import BlockLang.Proofs.Types.Table

/-!
# Types as trees

A handle unfolds to a tree, with the handles of parameters at its leaves. In a
`Canonical` table the parts of a type come before it and no kind but a parameter
stands twice, so handles are equal exactly when their trees are.
-/

namespace BlockLang

/-- A type without handles, except for those that tell parameters apart. -/
inductive TypeTree where
  | primitive (primitive : Primitive)
  | list (element : TypeTree) (length : Option UInt64)
  | tuple (fields : List (Option String × TypeTree))
  | reference (target : TypeTree)
  | named (name : String) (args : List TypeTree) (expanded : TypeTree)
  | param (id : TypeId)
  | func (arguments result : TypeTree)
  | error

namespace TypeTree

mutual

/-- Every parameter replaced, all at once. -/
def subst (σ : TypeId → TypeTree) : TypeTree → TypeTree
  | primitive p => .primitive p
  | list element length => .list (subst σ element) length
  | tuple fields => .tuple (substFields σ fields)
  | reference target => .reference (subst σ target)
  | named name args expanded => .named name (substAll σ args) (subst σ expanded)
  | param id => σ id
  | func arguments result => .func (subst σ arguments) (subst σ result)
  | error => .error

def substAll (σ : TypeId → TypeTree) : List TypeTree → List TypeTree
  | [] => []
  | tree :: rest => subst σ tree :: substAll σ rest

def substFields (σ : TypeId → TypeTree) :
    List (Option String × TypeTree) → List (Option String × TypeTree)
  | [] => []
  | (name, tree) :: rest => (name, subst σ tree) :: substFields σ rest

end

mutual

/-- The parameters that occur in a type. -/
def params : TypeTree → List TypeId
  | primitive _ | error => []
  | list element _ => params element
  | tuple fields => paramsOfFields fields
  | reference target => params target
  | named _ args expanded => paramsOfAll args ++ params expanded
  | param id => [id]
  | func arguments result => params arguments ++ params result

def paramsOfAll : List TypeTree → List TypeId
  | [] => []
  | tree :: rest => params tree ++ paramsOfAll rest

def paramsOfFields : List (Option String × TypeTree) → List TypeId
  | [] => []
  | (_, tree) :: rest => params tree ++ paramsOfFields rest

end

theorem substAll_eq_map (σ : TypeId → TypeTree) (trees : List TypeTree) :
    substAll σ trees = trees.map (subst σ) := by
  induction trees with
  | nil => rfl
  | cons tree rest ih => rw [substAll, ih, List.map_cons]

theorem substFields_eq_map (σ : TypeId → TypeTree) (fields : List (Option String × TypeTree)) :
    substFields σ fields = fields.map fun field => (field.1, field.2.subst σ) := by
  induction fields with
  | nil => rfl
  | cons field rest ih => rw [substFields, ih, List.map_cons]

mutual

theorem subst_eq_self {σ : TypeId → TypeTree} :
    ∀ tree : TypeTree, (∀ p ∈ tree.params, σ p = .param p) → tree.subst σ = tree
  | primitive _, _ | error, _ => rfl
  | list element _, h => by
    rw [subst, subst_eq_self element h]
  | tuple fields, h => by
    rw [subst, substFields_eq_self fields h]
  | reference target, h => by
    rw [subst, subst_eq_self target h]
  | named name args expanded, h => by
    rw [subst, substAll_eq_self args fun p hp => h p (List.mem_append_left _ hp),
      subst_eq_self expanded fun p hp => h p (List.mem_append_right _ hp)]
  | param id, h => h id List.mem_cons_self
  | func arguments result, h => by
    rw [subst, subst_eq_self arguments fun p hp => h p (List.mem_append_left _ hp),
      subst_eq_self result fun p hp => h p (List.mem_append_right _ hp)]

theorem substAll_eq_self {σ : TypeId → TypeTree} :
    ∀ trees : List TypeTree, (∀ p ∈ paramsOfAll trees, σ p = .param p) → substAll σ trees = trees
  | [], _ => rfl
  | tree :: rest, h => by
    rw [substAll, subst_eq_self tree fun p hp => h p (List.mem_append_left _ hp),
      substAll_eq_self rest fun p hp => h p (List.mem_append_right _ hp)]

theorem substFields_eq_self {σ : TypeId → TypeTree} :
    ∀ fields : List (Option String × TypeTree), (∀ p ∈ paramsOfFields fields, σ p = .param p) →
      substFields σ fields = fields
  | [], _ => rfl
  | (_, tree) :: rest, h => by
    rw [substFields, subst_eq_self tree fun p hp => h p (List.mem_append_left _ hp),
      substFields_eq_self rest fun p hp => h p (List.mem_append_right _ hp)]

end

end TypeTree

namespace TypeKind

/-- The tree of a kind with the handle `id`, given the trees of its parts. -/
def tree (id : TypeId) (f : TypeId → TypeTree) : TypeKind → TypeTree
  | primitive p => .primitive p
  | list element length => .list (f element) length
  | tuple fields => .tuple (fields.map fun field => (field.name, f field.type))
  | reference target => .reference (f target)
  | named name args expanded => .named name (args.map f) (f expanded)
  | param _ => .param id
  | func arguments result => .func (f arguments) (f result)
  | error => .error

variable {k k' : TypeKind} {i j : TypeId} {f g : TypeId → TypeTree}

theorem tree_congr (h : ∀ p ∈ k.parts, f p = g p) : k.tree i f = k.tree i g := by
  cases k <;> simp_all [tree, parts]

/-- Only a parameter's tree tells the handle. -/
theorem tree_handle (h : k.isParam = false) : k.tree i f = k.tree j f := by
  cases k with
  | param => simp [isParam] at h
  | _ => rfl

theorem subst_tree {σ : TypeId → TypeTree} (h : k.isParam = false) :
    (k.tree i f).subst σ = k.tree i fun p => (f p).subst σ := by
  cases k with
  | param => simp [isParam] at h
  | _ => simp [tree, TypeTree.subst, TypeTree.substAll_eq_map, TypeTree.substFields_eq_map]

theorem eq_of_param_tree (hk : k.isParam = true) (h : k.tree i f = k'.tree j g) :
    k'.isParam = true ∧ i = j := by
  cases k with
  | param => cases k' <;> simp_all [tree, isParam]
  | _ => simp [isParam] at hk

/-- Equal trees have equal parts, in the same order. -/
theorem parts_of_tree_eq (hk : k.isParam = false) (h : k.tree i f = k'.tree j g) :
    k.parts.map f = k'.parts.map g := by
  cases k with
  | param => simp [isParam] at hk
  | tuple fields =>
    cases k' with
    | tuple fields' =>
      have hfields := congrArg (List.map Prod.snd) (TypeTree.tuple.inj h)
      simpa [parts, Function.comp_def] using hfields
    | _ => simp [tree] at h
  | _ => cases k' <;> simp_all [tree, parts]

theorem eq_of_map_eq_map {α β : Type} {f g : α → β} :
    ∀ {xs ys : List α}, xs.map f = ys.map g → (∀ x ∈ xs, ∀ y ∈ ys, f x = g y → x = y) → xs = ys
  | [], [], _, _ => rfl
  | [], _ :: _, h, _ | _ :: _, [], h, _ => by simp at h
  | x :: xs, y :: ys, h, hinj => by
    obtain ⟨hhead, htail⟩ := List.cons.inj h
    rw [hinj x List.mem_cons_self y List.mem_cons_self hhead,
      eq_of_map_eq_map htail fun x hx y hy =>
        hinj x (List.mem_cons_of_mem _ hx) y (List.mem_cons_of_mem _ hy)]

theorem eq_of_tree_eq (hk : k.isParam = false) (h : k.tree i f = k'.tree j g)
    (hinj : ∀ p ∈ k.parts, ∀ q ∈ k'.parts, f p = g q → p = q) : k = k' := by
  cases k with
  | param => simp [isParam] at hk
  | tuple fields =>
    cases k' with
    | tuple fields' =>
      congr 1
      refine eq_of_map_eq_map (TypeTree.tuple.inj h) fun x hx y hy hxy => ?_
      obtain ⟨hname, htype⟩ := Prod.mk.inj hxy
      have := hinj x.type (List.mem_map_of_mem hx) y.type (List.mem_map_of_mem hy) htype
      cases x; cases y
      simp_all
    | _ => simp [tree] at h
  | named name args expanded =>
    cases k' with
    | named name' args' expanded' =>
      obtain ⟨rfl, hargs, hexpanded⟩ := TypeTree.named.inj h
      simp only [parts, List.mem_append, List.mem_singleton] at hinj
      rw [hinj _ (.inr rfl) _ (.inr rfl) hexpanded,
        eq_of_map_eq_map hargs fun x hx y hy => hinj x (.inl hx) y (.inl hy)]
    | _ => simp [tree] at h
  | _ => cases k' <;> simp_all [tree, parts]

end TypeKind

namespace TypeTable

variable {t u : TypeTable} {k : TypeKind} {id : TypeId}

def unfoldWithin (t : TypeTable) : Nat → TypeId → TypeTree
  | 0, _ => .error
  | depth + 1, id => (t.kind id).tree id (unfoldWithin t depth)

/-- The tree of a type. -/
def unfold (t : TypeTable) (id : TypeId) : TypeTree := t.unfoldWithin (id.index + 1) id

/-- A type has one handle, unless it is a parameter, and its parts come before it. -/
structure Canonical (t : TypeTable) : Prop where
  ordered : ∀ id, ∀ part ∈ (t.kind id).parts, part.index < id.index
  shared : ∀ a b, t.Has a → t.Has b → (t.kind a).isParam = false → t.kind a = t.kind b → a = b

namespace Canonical

theorem unfoldWithin_eq (h : t.Canonical) {m n : Nat} (hm : id.index < m) (hn : id.index < n) :
    t.unfoldWithin m id = t.unfoldWithin n id := by
  induction m generalizing n id with
  | zero => exact absurd hm (Nat.not_lt_zero _)
  | succ m ih =>
    cases n with
    | zero => exact absurd hn (Nat.not_lt_zero _)
    | succ n =>
      refine TypeKind.tree_congr fun part hpart => ?_
      have := h.ordered id part hpart
      exact ih (by omega) (by omega)

theorem unfold_eq (h : t.Canonical) (id : TypeId) : t.unfold id = (t.kind id).tree id t.unfold :=
  TypeKind.tree_congr fun part hpart =>
    h.unfoldWithin_eq (h.ordered id part hpart) (Nat.lt_succ_self _)

theorem has_part (h : t.Canonical) (hid : t.Has id) {part : TypeId}
    (hpart : part ∈ (t.kind id).parts) : t.Has part :=
  Nat.lt_trans (h.ordered id part hpart) hid

/-- A tree has one handle: the trees of two handles are compared part by part, which
leads to smaller handles. -/
theorem eq_of_unfold_eq (h : t.Canonical) {a b : TypeId} (ha : t.Has a) (hb : t.Has b)
    (hab : t.unfold a = t.unfold b) : a = b := by
  rw [h.unfold_eq a, h.unfold_eq b] at hab
  cases hparam : (t.kind a).isParam with
  | true => exact (TypeKind.eq_of_param_tree hparam hab).2
  | false =>
    refine h.shared a b ha hb hparam (TypeKind.eq_of_tree_eq hparam hab fun p hp q hq hpq => ?_)
    have := h.ordered a p hp
    exact eq_of_unfold_eq h (h.has_part ha hp) (h.has_part hb hq) hpq
termination_by a.index

/-- Trees do not change when the table grows. -/
theorem unfold_extends (h : t.Canonical) (h' : u.Canonical) (hext : t.Extends u) {id : TypeId}
    (hid : t.Has id) : u.unfold id = t.unfold id := by
  rw [h.unfold_eq id, h'.unfold_eq id, hext.kind hid]
  refine TypeKind.tree_congr fun part hpart => ?_
  have := h.ordered id part hpart
  exact unfold_extends h h' hext (h.has_part hid hpart)
termination_by id.index

theorem empty (hash : TypeKind → UInt64) : (empty hash).Canonical where
  ordered := by simp [kind, TypeTable.empty, TypeKind.parts]
  shared := by simp [Has, size, TypeTable.empty]

theorem intern (h : t.Canonical) (hparts : ∀ part ∈ k.parts, t.Has part) :
    (t.intern k).2.Canonical := by
  obtain ⟨id, -, -, -, hintern⟩ | ⟨hnew, hintern⟩ := intern_cases t k <;> rw [hintern]
  · exact h
  · constructor
    · intro id part hpart
      rw [kind_register] at hpart
      split at hpart
      · rename_i hid
        exact hid ▸ hparts part hpart
      · exact h.ordered id part hpart
    · intro a b ha hb hparam hab
      simp only [Has, size_register] at ha hb
      simp only [kind_register] at hparam hab
      -- The new handle is the only one of its kind, and the old ones are as before.
      split at hab <;> split at hab <;> rename_i hai hbi
      · cases a; cases b; simp_all
      · exact absurd hab.symm (hnew (by simpa [hai] using hparam) b (by unfold Has; omega))
      · rw [if_neg hai, hab] at hparam
        exact absurd hab (hnew hparam a (by unfold Has; omega))
      · rw [if_neg hai] at hparam
        exact h.shared a b (by unfold Has; omega) (by unfold Has; omega) hparam hab

/-- A kind that the table has is found, and nothing is added. -/
theorem intern_kind (h : t.Canonical) (hid : t.Has id) (hparam : (t.kind id).isParam = false) :
    t.intern (t.kind id) = (id, t) := by
  obtain ⟨found, hfound, hkind, -, hintern⟩ | ⟨hnew, -⟩ := intern_cases t (t.kind id)
  · rw [hintern, h.shared id found hid hfound hparam hkind.symm]
  · exact absurd rfl (hnew hparam id hid)

theorem new (hash : TypeKind → UInt64) : (new hash).Canonical := by
  have hrun : ∀ (kinds : List TypeKind) (t : TypeTable), t.Canonical →
      (∀ k ∈ kinds, k.parts = []) →
      (kinds.foldl (fun t kind => (t.intern kind).2) t).Canonical := by
    intro kinds
    induction kinds with
    | nil => exact fun _ h _ => h
    | cons k kinds ih =>
      intro t h hparts
      refine ih _ (h.intern ?_) fun k hk => hparts k (List.mem_cons_of_mem _ hk)
      simp [hparts k List.mem_cons_self]
  exact hrun initialKinds _ (empty hash) (by decide)

end Canonical
end TypeTable
end BlockLang
