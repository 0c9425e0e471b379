import BlockLang.Proofs.Tree.Link
import BlockLang.Proofs.Tree.Subtree

/-!
# Editing the arena

Whatever an operation does to the links, it attaches detached nodes or detaches attached
ones. `Edit.moves` lists these moves for each operation. What one of them keeps, every
sequence of operations keeps: both directions of the links say the same, and nodes that no
move concerns stay where they are.
-/

namespace BlockLang

namespace Arena

variable {a b : Arena} {id other p c : NodeId}

-- ---------------------------------------------------------------------------
-- Parents and children
-- ---------------------------------------------------------------------------

theorem find_eq_ok {n : Node} (h : a.find id = .ok n) :
    id.index < a.size ∧ n.parent = a.parent id ∧ n.children = a.children id := by
  have hn : a.nodes[id.index]? = some n := entry_eq_ok_iff.mp h
  refine ⟨(Table.getElem?_eq_some_iff.mp hn).1, ?_, ?_⟩
  · simp [parent, get, hn]
  · simp [children, get, hn]

theorem get_modify (f : Node → Node) :
    (a.modify id f).get other =
      if other = id ∧ id.index < a.size then f (a.get other) else a.get other := by
  by_cases h : other = id
  · subst h
    by_cases hi : other.index < a.size
    · have hn : a.nodes[other.index]? = some a.nodes[other.index] := Table.getElem?_eq_getElem hi
      simp [get, modify, Table.getElem?_modify, hn, hi]
    · have hn : a.nodes[other.index]? = none := Table.getElem?_eq_none (Nat.le_of_not_lt hi)
      simp [get, modify, Table.getElem?_modify, hn, hi]
  · have hi : id.index ≠ other.index := index_ne (Ne.symm h)
    simp [get, modify, Table.getElem?_modify, h, hi]

theorem parent_of_not_lt (h : ¬ id.index < a.size) : a.parent id = none := by
  have hn : a.nodes[id.index]? = none := Table.getElem?_eq_none (Nat.le_of_not_lt h)
  simp only [parent, get, hn]
  rfl

theorem children_of_not_lt (h : ¬ id.index < a.size) : a.children id = [] := by
  have hn : a.nodes[id.index]? = none := Table.getElem?_eq_none (Nat.le_of_not_lt h)
  simp only [children, get, hn]
  rfl

theorem parent_setParent (h : id.index < a.size) (q : Option NodeId) :
    (a.setParent id q).parent other = if other = id then q else a.parent other := by
  simp only [setParent, parent, get_modify, h, and_true]
  split <;> rfl

theorem parent_setParent_none :
    (a.setParent id none).parent other = if other = id then none else a.parent other := by
  by_cases h : id.index < a.size
  · exact parent_setParent h none
  · have hnone := parent_of_not_lt h
    simp only [parent] at hnone
    simp only [setParent, parent, get_modify, h, and_false, if_false]
    split
    · next he => rw [he, hnone]
    · rfl

@[simp] theorem children_setParent (q : Option NodeId) :
    (a.setParent id q).children other = a.children other := by
  simp only [setParent, children, get_modify]
  split <;> rfl

theorem children_setChildren (h : id.index < a.size) (cs : List NodeId) :
    (a.setChildren id cs).children other = if other = id then cs else a.children other := by
  simp only [setChildren, children, get_modify, h, and_true]
  split <;> rfl

@[simp] theorem parent_setChildren (cs : List NodeId) :
    (a.setChildren id cs).parent other = a.parent other := by
  simp only [setChildren, parent, get_modify]
  split <;> rfl

@[simp] theorem size_setParent (q : Option NodeId) : (a.setParent id q).size = a.size :=
  size_modify ..

@[simp] theorem size_setChildren (cs : List NodeId) : (a.setChildren id cs).size = a.size :=
  size_modify ..

-- ---------------------------------------------------------------------------
-- Moves
-- ---------------------------------------------------------------------------

/-- Both arenas have the same links. -/
def SameLinks (a b : Arena) : Prop :=
  ∀ id, b.parent id = a.parent id ∧ b.children id = a.children id

/-- A node without a parent becomes a child of `p`. -/
structure Attaches (a : Arena) (p c : NodeId) (b : Arena) : Prop where
  free : a.parent c = none
  parent : ∀ d, b.parent d = if d = c then some p else a.parent d
  perm : (b.children p).Perm (c :: a.children p)
  others : ∀ q, q ≠ p → b.children q = a.children q

/-- A child of `p` loses its parent. -/
structure Detaches (a : Arena) (p c : NodeId) (b : Arena) : Prop where
  parent : ∀ d, b.parent d = if d = c then none else a.parent d
  perm : (a.children p).Perm (c :: b.children p)
  others : ∀ q, q ≠ p → b.children q = a.children q

end Arena

inductive Move where
  | attach (parent child : NodeId)
  | detach (parent child : NodeId)

def Move.parent : Move → NodeId
  | attach parent _ | detach parent _ => parent

def Move.child : Move → NodeId
  | attach _ child | detach _ child => child

def Move.Does (a : Arena) : Move → Arena → Prop
  | attach parent child => a.Attaches parent child
  | detach parent child => a.Detaches parent child

/-- The moves lead from one arena to the other. -/
inductive Moves : Arena → List Move → Arena → Prop
  | nil {a b : Arena} (same : a.SameLinks b) : Moves a [] b
  | cons {a b c : Arena} {m : Move} {ms : List Move} (move : m.Does a b) (rest : Moves b ms c) :
    Moves a (m :: ms) c

namespace Arena

variable {a b : Arena} {p c : NodeId} {m : Move} {ms : List Move}

/-- A node has a parent if it is among the children of that, and it is there once. -/
def Synced (a : Arena) : Prop :=
  ∀ p c, (a.children p).count c = if a.parent c = some p then 1 else 0

theorem synced_empty : Arena.empty.Synced := by
  intro p c
  simp [children, parent, get, empty, default, instInhabitedNode.default]

theorem Synced.mem_children (h : a.Synced) : c ∈ a.children p ↔ a.parent c = some p := by
  rw [← List.count_pos_iff, h p c]
  split <;> simp_all

theorem Synced.nodup_children (h : a.Synced) (p : NodeId) : (a.children p).Nodup := by
  rw [List.nodup_iff_count_le_one]
  intro c
  rw [h p c]
  split <;> decide

theorem Synced.lt_size (h : a.Synced) (hc : c ∈ a.children p) :
    p.index < a.size ∧ c.index < a.size := by
  constructor
  · by_contra hn
    simp [children_of_not_lt hn] at hc
  · by_contra hn
    simp [h.mem_children, parent_of_not_lt hn] at hc

theorem Synced.congr (h : a.Synced) (hs : a.SameLinks b) : b.Synced := by
  intro p c
  rw [(hs p).2, (hs c).1]
  exact h p c

theorem Attaches.synced (h : a.Attaches p c b) (hs : a.Synced) : b.Synced := by
  intro q d
  have hfree := hs q c
  simp only [h.free, reduceCtorEq, if_false] at hfree
  have hd := hs q d
  by_cases hq : q = p
  · subst hq
    rw [h.perm.count_eq, List.count_cons, h.parent]
    by_cases hdc : d = c
    · subst hdc
      simp [hfree]
    · simp [hd, hdc, Ne.symm hdc]
  · rw [h.others q hq, h.parent]
    by_cases hdc : d = c
    · subst hdc
      simp [hfree, Ne.symm hq]
    · simp [hd, hdc]

theorem Detaches.synced (h : a.Detaches p c b) (hs : a.Synced) : b.Synced := by
  -- there was one link, so none is left
  have hlinked : a.parent c = some p := hs.mem_children.mp (h.perm.mem_iff.mpr List.mem_cons_self)
  intro q d
  have hd := hs q d
  by_cases hq : q = p
  · subst hq
    rw [h.perm.count_eq, List.count_cons] at hd
    rw [h.parent]
    by_cases hdc : d = c
    · subst hdc
      simp [hlinked] at hd
      simp [hd]
    · simpa [hdc, Ne.symm hdc] using hd
  · rw [h.others q hq, h.parent]
    by_cases hdc : d = c
    · subst hdc
      simpa [hlinked, Ne.symm hq] using hd
    · simpa [hdc] using hd

end Arena

namespace Moves

variable {a b : Arena} {ms : List Move}

theorem synced (h : Moves a ms b) (hs : a.Synced) : b.Synced := by
  induction h with
  | nil same => exact hs.congr same
  | @cons a b c m ms move rest ih =>
    cases m with
    | attach p c => exact ih (Arena.Attaches.synced move hs)
    | detach p c => exact ih (Arena.Detaches.synced move hs)

/-- Nodes that no move concerns keep their links. -/
theorem frame (h : Moves a ms b) {id : NodeId} (hid : ∀ m ∈ ms, id ≠ m.parent ∧ id ≠ m.child) :
    b.parent id = a.parent id ∧ b.children id = a.children id := by
  induction h with
  | nil same => exact same id
  | @cons a b c m ms move rest ih =>
    obtain ⟨⟨hp, hc⟩, hms⟩ := List.forall_mem_cons.mp hid
    have hstep : b.parent id = a.parent id ∧ b.children id = a.children id := by
      cases m with
      | attach p c => exact ⟨(move.parent id).trans (if_neg hc), move.others id hp⟩
      | detach p c => exact ⟨(move.parent id).trans (if_neg hc), move.others id hp⟩
    obtain ⟨hparent, hchildren⟩ := ih hms
    exact ⟨hparent.trans hstep.1, hchildren.trans hstep.2⟩

theorem one {m : Move} (h : m.Does a b) : Moves a [m] b := .cons h (.nil fun _ => ⟨rfl, rfl⟩)

end Moves

-- ---------------------------------------------------------------------------
-- Operations
-- ---------------------------------------------------------------------------

/-- An operation on the arena, with what it is given. -/
inductive Edit where
  | add (kind : NodeKind) (span : Span) (scope : ScopeId)
  | addWith (kind : NodeKind) (span : Span) (scope : ScopeId) (children : List NodeId)
  | pushChild (parent child : NodeId)
  | insertChild (parent : NodeId) (index : Nat) (child : NodeId)
  | replaceChild (parent old new : NodeId)
  | replaceNode (old new : NodeId)
  | detach (id : NodeId)
  | reattach (slot : TreeSlot) (id : NodeId)
  | takeChildren (id : NodeId)
  | setKind (id : NodeId) (kind : NodeKind)

namespace Edit

def apply (a : Arena) : Edit → Except Fault Arena
  | add kind span scope => .ok (a.add kind span scope).2
  | addWith kind span scope children => (·.2) <$> a.addWith kind span scope children
  | pushChild parent child => a.pushChild parent child
  | insertChild parent index child => a.insertChild parent index child
  | replaceChild parent old new => a.replaceChild parent old new
  | replaceNode old new => a.replaceNode old new
  | detach id => (·.2) <$> a.detach id
  | reattach slot id => a.reattach slot id
  | takeChildren id => do
    let _ ← a.find id
    return (a.takeChildren id).2
  | setKind id kind => do
    let _ ← a.find id
    return a.setKind id kind

/-- The nodes that an operation is given. -/
def named : Edit → List NodeId
  | add .. => []
  | addWith _ _ _ children => children
  | pushChild parent child | insertChild parent _ child => [parent, child]
  | replaceChild parent old new => [parent, old, new]
  | replaceNode old new => [old, new]
  | reattach slot id => [slot.parent, id]
  | detach id | takeChildren id | setKind id _ => [id]

/-- The children that an operation takes from a node. -/
def taken (a : Arena) : Edit → List NodeId
  | takeChildren id => a.children id
  | _ => []

/-- What an operation does to the links, one after the other. -/
def moves (a : Arena) : Edit → List Move
  | add .. | setKind .. => []
  | addWith _ _ _ children => children.map (.attach ⟨a.size⟩)
  | pushChild parent child | insertChild parent _ child => [.attach parent child]
  | replaceChild parent old new => [.detach parent old, .attach parent new]
  | replaceNode old new =>
    match a.parent old with
    | some parent => [.detach parent old, .attach parent new]
    | none => []
  | detach id => (a.parent id).toList.map (.detach · id)
  | reattach slot id => [.attach slot.parent id]
  | takeChildren id => (a.children id).map (.detach id)

end Edit

namespace Arena

variable {a b : Arena} {p c old new id : NodeId} {i : Nat}

theorem bind_eq_ok {x : Except ε α} {f : α → Except ε β} {r : β} :
    x >>= f = .ok r ↔ ∃ y, x = .ok y ∧ f y = .ok r := by
  cases x <;> simp [bind, Except.bind]

theorem checkDetached_eq_ok (h : a.checkDetached id = .ok u) :
    id.index < a.size ∧ a.parent id = none := by
  obtain ⟨n, hn, h⟩ := bind_eq_ok.mp h
  obtain ⟨hsize, hparent, -⟩ := find_eq_ok hn
  refine ⟨hsize, hparent.symm.trans ?_⟩
  cases hp : n.parent with
  | none => rfl
  | some q =>
    rw [hp] at h
    cases h

/-- A detached node among the children of `p`. -/
theorem attaches_set {cs : List NodeId} (hc : c.index < a.size) (hfree : a.parent c = none)
    (hp : p.index < a.size) (hcs : cs.Perm (c :: a.children p)) :
    a.Attaches p c ((a.setParent c (some p)).setChildren p cs) where
  free := hfree
  parent := fun d => by rw [parent_setChildren, parent_setParent hc]
  perm := by rwa [children_setChildren (by simpa using hp), if_pos rfl]
  others := fun q hq => by
    rw [children_setChildren (by simpa using hp), if_neg hq, children_setParent]

theorem attaches_pushChild (h : a.pushChild p c = .ok b) : a.Attaches p c b := by
  obtain ⟨_, hc, h⟩ := bind_eq_ok.mp h
  obtain ⟨n, hn, h⟩ := bind_eq_ok.mp h
  obtain ⟨hsize, hfree⟩ := checkDetached_eq_ok hc
  obtain ⟨hp, -, hchildren⟩ := find_eq_ok hn
  obtain rfl : _ = b := Except.ok.inj h
  refine attaches_set hsize hfree (by simpa using hp) ?_
  rw [hchildren, children_setParent]
  exact List.perm_append_singleton c _

theorem attaches_insertChild (h : a.insertChild p i c = .ok b) : a.Attaches p c b := by
  obtain ⟨_, hc, h⟩ := bind_eq_ok.mp h
  obtain ⟨n, hn, h⟩ := bind_eq_ok.mp h
  obtain ⟨hsize, hfree⟩ := checkDetached_eq_ok hc
  obtain ⟨hp, -, hchildren⟩ := find_eq_ok hn
  rw [children_setParent] at hchildren
  simp only [hchildren] at h
  split at h
  · cases h
  · next hi =>
    obtain rfl : _ = b := Except.ok.inj h
    refine attaches_set hsize hfree (by simpa using hp) ?_
    exact List.perm_insertIdx c _ (Nat.le_of_not_lt hi)

/-- The children of `p` without the one at a place. -/
theorem detaches_set {index : Nat} (hp : p.index < a.size)
    (hi : (a.children p).findIdx? (· == c) = some index) :
    a.Detaches p c ((a.setChildren p ((a.children p).eraseIdx index)).setParent c none) := by
  obtain ⟨hlt, hat, -⟩ := List.findIdx?_eq_some_iff_getElem.mp hi
  have hc : (a.children p)[index] = c := by simpa using hat
  constructor
  · intro d
    rw [parent_setParent_none, parent_setChildren]
  · rw [children_setParent, children_setChildren hp, if_pos rfl]
    have hperm := List.getElem_cons_eraseIdx_perm hlt
    rw [hc] at hperm
    exact hperm.symm
  · intro q hq
    rw [children_setParent, children_setChildren hp, if_neg hq]

theorem detaches_detach {slot : TreeSlot} (h : a.detach id = .ok (slot, b)) :
    ∃ p, a.parent id = some p ∧ a.Detaches p id b := by
  obtain ⟨n, hn, h⟩ := bind_eq_ok.mp h
  obtain ⟨-, hparent, -⟩ := find_eq_ok hn
  cases hp : n.parent with
  | none =>
    rw [hp] at h
    cases h
  | some p =>
    simp only [hp] at h
    split at h
    · cases h
    · next index hi =>
      obtain ⟨-, rfl⟩ := Prod.mk.inj (Except.ok.inj h)
      have hsize : p.index < a.size := by
        by_contra hn
        simp [children_of_not_lt hn] at hi
      exact ⟨p, hparent.symm.trans hp, detaches_set hsize hi⟩

/-- The old child is detached, then the new one is attached. -/
theorem moves_replaceChild (hs : a.Synced) (h : a.replaceChild p old new = .ok b) :
    Moves a [.detach p old, .attach p new] b := by
  obtain ⟨n, hn, h⟩ := bind_eq_ok.mp h
  obtain ⟨hp, -, hchildren⟩ := find_eq_ok hn
  simp only [hchildren] at h
  split at h
  · cases h
  · next index hi =>
    obtain ⟨_, hc, h⟩ := bind_eq_ok.mp h
    obtain ⟨hnew, hfree⟩ := checkDetached_eq_ok hc
    obtain rfl : _ = b := Except.ok.inj h
    obtain ⟨hlt, hat, -⟩ := List.findIdx?_eq_some_iff_getElem.mp hi
    have hold : old ∈ a.children p := by
      obtain rfl : (a.children p)[index] = old := by simpa using hat
      exact List.getElem_mem hlt
    have hne : new ≠ old := by
      rintro rfl
      simp [hs.mem_children.mp hold] at hfree
    refine .cons (detaches_set hp hi) (.one ⟨?_, fun d => ?_, ?_, fun q hq => ?_⟩)
    · rw [parent_setParent_none, if_neg hne, parent_setChildren, hfree]
    · rw [parent_setParent_none, parent_setParent (by simpa using hnew), parent_setParent_none,
        parent_setChildren, parent_setChildren]
      by_cases hd : d = old
      · subst hd
        simp [Ne.symm hne]
      · simp [hd]
    · simp only [children_setParent, children_setChildren hp, if_pos]
      exact List.set_perm_cons_eraseIdx hlt new
    · simp only [children_setParent, children_setChildren hp, if_neg hq]

theorem moves_replaceNode (hs : a.Synced) (h : a.replaceNode old new = .ok b) :
    Moves a ((Edit.replaceNode old new).moves a) b := by
  obtain ⟨n, hn, h⟩ := bind_eq_ok.mp h
  obtain ⟨-, hparent, -⟩ := find_eq_ok hn
  simp only [Edit.moves, ← hparent]
  cases hp : n.parent with
  | none =>
    simp only [hp] at h
    obtain rfl : a = b := Except.ok.inj h
    exact .nil fun _ => ⟨rfl, rfl⟩
  | some p =>
    simp only [hp] at h
    exact moves_replaceChild hs h

theorem moves_pushChildren {cs : List NodeId} (h : a.pushChildren p cs = .ok b) :
    Moves a (cs.map (.attach p)) b := by
  induction cs generalizing a with
  | nil =>
    obtain rfl : a = b := Except.ok.inj h
    exact .nil fun _ => ⟨rfl, rfl⟩
  | cons c cs ih =>
    rw [pushChildren, List.foldlM_cons] at h
    obtain ⟨a', hpush, h⟩ := bind_eq_ok.mp h
    exact .cons (attaches_pushChild hpush) (ih h)

theorem sameLinks_add (kind : NodeKind) (span : Span) (scope : ScopeId) :
    a.SameLinks (a.add kind span scope).2 := by
  intro id
  by_cases h : id = ⟨a.size⟩
  · subst h
    have hlinks := links_add_self a kind span scope
    have hnot : ¬ (⟨a.size⟩ : NodeId).index < a.size := Nat.lt_irrefl _
    rw [parent_of_links hlinks, children_of_links hlinks, parent_of_not_lt hnot,
      children_of_not_lt hnot]
    exact ⟨rfl, rfl⟩
  · have hi : id.index ≠ a.nodes.size := fun hi => h (by cases id; simp_all [size])
    simp [parent, children, get, add, Table.getElem?_push, hi]

theorem sameLinks_setKind (kind : NodeKind) : a.SameLinks (a.setKind id kind) := by
  intro other
  simp only [setKind, parent, children, get_modify]
  split <;> exact ⟨rfl, rfl⟩

theorem Moves.of_sameLinks {ms : List Move} {a' : Arena} (hs : a.SameLinks a') (h : Moves a' ms b) :
    Moves a ms b := by
  induction ms generalizing a a' with
  | nil =>
    cases h with
    | nil same =>
      exact .nil fun id => ⟨(same id).1.trans (hs id).1, (same id).2.trans (hs id).2⟩
  | cons m ms ih =>
    cases h with
    | cons move rest =>
      refine .cons ?_ rest
      cases m with
      | attach p c =>
        exact ⟨(hs c).1 ▸ move.free, fun d => (hs d).1 ▸ move.parent d, (hs p).2 ▸ move.perm,
          fun q hq => (hs q).2 ▸ move.others q hq⟩
      | detach p c =>
        exact ⟨fun d => (hs d).1 ▸ move.parent d, (hs p).2 ▸ move.perm,
          fun q hq => (hs q).2 ▸ move.others q hq⟩

theorem parent_detachAll (cs : List NodeId) :
    (cs.foldl (·.setParent · none) a).parent id = if id ∈ cs then none else a.parent id := by
  induction cs generalizing a with
  | nil => simp
  | cons c cs ih =>
    rw [List.foldl_cons, ih, parent_setParent_none]
    by_cases hcs : id ∈ cs <;> by_cases hc : id = c <;> simp [hcs, hc]

theorem children_detachAll (cs : List NodeId) :
    (cs.foldl (·.setParent · none) a).children id = a.children id := by
  induction cs generalizing a with
  | nil => rfl
  | cons c cs ih => rw [List.foldl_cons, ih, children_setParent]

/-- Children are detached one after the other, from the first on. -/
theorem moves_detachAll {cs : List NodeId} (hp : p.index < a.size) (hcs : a.children p = cs)
    (hparent : ∀ d, b.parent d = if d ∈ cs then none else a.parent d)
    (hchildren : ∀ q, b.children q = if q = p then [] else a.children q) :
    Moves a (cs.map (.detach p)) b := by
  induction cs generalizing a with
  | nil =>
    refine .nil fun id => ⟨by simpa using hparent id, (hchildren id).trans ?_⟩
    split
    · next h => rw [h, hcs]
    · rfl
  | cons c cs ih =>
    refine .cons (b := (a.setChildren p cs).setParent c none) ⟨fun d => ?_, ?_, fun q hq => ?_⟩
      (ih ?_ ?_ (fun d => ?_) fun q => ?_)
    · rw [parent_setParent_none, parent_setChildren]
    · rw [children_setParent, children_setChildren hp, if_pos rfl, hcs]
    · rw [children_setParent, children_setChildren hp, if_neg hq]
    · simpa using hp
    · rw [children_setParent, children_setChildren hp, if_pos rfl]
    · rw [hparent, parent_setParent_none, parent_setChildren]
      by_cases hd : d ∈ cs <;> by_cases hc : d = c <;> simp [hd, hc]
    · rw [hchildren, children_setParent, children_setChildren hp]
      split <;> rfl

theorem moves_takeChildren (h : id.index < a.size) :
    Moves a ((a.children id).map (.detach id)) (a.takeChildren id).2 := by
  refine moves_detachAll h rfl (fun d => ?_) fun q => ?_
  · rw [takeChildren, parent_detachAll, parent_setChildren]
  · rw [takeChildren, children_detachAll, children_setChildren h]

end Arena

namespace Edit

variable {a b : Arena} {e : Edit}

/-- An operation that succeeds does its moves and nothing else to the links. -/
theorem moves_of_apply (hs : a.Synced) (h : e.apply a = .ok b) : Moves a (e.moves a) b := by
  cases e with
  | add kind span scope =>
    obtain rfl : _ = b := Except.ok.inj h
    exact .nil (Arena.sameLinks_add kind span scope)
  | addWith kind span scope children =>
    cases hadd : a.addWith kind span scope children with
    | error fault => simp [apply, hadd] at h
    | ok r =>
      simp only [apply, hadd, Except.map_ok, Except.ok.injEq] at h
      subst h
      obtain ⟨b', hpush, hb⟩ := Arena.bind_eq_ok.mp hadd
      obtain rfl : _ = r := Except.ok.inj hb
      exact Arena.Moves.of_sameLinks (Arena.sameLinks_add kind span scope)
        (Arena.moves_pushChildren hpush)
  | pushChild parent child => exact .one (Arena.attaches_pushChild h)
  | insertChild parent index child => exact .one (Arena.attaches_insertChild h)
  | replaceChild parent old new => exact Arena.moves_replaceChild hs h
  | replaceNode old new => exact Arena.moves_replaceNode hs h
  | detach id =>
    cases hdetach : a.detach id with
    | error fault => simp [apply, hdetach] at h
    | ok r =>
      simp only [apply, hdetach, Except.map_ok, Except.ok.injEq] at h
      subst h
      obtain ⟨p, hp, hmove⟩ := Arena.detaches_detach hdetach
      simp only [moves, hp, Option.toList_some, List.map_cons, List.map_nil]
      exact .one hmove
  | reattach slot id => exact .one (Arena.attaches_insertChild h)
  | takeChildren id =>
    obtain ⟨n, hn, h⟩ := Arena.bind_eq_ok.mp h
    obtain rfl : _ = b := Except.ok.inj h
    exact Arena.moves_takeChildren (Arena.find_eq_ok hn).1
  | setKind id kind =>
    obtain ⟨n, hn, h⟩ := Arena.bind_eq_ok.mp h
    obtain rfl : _ = b := Except.ok.inj h
    exact .nil (Arena.sameLinks_setKind kind)

/-- A node that an operation has nothing to do with: it is not given, no parent of a node that
is given and not taken. -/
structure Spares (a : Arena) (e : Edit) (id : NodeId) : Prop where
  notNamed : id ∉ e.named
  notParent : ∀ n ∈ e.named, a.parent n ≠ some id
  notTaken : id ∉ e.taken a

theorem Spares.not_moved {id : NodeId} (h : e.Spares a id) (hi : id.index < a.size) :
    ∀ m ∈ e.moves a, id ≠ m.parent ∧ id ≠ m.child := by
  obtain ⟨hnamed, hparent, htaken⟩ := h
  cases e with
  | add kind span scope => exact nofun
  | setKind node kind => exact nofun
  | addWith kind span scope children =>
    intro m hm
    obtain ⟨c, hc, rfl⟩ := List.mem_map.mp hm
    refine ⟨?_, fun he => hnamed (he ▸ hc)⟩
    rintro rfl
    exact Nat.lt_irrefl _ hi
  | pushChild parent child => simpa [named, moves, Move.parent, Move.child] using hnamed
  | insertChild parent index child => simpa [named, moves, Move.parent, Move.child] using hnamed
  | reattach slot node => simpa [named, moves, Move.parent, Move.child] using hnamed
  | replaceChild parent old new =>
    simp only [named, List.mem_cons, List.not_mem_nil, or_false, not_or] at hnamed
    simpa [moves, Move.parent, Move.child] using ⟨⟨hnamed.1, hnamed.2.1⟩, hnamed.1, hnamed.2.2⟩
  | replaceNode old new =>
    simp only [named, List.mem_cons, List.not_mem_nil, or_false, not_or] at hnamed hparent
    cases hp : a.parent old with
    | none => simp [moves, hp]
    | some q =>
      have hq : id ≠ q := fun he => hparent old (.inl rfl) (he ▸ hp)
      simpa [moves, hp, Move.parent, Move.child] using ⟨⟨hq, hnamed.1⟩, hq, hnamed.2⟩
  | detach node =>
    simp only [named, List.mem_singleton, forall_eq] at hnamed hparent
    cases hp : a.parent node with
    | none => simp [moves, hp]
    | some q =>
      have hq : id ≠ q := fun he => hparent (he ▸ hp)
      simpa [moves, hp, Move.parent, Move.child] using ⟨hq, hnamed⟩
  | takeChildren node =>
    simp only [named, List.mem_singleton] at hnamed
    intro m hm
    obtain ⟨c, hc, rfl⟩ := List.mem_map.mp hm
    exact ⟨hnamed, fun he => htaken (he ▸ hc)⟩

end Edit
end BlockLang
