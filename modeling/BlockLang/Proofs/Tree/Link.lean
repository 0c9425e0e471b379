import BlockLang.Tree.Arena

/-!
# Links and labels

A node of the arena has links, its kind, parent and children, and a label, all that
does not depend on its place. Each operation of the arena is described by what it
does to both.
-/

namespace BlockLang.Arena

structure Links where
  kind : NodeKind
  parent : Option NodeId
  children : List NodeId

structure Label where
  kind : NodeKind
  span : Span
  scope : ScopeId
  facts : Facts

def links (a : Arena) (id : NodeId) : Option Links :=
  a.nodes[id.index]?.map fun n => ⟨n.kind, n.parent, n.children⟩

def label (a : Arena) (id : NodeId) : Option Label :=
  a.nodes[id.index]?.map fun n => ⟨n.kind, n.span, n.scope, n.facts⟩

/-- Every node of the first arena has the same label in the second. -/
def Extends (a b : Arena) : Prop := ∀ id l, a.label id = some l → b.label id = some l

variable {a b : Arena} {id other : NodeId}

theorem Extends.refl (a : Arena) : a.Extends a := fun _ _ h => h

theorem Extends.trans (h : a.Extends b) (h' : b.Extends c) : a.Extends c :=
  fun id l hl => h' id l (h id l hl)

theorem index_ne (h : id ≠ other) : id.index ≠ other.index := by
  rintro hi
  exact h (by cases id; cases other; simp_all)

-- ---------------------------------------------------------------------------
-- Reading
-- ---------------------------------------------------------------------------

theorem kind_of_links (h : a.links id = some l) : a.kind id = l.kind := by
  simp only [links, Option.map_eq_some_iff] at h
  obtain ⟨n, hn, rfl⟩ := h
  simp [kind, get, hn]

theorem parent_of_links (h : a.links id = some l) : a.parent id = l.parent := by
  simp only [links, Option.map_eq_some_iff] at h
  obtain ⟨n, hn, rfl⟩ := h
  simp [parent, get, hn]

theorem children_of_links (h : a.links id = some l) : a.children id = l.children := by
  simp only [links, Option.map_eq_some_iff] at h
  obtain ⟨n, hn, rfl⟩ := h
  simp [children, get, hn]

theorem kind_congr (h : b.links id = a.links id) : b.kind id = a.kind id := by
  simp only [links] at h
  cases ha : a.nodes[id.index]? <;> cases hb : b.nodes[id.index]? <;> simp_all [kind, get]

theorem children_congr (h : b.links id = a.links id) : b.children id = a.children id := by
  simp only [links] at h
  cases ha : a.nodes[id.index]? <;> cases hb : b.nodes[id.index]? <;> simp_all [children, get]

theorem find_of_links (h : a.links id = some l) :
    ∃ n, a.find id = .ok n ∧ n.kind = l.kind ∧ n.parent = l.parent ∧ n.children = l.children := by
  simp only [links, Option.map_eq_some_iff] at h
  obtain ⟨n, hn, rfl⟩ := h
  exact ⟨n, entry_eq_ok_iff.mpr hn, rfl, rfl, rfl⟩

theorem lt_size_of_links (h : a.links id = some l) : id.index < a.size := by
  simp only [links, Option.map_eq_some_iff] at h
  obtain ⟨n, hn, -⟩ := h
  exact (Table.getElem?_eq_some_iff.mp hn).1

theorem exists_links (h : id.index < a.size) : ∃ l, a.links id = some l := by
  have hn : a.nodes[id.index]? = some a.nodes[id.index] := Table.getElem?_eq_getElem h
  exact ⟨_, congrArg _ hn⟩

/-- Links are there for as many nodes as there are. -/
theorem size_le_of_links (h : ∀ id, b.links id = a.links id) : a.size ≤ b.size := by
  refine Nat.le_of_not_lt fun hlt => ?_
  have hi : (⟨b.size⟩ : NodeId).index < a.size := hlt
  obtain ⟨l, hl⟩ := exists_links hi
  exact Nat.lt_irrefl _ (lt_size_of_links ((h _).trans hl))

theorem label_of_links (h : a.links id = some l) :
    a.label id = some ⟨l.kind, a.span id, a.scope id, a.facts id⟩ := by
  simp only [links, Option.map_eq_some_iff] at h
  obtain ⟨n, hn, rfl⟩ := h
  simp [label, span, scope, facts, get, hn]

theorem facts_of_label (h : a.label id = some l) : a.facts id = l.facts := by
  simp only [label, Option.map_eq_some_iff] at h
  obtain ⟨n, hn, rfl⟩ := h
  simp [facts, get, hn]

theorem kind_of_label (h : a.label id = some l) : a.kind id = l.kind := by
  simp only [label, Option.map_eq_some_iff] at h
  obtain ⟨n, hn, rfl⟩ := h
  simp [kind, get, hn]

theorem span_of_label (h : a.label id = some l) : a.span id = l.span := by
  simp only [label, Option.map_eq_some_iff] at h
  obtain ⟨n, hn, rfl⟩ := h
  simp [span, get, hn]

theorem facts_congr (h : b.label id = a.label id) : b.facts id = a.facts id := by
  unfold label at h
  unfold facts get
  cases ha : a.nodes[id.index]? <;> cases hb : b.nodes[id.index]? <;> simp_all

theorem span_congr (h : b.label id = a.label id) : b.span id = a.span id := by
  unfold label at h
  unfold span get
  cases ha : a.nodes[id.index]? <;> cases hb : b.nodes[id.index]? <;> simp_all

theorem scope_congr (h : b.label id = a.label id) : b.scope id = a.scope id := by
  unfold label at h
  unfold scope get
  cases ha : a.nodes[id.index]? <;> cases hb : b.nodes[id.index]? <;> simp_all

theorem scope_of_label (h : a.label id = some l) : a.scope id = l.scope := by
  simp only [label, Option.map_eq_some_iff] at h
  obtain ⟨n, hn, rfl⟩ := h
  simp [scope, get, hn]

theorem scope_of_not_lt (h : ¬ id.index < a.size) : a.scope id = default := by
  have hn : a.nodes[id.index]? = none := Table.getElem?_eq_none (Nat.le_of_not_lt h)
  simp only [scope, get, hn]
  rfl

theorem exists_label (h : id.index < a.size) : ∃ l, a.label id = some l := by
  have hn : a.nodes[id.index]? = some a.nodes[id.index] := Table.getElem?_eq_getElem h
  exact ⟨_, congrArg _ hn⟩

theorem lt_size_of_label (h : a.label id = some l) : id.index < a.size := by
  simp only [label, Option.map_eq_some_iff] at h
  obtain ⟨n, hn, -⟩ := h
  exact (Table.getElem?_eq_some_iff.mp hn).1

theorem Extends.facts (h : a.Extends b) (hi : id.index < a.size) : b.facts id = a.facts id := by
  obtain ⟨l, hl⟩ := exists_label hi
  rw [facts_of_label hl, facts_of_label (h id l hl)]

theorem Extends.size_le (h : a.Extends b) : a.size ≤ b.size := by
  refine Nat.le_of_not_lt fun hlt => ?_
  have hi : (⟨b.size⟩ : NodeId).index < a.size := hlt
  obtain ⟨l, hl⟩ := exists_label hi
  exact Nat.lt_irrefl _ (lt_size_of_label (h _ l hl))

-- ---------------------------------------------------------------------------
-- Changes of one node
-- ---------------------------------------------------------------------------

@[simp] theorem size_modify (a : Arena) (id : NodeId) (f : Node → Node) :
    (a.modify id f).size = a.size := by
  simp [modify, size]

theorem links_modify_ne (h : id ≠ other) (f : Node → Node) :
    (a.modify id f).links other = a.links other := by
  simp [links, modify, Table.getElem?_modify, index_ne h]

theorem label_modify_ne (h : id ≠ other) (f : Node → Node) :
    (a.modify id f).label other = a.label other := by
  simp [label, modify, Table.getElem?_modify, index_ne h]

theorem links_setParent_self (p : Option NodeId) :
    (a.setParent id p).links id = (a.links id).map fun l => { l with parent := p } := by
  simp [links, setParent, modify, Table.getElem?_modify, Function.comp_def]

theorem links_setParent_ne (h : id ≠ other) (p : Option NodeId) :
    (a.setParent id p).links other = a.links other := links_modify_ne h _

theorem links_setChildren_self (cs : List NodeId) :
    (a.setChildren id cs).links id = (a.links id).map fun l => { l with children := cs } := by
  simp [links, setChildren, modify, Table.getElem?_modify, Function.comp_def]

theorem links_setChildren_ne (h : id ≠ other) (cs : List NodeId) :
    (a.setChildren id cs).links other = a.links other := links_modify_ne h _

@[simp] theorem links_annotate (f : Facts → Facts) :
    (a.annotate id f).links other = a.links other := by
  by_cases h : id = other
  · subst h
    simp [links, annotate, modify, Table.getElem?_modify, Function.comp_def]
  · exact links_modify_ne h _

@[simp] theorem label_setParent (p : Option NodeId) :
    (a.setParent id p).label other = a.label other := by
  by_cases h : id = other
  · subst h
    simp [label, setParent, modify, Table.getElem?_modify, Function.comp_def]
  · exact label_modify_ne h _

@[simp] theorem label_setChildren (cs : List NodeId) :
    (a.setChildren id cs).label other = a.label other := by
  by_cases h : id = other
  · subst h
    simp [label, setChildren, modify, Table.getElem?_modify, Function.comp_def]
  · exact label_modify_ne h _

theorem label_annotate_self (f : Facts → Facts) :
    (a.annotate id f).label id = (a.label id).map fun l => { l with facts := f l.facts } := by
  simp [label, annotate, modify, Table.getElem?_modify, Function.comp_def]

theorem label_annotate_ne (h : id ≠ other) (f : Facts → Facts) :
    (a.annotate id f).label other = a.label other := label_modify_ne h _

theorem label_annotate_of_not_lt (h : ¬ id.index < a.size) (f : Facts → Facts) :
    (a.annotate id f).label id = a.label id := by
  simp [label, annotate, modify, Table.getElem?_modify, Table.getElem?_eq_none (Nat.le_of_not_lt h)]

theorem facts_annotate_self (h : id.index < a.size) (f : Facts → Facts) :
    (a.annotate id f).facts id = f (a.facts id) := by
  have hn : a.nodes[id.index]? = some a.nodes[id.index] := Table.getElem?_eq_getElem h
  simp only [facts, get, annotate, modify, Table.getElem?_modify, hn, if_pos, Option.map_some,
    Option.getD_some]

theorem scope_annotate (f : Facts → Facts) : (a.annotate id f).scope other = a.scope other := by
  by_cases h : id = other
  · subst h
    simp only [scope, get, annotate, modify, Table.getElem?_modify, if_pos]
    cases a.nodes[id.index]? <;> rfl
  · exact scope_congr (label_annotate_ne h f)

-- ---------------------------------------------------------------------------
-- A new node
-- ---------------------------------------------------------------------------

theorem links_add_self (a : Arena) (kind : NodeKind) (span : Span) (scope : ScopeId) :
    (a.add kind span scope).2.links ⟨a.size⟩ = some ⟨kind, none, []⟩ := by
  simp [links, add, size]

theorem links_add_ne (h : other ≠ ⟨a.size⟩) (kind : NodeKind) (span : Span) (scope : ScopeId) :
    (a.add kind span scope).2.links other = a.links other := by
  have hi : other.index ≠ a.nodes.size := fun hi => h (by cases other; simp_all [size])
  simp [links, add, Table.getElem?_push, hi]

theorem label_add_self (a : Arena) (kind : NodeKind) (span : Span) (scope : ScopeId) :
    (a.add kind span scope).2.label ⟨a.size⟩ = some ⟨kind, span, scope, .none⟩ := by
  simp [label, add, size]

theorem label_add_ne (h : other ≠ ⟨a.size⟩) (kind : NodeKind) (span : Span) (scope : ScopeId) :
    (a.add kind span scope).2.label other = a.label other := by
  have hi : other.index ≠ a.nodes.size := fun hi => h (by cases other; simp_all [size])
  simp [label, add, Table.getElem?_push, hi]

theorem scope_add_ne (h : other ≠ ⟨a.size⟩) (kind : NodeKind) (span : Span) (scope : ScopeId) :
    (a.add kind span scope).2.scope other = a.scope other :=
  scope_congr (label_add_ne h kind span scope)

theorem scope_add_self (a : Arena) (kind : NodeKind) (span : Span) (scope : ScopeId) :
    (a.add kind span scope).2.scope ⟨a.size⟩ = scope := by
  simp [Arena.scope, get, add, size]

theorem extends_add (a : Arena) (kind : NodeKind) (span : Span) (scope : ScopeId) :
    a.Extends (a.add kind span scope).2 := by
  intro id l hl
  rw [label_add_ne _ kind span scope]
  · exact hl
  · rintro rfl
    exact absurd (lt_size_of_label hl) (by simp)

@[simp] theorem size_add (a : Arena) (kind : NodeKind) (span : Span) (scope : ScopeId) :
    (a.add kind span scope).2.size = a.size + 1 := by
  simp [add, size]

theorem extends_of_label_eq (h : ∀ id, b.label id = a.label id) : a.Extends b :=
  fun id _ hl => (h id).trans hl

-- ---------------------------------------------------------------------------
-- Attaching and detaching
-- ---------------------------------------------------------------------------

theorem pushChild_eq {parent child : NodeId} (hc : a.links child = some ⟨ck, none, cs⟩)
    (hp : a.links parent = some l) (hne : child ≠ parent) :
    a.pushChild parent child =
      .ok ((a.setParent child (some parent)).setChildren parent (l.children ++ [child])) := by
  obtain ⟨n, hn, -, hnp, -⟩ := find_of_links hc
  have hp' : (a.setParent child (some parent)).links parent = some l := by
    rw [links_setParent_ne hne, hp]
  obtain ⟨m, hm, -, -, hmc⟩ := find_of_links hp'
  simp [pushChild, checkDetached, hn, hnp, hm, hmc, bind, Except.bind, pure, Except.pure]

theorem insertChild_eq {parent child : NodeId} (hc : a.links child = some ⟨ck, none, cs⟩)
    (hp : a.links parent = some l) (hne : child ≠ parent) (hi : i ≤ l.children.length) :
    a.insertChild parent i child =
      .ok ((a.setParent child (some parent)).setChildren parent
        (l.children.insertIdx i child)) := by
  obtain ⟨n, hn, -, hnp, -⟩ := find_of_links hc
  have hp' : (a.setParent child (some parent)).links parent = some l := by
    rw [links_setParent_ne hne, hp]
  obtain ⟨m, hm, -, -, hmc⟩ := find_of_links hp'
  have hi' : ¬ l.children.length < i := by omega
  simp [insertChild, checkDetached, hn, hnp, hm, hmc, hi', bind, Except.bind, pure, Except.pure]

theorem findIdx?_split {old : NodeId} {left : List NodeId} (right : List NodeId) (h : old ∉ left) :
    (left ++ old :: right).findIdx? (· == old) = some left.length := by
  induction left with
  | nil => simp [List.findIdx?_cons]
  | cons x xs ih =>
    simp only [List.mem_cons, not_or] at h
    have hx : (x == old) = false := by simpa using fun he => h.1 he.symm
    simp [List.findIdx?_cons, hx, ih h.2]

theorem replaceChild_eq {parent old new : NodeId} (hn : a.links new = some ⟨nk, none, cs⟩)
    (hp : a.links parent = some ⟨pk, pp, left ++ old :: right⟩) (hl : old ∉ left) :
    a.replaceChild parent old new =
      .ok (((a.setChildren parent (left ++ new :: right)).setParent new (some parent)).setParent
        old none) := by
  obtain ⟨m, hm, -, -, hmc⟩ := find_of_links hp
  obtain ⟨n, hn', -, hnp, -⟩ := find_of_links hn
  have hi := findIdx?_split right hl
  simp [replaceChild, checkDetached, hm, hmc, hi, hn', hnp, bind, Except.bind, pure, Except.pure]

theorem replaceNode_eq {parent old new : NodeId} (ho : a.links old = some ⟨ok, some parent, os⟩)
    (hn : a.links new = some ⟨nk, none, cs⟩)
    (hp : a.links parent = some ⟨pk, pp, left ++ old :: right⟩) (hl : old ∉ left) :
    a.replaceNode old new =
      .ok (((a.setChildren parent (left ++ new :: right)).setParent new (some parent)).setParent
        old none) := by
  obtain ⟨n, hn', -, hnp, -⟩ := find_of_links ho
  simp only at hnp
  rw [← replaceChild_eq hn hp hl]
  simp [replaceNode, hn', hnp, bind, Except.bind]

theorem links_detachAll_mem (cs : List NodeId) (h : id ∈ cs) :
    (cs.foldl (·.setParent · none) a).links id =
      (a.links id).map fun l => { l with parent := none } := by
  induction cs generalizing a with
  | nil => simp at h
  | cons c cs ih =>
    by_cases hm : id ∈ cs
    · by_cases hc : c = id
      · subst hc
        simp [ih hm, links_setParent_self, Function.comp_def]
      · simp [ih hm, links_setParent_ne hc]
    · obtain rfl : id = c := by simpa [hm] using h
      clear ih h
      rw [List.foldl_cons]
      have hrest : ∀ b : Arena, (cs.foldl (·.setParent · none) b).links id = b.links id := by
        induction cs with
        | nil => intro b; rfl
        | cons d ds ih =>
          intro b
          simp only [List.mem_cons, not_or] at hm
          rw [List.foldl_cons, ih hm.2, links_setParent_ne (Ne.symm hm.1)]
      rw [hrest, links_setParent_self]

theorem links_detachAll_not_mem (cs : List NodeId) (h : id ∉ cs) :
    (cs.foldl (·.setParent · none) a).links id = a.links id := by
  induction cs generalizing a with
  | nil => rfl
  | cons c cs ih =>
    simp only [List.mem_cons, not_or] at h
    rw [List.foldl_cons, ih h.2, links_setParent_ne (Ne.symm h.1)]

theorem label_detachAll (cs : List NodeId) :
    (cs.foldl (·.setParent · none) a).label id = a.label id := by
  induction cs generalizing a with
  | nil => rfl
  | cons c cs ih => rw [List.foldl_cons, ih, label_setParent]

theorem label_takeChildren : (a.takeChildren other).2.label id = a.label id := by
  rw [takeChildren, label_detachAll, label_setChildren]

end BlockLang.Arena
