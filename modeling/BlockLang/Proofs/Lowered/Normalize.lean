import BlockLang.Lowered.Normalize
import BlockLang.Proofs.Session.Build
import BlockLang.Proofs.Grammar.Shape

/-!
# What normal form does to a tree

`Tree.normalized` is the tree that is left. No label changes but for the mark of the
places that can be stored to, and each store to anything else has been reported once
(`Normal`).
-/

namespace BlockLang

open BlockLang.Tree (idsOf)
open BlockLang.Frame (plug)

/-- Whether a node of this kind can be a place that is stored to. -/
def NodeKind.isPlace : NodeKind → Bool
  | .symbol _ | .index | .field _ => true
  | _ => false

/-- The children that a node of this kind stores to, each with the operation. -/
def NodeKind.stores : NodeKind → List (Nat × String)
  | .assign => [(0, "=")]
  | .refBind => [(0, "@="), (1, "@=")]
  | .varDecl _ _ true => [(0, "@=")]
  | _ => []

namespace Arena

variable {a b : Arena} {ids : List NodeId}

/-- Whether a node of this kind and with these children is a place that is stored to. -/
def places (a : Arena) : NodeKind → List NodeId → Bool
  | .symbol _, _ => true
  | .index, base :: _ | .field _, base :: _ => (a.facts base).lvalue
  | _, _ => false

/-- What is reported of a store to the child at `index`. -/
def objections (a : Arena) (ids : List NodeId) (index : Nat) (operation : String) :
    List Diagnostic :=
  match ids[index]? with
  | some target =>
    if (a.facts target).lvalue then []
    else [.error (.notAnLvalue operation) (a.span target).start]
  | none => []

/-- What is reported of a node of this kind and with these children. -/
def misplaced (a : Arena) (kind : NodeKind) (ids : List NodeId) : List Diagnostic :=
  kind.stores.flatMap fun (index, operation) => a.objections ids index operation

theorem places_congr (h : ∀ id ∈ ids, b.label id = a.label id) :
    b.places k ids = a.places k ids := by
  unfold places
  split <;> first | rfl | exact congrArg Facts.lvalue (facts_congr (h _ List.mem_cons_self))

theorem objections_congr (h : ∀ id ∈ ids, b.label id = a.label id) (index : Nat)
    (operation : String) : b.objections ids index operation = a.objections ids index operation := by
  unfold objections
  split
  · next target ht =>
    have hl := h target (List.mem_of_getElem? ht)
    rw [facts_congr hl, span_congr hl]
  · rfl

theorem misplaced_congr (h : ∀ id ∈ ids, b.label id = a.label id) :
    b.misplaced k ids = a.misplaced k ids := by
  unfold misplaced
  simp only [objections_congr h]

theorem places_of_not_isPlace (h : k.isPlace = false) : a.places k ids = false := by
  cases k <;> first | rfl | cases h

end Arena

namespace Tree

/-- A node whose children are in normal form. -/
def collapse (id : NodeId) (kind : NodeKind) (children : List Tree) : Tree :=
  match kind, children with
  | .block, [node _ .exprStmt (expression :: _)] => expression
  | .block, [only] => if only.kind.isExpression then only else node id .block [only]
  | kind, children => node id kind children

mutual
/-- The tree in normal form. -/
def normalized : Tree → Tree
  | node id kind children => collapse id kind (normalizedAll children)
def normalizedAll : List Tree → List Tree
  | [] => []
  | t :: ts => t.normalized :: normalizedAll ts
end

theorem normalized_node : (node i k cs).normalized = collapse i k (normalizedAll cs) := by
  rw [normalized]

theorem normalizedAll_eq_map (ts : List Tree) : normalizedAll ts = ts.map normalized := by
  induction ts with
  | nil => rw [normalizedAll, List.map_nil]
  | cons t ts ih => rw [normalizedAll, ih, List.map_cons]

/-- What a node comes down to: itself, or the expression that a block holds. -/
theorem collapse_cases (i : NodeId) (k : NodeKind) (cs : List Tree) :
    collapse i k cs = node i k cs ∨ k = .block ∧ ∃ e, collapse i k cs = e ∧
      (cs = [e] ∧ e.kind.isExpression = true ∨ ∃ j es, cs = [node j .exprStmt (e :: es)]) := by
  unfold collapse
  split
  · exact .inr ⟨rfl, _, rfl, .inr ⟨_, _, rfl⟩⟩
  · split
    · rename_i h
      exact .inr ⟨rfl, _, rfl, .inl ⟨rfl, h⟩⟩
    · exact .inl rfl
  · exact .inl rfl

theorem operands_map (f : Tree → Tree) :
    (node i k (cs.map f)).operands = (node i k cs).operands.map f := by
  cases k <;> simp [operands, List.map_take]

theorem collapse_of_ne (h : k ≠ .block) : collapse i k cs = node i k cs := by
  rcases collapse_cases i k cs with h' | ⟨h', -⟩
  · exact h'
  · exact absurd h' h

theorem isOperand_of_isExpression {k : NodeKind} (h : k.isExpression = true) :
    k.isOperand = true := by
  cases k <;> first | rfl | exact h

/-- No import comes in with normal form. -/
theorem ImportFree.normalized {t : Tree} (h : t.ImportFree) : t.normalized.ImportFree := by
  induction t with
  | node i k cs ih =>
    obtain ⟨hcs, hk⟩ := importFree_node.mp h
    have hnormal : (node i k (normalizedAll cs)).ImportFree := by
      refine importFree_node.mpr ⟨fun c hc => ?_, hk⟩
      rw [normalizedAll_eq_map] at hc
      obtain ⟨d, hd, rfl⟩ := List.mem_map.mp hc
      exact ih d hd (hcs d hd)
    rw [normalized_node]
    rcases collapse_cases i k (normalizedAll cs) with he | ⟨rfl, e, he, ⟨hcs', -⟩ | ⟨j, es, hcs'⟩⟩
    · rw [he]
      exact hnormal
    · rw [he]
      exact hnormal.child (by simp [hcs'])
    · have hst := hnormal.child (c := node j .exprStmt (e :: es)) (by simp [hcs'])
      rw [he]
      exact hst.child List.mem_cons_self

/-- Normal form is a written form, and what stands for a value still can. -/
theorem source_normalized (t : Tree) (h : t.Source) :
    t.normalized.Source ∧ (t.kind.isOperand → t.normalized.kind.isOperand) := by
  induction t with
  | node i k cs ih =>
    have hchild : ∀ c ∈ cs,
        c.normalized.Source ∧ (c.kind.isOperand → c.normalized.kind.isOperand) :=
      fun c hc => ih c hc (Source.child h hc)
    have hcs : ∀ c ∈ normalizedAll cs, c.Source := by
      rw [normalizedAll_eq_map]
      intro c hc
      obtain ⟨d, hd, rfl⟩ := List.mem_map.mp hc
      exact (hchild d hd).1
    have hshaped : (node i k (normalizedAll cs)).Shaped := by
      rw [normalizedAll_eq_map]
      refine ⟨by simpa using h.self.arity, fun c hc => ?_⟩
      rw [operands_map] at hc
      obtain ⟨d, hd, rfl⟩ := List.mem_map.mp hc
      have hmem : d ∈ cs := by
        cases k <;> first
          | exact hd
          | exact List.mem_of_mem_take hd
          | exact absurd hd (by simp [operands])
      have hvalue := h.self.operands d hd
      exact ⟨(hchild d hmem).2 hvalue.kind, hvalue.importFree.normalized⟩
    rw [normalized_node]
    rcases collapse_cases i k (normalizedAll cs) with he | ⟨rfl, e, he, ⟨hcs', hk⟩ | ⟨j, es, hcs'⟩⟩
    · rw [he]
      exact ⟨every_node.mpr ⟨hcs, hshaped⟩, fun hk => hk⟩
    · rw [he]
      exact ⟨hcs e (by simp [hcs']), fun _ => isOperand_of_isExpression hk⟩
    · have hst := hcs (node j .exprStmt (e :: es)) (by simp [hcs'])
      rw [he]
      exact ⟨hst.child List.mem_cons_self,
        fun _ => (hst.self.operands e (by simp [operands])).kind⟩

/-- Among written nodes an expression statement has nothing but its expression. -/
theorem collapse_cases_of_source (hcs : ∀ c ∈ cs, c.Source) :
    collapse i k cs = node i k cs ∨ k = .block ∧ ∃ e, collapse i k cs = e ∧
      (cs = [e] ∨ ∃ j, cs = [node j .exprStmt [e]]) := by
  refine (collapse_cases i k cs).imp_right ?_
  rintro ⟨hk, e, he, ⟨h, -⟩ | ⟨j, es, rfl⟩⟩
  · exact ⟨hk, e, he, .inl h⟩
  · obtain ⟨e', hes, -⟩ := (hcs _ List.mem_cons_self).shaped.exprStmt
    obtain ⟨rfl, rfl⟩ := List.cons.inj hes
    exact ⟨hk, e, he, .inr ⟨j, rfl⟩⟩

theorem ids_collapse_subset : (collapse i k cs).ids ⊆ (node i k cs).ids := by
  rcases collapse_cases i k cs with h | ⟨rfl, e, h, ⟨rfl, -⟩ | ⟨j, es, rfl⟩⟩ <;> rw [h]
  · exact List.Subset.refl _
  · simp
  · simp [List.append_assoc]

theorem ids_normalized_subset (t : Tree) : t.normalized.ids ⊆ t.ids := by
  induction t with
  | node i k cs ih =>
    rw [normalized_node]
    refine List.Subset.trans ids_collapse_subset fun x hx => ?_
    simp only [ids_node, List.mem_append] at hx ⊢
    refine hx.imp_left fun hx => ?_
    rw [normalizedAll_eq_map] at hx
    obtain ⟨c, hc, hx⟩ := Tree.mem_idsOf.mp hx
    obtain ⟨d, hd, rfl⟩ := List.mem_map.mp hc
    exact Tree.mem_idsOf.mpr ⟨d, hd, ih d hd hx⟩

end Tree

-- ---------------------------------------------------------------------------
-- One node
-- ---------------------------------------------------------------------------

/-- Only marks of places have changed and diagnostics have been added. -/
structure Marks (s s' : Session) : Prop where
  labels : ∀ id l, s.tree.label id = some l →
    ∃ lvalue, s'.tree.label id = some { l with facts := { l.facts with lvalue } }
  size : s'.tree.size = s.tree.size
  report : ∃ ds, s'.report = s.report ++ ds
  rest : s' = { s with tree := s'.tree, report := s'.report }

theorem Marks.refl (s : Session) : Marks s s :=
  ⟨fun _ l hl => ⟨l.facts.lvalue, hl⟩, rfl, ⟨[], by simp⟩, rfl⟩

theorem Marks.trans (h : Marks s s') (h' : Marks s' s'') : Marks s s'' := by
  obtain ⟨ds, hds⟩ := h.report
  obtain ⟨es, hes⟩ := h'.report
  refine ⟨fun id l hl => ?_, h'.size.trans h.size, ⟨ds ++ es, ?_⟩, ?_⟩
  · obtain ⟨v, hv⟩ := h.labels id l hl
    obtain ⟨w, hw⟩ := h'.labels id _ hv
    exact ⟨w, hw⟩
  · rw [hes, hds, List.append_assoc]
  · rw [h'.rest, h.rest]

theorem Marks.of_tree {tree : Arena} (h : s.tree.SameLabels tree) : Marks s { s with tree } :=
  ⟨fun id l hl => ⟨l.facts.lvalue, (h id).trans hl⟩, h.size_eq, ⟨[], by simp⟩, rfl⟩

namespace Normalize

/-- The block stays, or gives way to an expression. -/
theorem soleExpression?_cases {a : Arena} {cs : List Tree} (h : a.Holds q (.node i .block cs)) :
    (soleExpression? a i = none ∧ Tree.collapse i .block cs = .node i .block cs) ∨
      (∃ e, cs = [e] ∧ Tree.collapse i .block cs = e ∧
        soleExpression? a i = some (e.handle, e.handle)) ∨
      ∃ j e es, cs = [.node j .exprStmt (e :: es)] ∧ Tree.collapse i .block cs = e ∧
        soleExpression? a i = some (j, e.handle) := by
  have hc : a.children i = cs.map Tree.handle := h.children
  unfold soleExpression?
  match cs with
  | [] => exact .inl ⟨by simp [hc], rfl⟩
  | _ :: _ :: _ => exact .inl ⟨by simp [hc], by simp [Tree.collapse]⟩
  | [.node j k es] =>
    have honly : a.Holds (some i) (.node j k es) := by simpa using h.below
    have hk : a.kind j = k := honly.kind
    have he : a.children j = es.map Tree.handle := honly.children
    simp only [hc, List.map_cons, List.map_nil, Tree.handle_node, hk]
    cases k with
    | exprStmt =>
      cases es with
      | nil => exact .inl ⟨by simp [Arena.child?, he], rfl⟩
      | cons e es => exact .inr (.inr ⟨j, e, es, rfl, rfl, by simp [Arena.child?, he]⟩)
    | _ =>
      first
        | exact .inr (.inl ⟨_, rfl, rfl, rfl⟩)
        | exact .inl ⟨rfl, rfl⟩

variable {s : Session} {f : Frame} {fs : List Frame} {cs us : List Tree}

theorem returns_collapseBlock (h : s.tree.Forest (plug (f :: fs) [.node i .block cs] ++ us)) :
    Returns (collapseBlock i) s fun _ s' =>
      s'.tree.Forest (plug (f :: fs) [Tree.collapse i .block cs] ++ us) ∧ Rearranges s s' := by
  have hnode := h.gap
  have hparent : s.tree.parent i = some f.id := hnode.parent_eq
  unfold collapseBlock
  simp only [Returns, triple_bind, Pass.triple_tree, hparent]
  rcases soleExpression?_cases hnode with ⟨hsole, he⟩ | ⟨e, rfl, he, hsole⟩ |
      ⟨j, e, es, rfl, he, hsole⟩
  · rw [hsole, he, triple_pure]
    exact ⟨h, .refl s⟩
  · simp only [hsole, he, triple_bind, ne_eq, not_true_eq_false, ↓reduceIte]
    refine (Pass.triple_take h).imp ?_
    rintro - s₁ ⟨-, h₁, hr₁⟩
    refine (Pass.triple_replaceNode h₁).imp ?_
    rintro - s₂ ⟨h₂, hr₂⟩
    exact ⟨h₂.drop, hr₁.trans hr₂⟩
  · have hne : e.handle ≠ j := by
      have hids : (Tree.node j .exprStmt (e :: es)).ids.Nodup := by
        have hn := (Arena.forest_plug.mp h).2.2.2.of_append_right.of_append_left
        simp only [Tree.idsOf_cons, Tree.ids_node] at hn ⊢
        exact hn.of_append_left.of_append_left.of_append_left
      rw [Tree.ids_node, List.nodup_append] at hids
      exact hids.2.2 _ (Tree.handle_mem_idsOf List.mem_cons_self) j (by simp)
    simp only [hsole, he, triple_bind, ne_eq, hne, not_false_eq_true, ↓reduceIte]
    refine (Pass.triple_take h).imp ?_
    rintro - s₁ ⟨-, h₁, hr₁⟩
    -- the statement is looked at as a tree of its own
    have hst : s₁.tree.Forest
        (plug [] [.node j .exprStmt (e :: es)] ++ (plug (f :: fs) [.node i .block []] ++ us)) :=
      h₁.perm List.perm_middle
    refine (Pass.triple_take hst).imp ?_
    rintro - s₂ ⟨-, h₂, hr₂⟩
    have hblock : s₂.tree.Forest (plug (f :: fs) [.node i .block []] ++ e :: us) := by
      have h₂' : s₂.tree.Forest (e :: (es ++ (plug (f :: fs) [.node i .block []] ++ us))) :=
        Arena.Forest.tail h₂
      exact (h₂'.perm List.perm_middle.symm).right.perm List.perm_middle.symm
    refine (Pass.triple_replaceNode hblock).imp ?_
    rintro - s₃ ⟨h₃, hr₃⟩
    exact ⟨h₃.drop, (hr₁.trans hr₂).trans hr₃⟩

/-- What the visit of a node whose children are done leaves behind. -/
structure Visited (s s' : Session) (i : NodeId) (k : NodeKind) (ids : List NodeId) : Prop where
  marks : Marks s s'
  others : ∀ id ≠ i, s'.tree.label id = s.tree.label id
  unmarked : k.isPlace = false → s'.tree.label i = s.tree.label i
  place : k.isPlace = true → (s'.tree.facts i).lvalue = s.tree.places k ids
  report : s'.report = s.report ++ s.tree.misplaced k ids

theorem visited_of_rearranges (h : Rearranges s s') (hk : k.isPlace = false)
    (hs : k.stores = []) : Visited s s' i k ids := by
  refine ⟨?_, fun id _ => h.labels id, fun _ => h.labels i, fun he => ?_, ?_⟩
  · rw [h.rest]
    exact .of_tree h.labels
  · rw [hk] at he
    cases he
  · rw [h.rest, Arena.misplaced, hs, List.flatMap_nil, List.append_nil]

theorem visited_mark (hi : s.tree.label i = some l) (hk : k.isPlace = true) :
    Visited s { s with tree := s.tree.annotate i ({ · with lvalue := s.tree.places k ids }) }
      i k ids := by
  have hself : (s.tree.annotate i ({ · with lvalue := s.tree.places k ids })).label i =
      some { l with facts := { l.facts with lvalue := s.tree.places k ids } } := by
    rw [Arena.label_annotate_self, hi, Option.map_some]
  refine ⟨⟨fun id m hm => ?_, by simp [Arena.annotate], ⟨[], by simp⟩, rfl⟩,
    fun id hne => Arena.label_annotate_ne (Ne.symm hne) _, fun h => ?_, fun _ => ?_, ?_⟩
  · by_cases h : i = id
    · subst h
      obtain rfl := Option.some.inj (hi.symm.trans hm)
      exact ⟨_, hself⟩
    · exact ⟨m.facts.lvalue, (Arena.label_annotate_ne h _).trans hm⟩
  · rw [hk] at h
    cases h
  · exact congrArg Facts.lvalue (Arena.facts_of_label hself)
  · cases k <;> first | cases hk; done | simp [Arena.misplaced, NodeKind.stores]

/-- A child that is no place is reported. -/
theorem returns_checkPlace (h : s.tree.Holds q (.node i k cs)) (index : Nat) (operation : String) :
    Returns (checkPlace i index operation) s fun _ s' =>
      s' = { s with report := s.report ++
        s.tree.objections (cs.map Tree.handle) index operation } := by
  have hc : s.tree.children i = cs.map Tree.handle := h.children
  unfold checkPlace Arena.objections
  simp only [Returns, triple_bind, Pass.triple_child?, Arena.child?, hc]
  cases (cs.map Tree.handle)[index]? with
  | none => simp [triple_pure]
  | some target =>
    simp only [triple_bind, Pass.triple_factsOf]
    cases (s.tree.facts target).lvalue with
    | true => simp [triple_pure]
    | false => simp [Pass.triple_reportAt]

theorem visited_of_report (h : s' = { s with report := s.report ++ s.tree.misplaced k ids })
    (hk : k.isPlace = false) : Visited s s' i k ids := by
  subst h
  refine ⟨⟨fun _ l hl => ⟨l.facts.lvalue, hl⟩, rfl, ⟨_, rfl⟩, rfl⟩, fun _ _ => rfl,
    fun _ => rfl, fun he => ?_, rfl⟩
  rw [hk] at he
  cases he

theorem returns_mark (h : s.tree.Forest (plug (f :: fs) [.node i k cs] ++ us))
    (hk : k.isPlace = true) (hl : lvalue = s.tree.places k (cs.map Tree.handle)) :
    Returns (mark i lvalue) s fun _ s' =>
      s'.tree.Forest (plug (f :: fs) [Tree.collapse i k cs] ++ us) ∧
        Visited s s' i k (cs.map Tree.handle) := by
  have hne : k ≠ .block := by
    rintro rfl
    simp [NodeKind.isPlace] at hk
  have hi := Arena.label_of_links (Arena.holds_node.mp h.gap).1
  subst hl
  rw [Tree.collapse_of_ne hne, mark, Returns, Pass.triple_annotate]
  exact ⟨h.congr fun j _ => Arena.links_annotate _, visited_mark hi hk⟩

theorem returns_visit (h : s.tree.Forest (plug (f :: fs) [.node i k cs] ++ us)) :
    Returns (visit i) s fun _ s' =>
      s'.tree.Forest (plug (f :: fs) [Tree.collapse i k cs] ++ us) ∧
        Visited s s' i k (cs.map Tree.handle) := by
  have hnode := h.gap
  have hkind : s.tree.kind i = k := hnode.kind
  have hbase : s.tree.child? i 0 = (cs.map Tree.handle).head? := by
    have hc : s.tree.children i = cs.map Tree.handle := hnode.children
    rw [Arena.child?, hc, ← List.head?_eq_getElem?]
  have hidle : ∀ s', s' = s → k.isPlace = false → k.stores = [] →
      Visited s s' i k (cs.map Tree.handle) := by
    rintro _ rfl hk hs
    exact visited_of_rearranges (.refl _) hk hs
  unfold visit
  simp only [Returns, triple_bind, Pass.triple_kindOf, hkind]
  cases k with
  | block =>
    refine (returns_collapseBlock h).imp ?_
    rintro - s' ⟨hf, hr⟩
    exact ⟨hf, visited_of_rearranges hr rfl rfl⟩
  | symbol name => exact returns_mark h rfl rfl
  | index =>
    simp only [triple_bind, Pass.triple_child?, hbase]
    cases cs with
    | nil => exact returns_mark h rfl rfl
    | cons base cs => exact returns_mark h rfl rfl
  | field name =>
    simp only [triple_bind, Pass.triple_child?, hbase]
    cases cs with
    | nil => exact returns_mark h rfl rfl
    | cons base cs => exact returns_mark h rfl rfl
  | assign =>
    refine (returns_checkPlace hnode 0 "=").imp ?_
    rintro - s' hs
    exact ⟨by rw [hs]; exact h, visited_of_report (by simpa [Arena.misplaced, NodeKind.stores]) rfl⟩
  | refBind =>
    simp only [triple_bind]
    refine (returns_checkPlace hnode 0 "@=").imp ?_
    rintro - s₁ hs₁
    have hnode₁ : s₁.tree.Holds (Frame.top (f :: fs)) (.node i .refBind cs) := by
      rw [hs₁]
      exact hnode
    refine (returns_checkPlace hnode₁ 1 "@=").imp ?_
    rintro - s₂ hs₂
    subst hs₁
    refine ⟨by rw [hs₂]; exact h, visited_of_report ?_ rfl⟩
    simpa [Arena.misplaced, NodeKind.stores, List.append_assoc] using hs₂
  | varDecl d declared isRef =>
    cases isRef with
    | true =>
      refine (returns_checkPlace hnode 0 "@=").imp ?_
      rintro - s' hs
      exact ⟨by rw [hs]; exact h,
        visited_of_report (by simpa [Arena.misplaced, NodeKind.stores]) rfl⟩
    | false => exact ⟨h, hidle _ rfl rfl rfl⟩
  | _ => exact ⟨h, hidle _ rfl rfl rfl⟩

-- ---------------------------------------------------------------------------
-- The whole tree
-- ---------------------------------------------------------------------------

/-- A node is marked just when it is a place. -/
def Placed (a : Arena) (u : Tree) : Prop :=
  (a.facts u.handle).lvalue = a.places u.kind (u.children.map Tree.handle)

/-- What is reported of a tree, of each node after those below it. -/
def complaints (a : Arena) (ts : List Tree) : List Diagnostic :=
  (Tree.subtreesOf ts).flatMap fun u => a.misplaced u.kind (u.children.map Tree.handle)

section
variable {a b : Arena} {t : Tree}

theorem Placed.congr (h : t.Every (Placed a)) (hl : ∀ id ∈ t.ids, b.label id = a.label id) :
    t.Every (Placed b) := by
  intro u hu
  have hbelow : ∀ id ∈ u.children.map Tree.handle, b.label id = a.label id := by
    intro id hid
    obtain ⟨c, hc, rfl⟩ := List.mem_map.mp hid
    exact hl _ (Tree.mem_ids.mpr ⟨c, Tree.subtrees_trans hu (Tree.child_mem_subtrees hc), rfl⟩)
  have hself := hl u.handle (Tree.mem_ids.mpr ⟨u, hu, rfl⟩)
  rw [Placed, Arena.facts_congr hself, Arena.places_congr hbelow]
  exact h u hu

@[simp] theorem complaints_nil : complaints a [] = [] := by simp [complaints]

@[simp] theorem complaints_cons : complaints a (t :: ts) =
    complaints a [t] ++ complaints a ts := by
  simp [complaints]

theorem complaints_congr {ts : List Tree} (hl : ∀ id ∈ idsOf ts, b.label id = a.label id) :
    complaints b ts = complaints a ts := by
  refine List.flatMap_congr fun u hu => Arena.misplaced_congr fun id hid => hl id ?_
  obtain ⟨c, hc, rfl⟩ := List.mem_map.mp hid
  obtain ⟨t, ht, hu⟩ := Tree.mem_subtreesOf.mp hu
  exact Tree.mem_idsOf.mpr ⟨t, ht,
    Tree.mem_ids.mpr ⟨c, Tree.subtrees_trans hu (Tree.child_mem_subtrees hc), rfl⟩⟩

end

/-- What normal form leaves behind of trees. -/
structure Normal (s s' : Session) (ts : List Tree) : Prop where
  marks : Marks s s'
  others : ∀ id, id ∉ idsOf ts → s'.tree.label id = s.tree.label id
  placed : ∀ t ∈ ts, t.normalized.Every (Placed s'.tree)
  report : s'.report = s.report ++ complaints s'.tree (ts.map Tree.normalized)

/-- Nothing is marked yet. -/
abbrev Unmarked (s : Session) (t : Tree) : Prop :=
  t.Every fun u => (s.tree.facts u.handle).lvalue = false

theorem returns_bottomUp_all {walk : NodeId → Pass Unit} (left right : List Tree)
    (hwalk : ∀ c ∈ right, ∀ s f fs us, s.tree.Forest (plug (f :: fs) [c] ++ us) → Unmarked s c →
      Returns (walk c.handle) s fun _ s' =>
        s'.tree.Forest (plug (f :: fs) [c.normalized] ++ us) ∧ Normal s s' [c])
    (h : s.tree.Forest (plug fs [.node i k (left ++ right)] ++ us))
    (hu : ∀ c ∈ right, Unmarked s c) :
    Returns ((right.map Tree.handle).forM walk) s fun _ s' =>
      s'.tree.Forest (plug fs [.node i k (left ++ right.map Tree.normalized)] ++ us) ∧
        Normal s s' right := by
  induction right generalizing s left with
  | nil =>
    exact ⟨by simpa using h, .refl s, fun _ _ => rfl, by simp, by simp⟩
  | cons c right ih =>
    have hc : s.tree.Forest (plug (⟨i, k, left, right⟩ :: fs) [c] ++ us) := by
      simpa [plug] using h
    -- the nodes of `c` and of the rest are different ones
    have hdisj : ∀ x ∈ c.ids, x ∉ idsOf right := by
      have hn := (Arena.forest_plug.mp hc).2.2.2
      simp only [Frame.ids, Tree.idsOf_cons, Tree.idsOf_nil, List.append_nil, List.cons_append,
        List.nodup_cons, List.nodup_append, List.mem_append] at hn
      exact fun x hx hr => hn.2.2.2 x (.inl (.inr hr)) x (.inl hx) rfl
    simp only [List.map_cons, Returns, triple_forM_cons]
    refine (hwalk c (by simp) s _ _ us hc (hu c (by simp))).imp ?_
    rintro - s₁ ⟨h₁, hn₁⟩
    have h₁' : s₁.tree.Forest (plug fs [.node i k (left ++ [c.normalized] ++ right)] ++ us) := by
      simpa [plug] using h₁
    have hu₁ : ∀ d ∈ right, Unmarked s₁ d := by
      intro d hd u hu'
      have hx : u.handle ∈ idsOf right :=
        Tree.mem_idsOf.mpr ⟨d, hd, Tree.mem_ids.mpr ⟨u, hu', rfl⟩⟩
      rw [Arena.facts_congr (hn₁.others _ fun hm => hdisj _ (by simpa using hm) hx)]
      exact hu d (by simp [hd]) u hu'
    refine (ih _ (fun d hd => hwalk d (by simp [hd])) h₁' hu₁).imp ?_
    rintro - s₂ ⟨h₂, hn₂⟩
    have hkept : ∀ x ∈ c.normalized.ids, s₂.tree.label x = s₁.tree.label x :=
      fun x hx => hn₂.others x (hdisj x (c.ids_normalized_subset hx))
    refine ⟨by simpa using h₂, hn₁.marks.trans hn₂.marks, fun id hid => ?_, ?_, ?_⟩
    · simp only [Tree.idsOf_cons, List.mem_append, not_or] at hid
      rw [hn₂.others id hid.2, hn₁.others id (by simpa using hid.1)]
    · simp only [List.mem_cons, forall_eq_or_imp]
      exact ⟨Placed.congr (hn₁.placed c (by simp)) hkept, hn₂.placed⟩
    · have hfirst : complaints s₂.tree [c.normalized] = complaints s₁.tree [c.normalized] :=
        complaints_congr (by simpa using hkept)
      rw [List.map_cons, complaints_cons, hn₂.report, hn₁.report, List.map_singleton, hfirst,
        List.append_assoc]

theorem complaints_node : complaints a [.node i k cs] =
    complaints a cs ++ a.misplaced k (cs.map Tree.handle) := by
  simp [complaints]

/-- Nothing is reported of what a block loses. -/
theorem complaints_collapse (hcs : ∀ c ∈ cs, c.Source) : complaints a [Tree.collapse i k cs] =
    complaints a cs ++ a.misplaced k (cs.map Tree.handle) := by
  have hblock : ∀ ids, a.misplaced .block ids = [] := fun _ => rfl
  have hstatement : ∀ ids, a.misplaced .exprStmt ids = [] := fun _ => rfl
  rcases Tree.collapse_cases_of_source (i := i) (k := k) hcs with
    he | ⟨rfl, e, he, rfl | ⟨j, rfl⟩⟩ <;> rw [he]
  · exact complaints_node
  · rw [hblock, List.append_nil]
  · rw [complaints_node, hstatement, hblock, List.append_nil, List.append_nil]

/-- The visit of a node completes what its children began. -/
theorem Normal.visited (hn : Normal s s₁ cs)
    (hv : Visited s₁ s₂ i k ((cs.map Tree.normalized).map Tree.handle))
    (hu : (s.tree.facts i).lvalue = false) (hself : i ∉ idsOf cs) (hcs : ∀ c ∈ cs, c.Source) :
    Normal s s₂ [.node i k cs] := by
  have hnormal : (Tree.node i k cs).normalized = Tree.collapse i k (cs.map Tree.normalized) := by
    rw [Tree.normalized_node, Tree.normalizedAll_eq_map]
  have hsource : ∀ c ∈ cs.map Tree.normalized, c.Source := by
    intro c hc
    obtain ⟨d, hd, rfl⟩ := List.mem_map.mp hc
    exact (Tree.source_normalized d (hcs d hd)).1
  have hkept : ∀ x ∈ idsOf (cs.map Tree.normalized), s₂.tree.label x = s₁.tree.label x := by
    intro x hx
    obtain ⟨c, hc, hx⟩ := Tree.mem_idsOf.mp hx
    obtain ⟨d, hd, rfl⟩ := List.mem_map.mp hc
    refine hv.others x ?_
    rintro rfl
    exact hself (Tree.mem_idsOf.mpr ⟨d, hd, d.ids_normalized_subset hx⟩)
  have hhandles : ∀ x ∈ (cs.map Tree.normalized).map Tree.handle,
      s₂.tree.label x = s₁.tree.label x := by
    intro x hx
    obtain ⟨c, hc, rfl⟩ := List.mem_map.mp hx
    exact hkept _ (Tree.handle_mem_idsOf hc)
  have hbelow : ∀ c ∈ cs.map Tree.normalized, c.Every (Placed s₂.tree) := by
    intro c hc
    obtain ⟨d, hd, rfl⟩ := List.mem_map.mp hc
    exact Placed.congr (hn.placed d hd) fun x hx => hkept x (Tree.mem_idsOf.mpr ⟨_, hc, hx⟩)
  refine ⟨hn.marks.trans hv.marks, fun id hid => ?_, ?_, ?_⟩
  · simp only [Tree.idsOf_cons, Tree.ids_node, Tree.idsOf_nil, List.append_nil, List.mem_append,
      List.mem_singleton, not_or] at hid
    rw [hv.others id hid.2, hn.others id hid.1]
  · simp only [List.mem_singleton, forall_eq, hnormal]
    rcases Tree.collapse_cases_of_source (i := i) (k := k) hsource with
      he | ⟨-, e, he, hcs' | ⟨j, hcs'⟩⟩ <;> rw [he]
    · refine Tree.every_node.mpr ⟨hbelow, ?_⟩
      show (s₂.tree.facts i).lvalue = _
      rw [Tree.kind_node, Tree.children_node, Arena.places_congr hhandles]
      cases hk : k.isPlace with
      | true => exact hv.place hk
      | false =>
        rw [Arena.places_of_not_isPlace hk,
          Arena.facts_congr ((hv.unmarked hk).trans (hn.others i hself)), hu]
    · exact hbelow e (by simp [hcs'])
    · have hst := hbelow (.node j .exprStmt [e]) (by simp [hcs'])
      exact Tree.Every.child hst List.mem_cons_self
  · rw [List.map_singleton, hnormal, complaints_collapse hsource, hv.report, hn.report,
      complaints_congr hkept, Arena.misplaced_congr hhandles, List.append_assoc]

theorem returns_bottomUp (depth : Nat) {t : Tree} (hd : t.height ≤ depth)
    (h : s.tree.Forest (plug (f :: fs) [t] ++ us)) (hu : Unmarked s t) (hs : t.Source) :
    Returns (Walk.bottomUp Pass.childrenOf visit depth t.handle) s fun _ s' =>
      s'.tree.Forest (plug (f :: fs) [t.normalized] ++ us) ∧ Normal s s' [t] := by
  induction depth generalizing s t f fs us with
  | zero =>
    cases t
    simp at hd
  | succ depth ih =>
    cases t with
    | node i k cs =>
      have hheight : ∀ c ∈ cs, c.height ≤ depth := by
        intro c hc
        have := Tree.height_le_heightOf hc
        rw [Tree.height_node] at hd
        omega
      have hchildren : s.tree.children i = cs.map Tree.handle := h.gap.children
      unfold Walk.bottomUp
      simp only [Returns, triple_bind, Pass.triple_childrenOf, Tree.handle_node, hchildren]
      refine (returns_bottomUp_all [] cs
        (fun c hc s f fs us hf hu => ih (hheight c hc) hf hu (hs.child hc)) h
        fun c hc => Tree.Every.child hu hc).imp ?_
      rintro - s₁ ⟨h₁, hn₁⟩
      refine (returns_visit h₁).imp ?_
      rintro - s₂ ⟨h₂, hv⟩
      have hself : i ∉ idsOf cs := by
        have hn := (Arena.forest_plug.mp h).2.2.2.of_append_right.of_append_left
        simp only [Tree.idsOf_cons, Tree.ids_node, Tree.idsOf_nil, List.append_nil,
          List.nodup_append] at hn
        exact fun hm => hn.2.2 i hm i (by simp) rfl
      rw [Tree.normalized_node, Tree.normalizedAll_eq_map]
      exact ⟨h₂, hn₁.visited hv hu.self hself fun c hc => hs.child hc⟩

end Normalize

/-- Normal form of a module, whose root stays. -/
theorem returns_normalize {ts us : List Tree}
    (h : s.tree.Forest (.node root (.moduleRoot name) ts :: us))
    (hu : ∀ t ∈ ts, Normalize.Unmarked s t) (hs : ∀ t ∈ ts, t.Source) :
    Returns (normalize root) s fun _ s' =>
      s'.tree.Forest (.node root (.moduleRoot name) (ts.map Tree.normalized) :: us) ∧
        Normalize.Normal s s' ts := by
  have hroot := h.head
  have hheight := hroot.1.height_le hroot.2
  have hkind : s.tree.children root = ts.map Tree.handle := hroot.1.children
  unfold normalize
  simp only [Returns, triple_bind, Pass.triple_tree]
  cases hsize : s.tree.size with
  | zero => simp [hsize] at hheight
  | succ depth =>
    have hd : ∀ c ∈ ts, c.height ≤ depth := by
      intro c hc
      have := Tree.height_le_heightOf hc
      rw [Tree.height_node] at hheight
      omega
    have h' : s.tree.Forest (plug [] [.node root (.moduleRoot name) ([] ++ ts)] ++ us) := h
    unfold Walk.bottomUp
    simp only [triple_bind, Pass.triple_childrenOf, hkind]
    refine (Normalize.returns_bottomUp_all [] ts
      (fun c hc s f fs us hf hu => Normalize.returns_bottomUp depth (hd c hc) hf hu (hs c hc))
      h' hu).imp ?_
    rintro - s₁ ⟨h₁, hn⟩
    have hkind₁ : s₁.tree.kind root = .moduleRoot name := (Arena.Forest.head h₁).1.kind
    unfold Normalize.visit
    simp only [triple_bind, Pass.triple_kindOf, hkind₁]
    exact ⟨h₁, hn⟩

end BlockLang
