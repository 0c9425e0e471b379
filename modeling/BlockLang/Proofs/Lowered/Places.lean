import BlockLang.Proofs.Lowered.Module

/-!
# Normal form of a module that was read

No block is left that could give way to an expression, and no other node is lost or moved.
The marks are those of the tree that is left, and so are the reports: each node of it is
asked once for the children that it stores to (`normalForm_of_read`).
-/

namespace BlockLang

/-- Whether normal form can drop nodes of this kind. -/
def NodeKind.isWrapper : NodeKind → Bool
  | .block | .exprStmt => true
  | _ => false

namespace Tree

variable {erased : NodeKind → Bool} {cs : List Tree}

mutual
/-- The handles of a tree without the nodes of erased kinds, each before those below it. -/
def outline (erased : NodeKind → Bool) : Tree → List NodeId
  | node id kind children =>
    if erased kind then outlineOf erased children else id :: outlineOf erased children
def outlineOf (erased : NodeKind → Bool) : List Tree → List NodeId
  | [] => []
  | t :: ts => t.outline erased ++ outlineOf erased ts
end

theorem outline_node : (node i k cs).outline erased =
    if erased k then outlineOf erased cs else i :: outlineOf erased cs := by
  rw [outline]

theorem outlineOf_eq_flatMap (ts : List Tree) :
    outlineOf erased ts = ts.flatMap (outline erased) := by
  induction ts with
  | nil => rw [outlineOf, List.flatMap_nil]
  | cons t ts ih => rw [outlineOf, ih, List.flatMap_cons]

theorem outline_collapse (hcs : ∀ c ∈ cs, c.Source) :
    (collapse i k cs).outline NodeKind.isWrapper = (node i k cs).outline NodeKind.isWrapper := by
  rcases collapse_cases_of_source (i := i) (k := k) hcs with
    he | ⟨rfl, e, he, rfl | ⟨j, rfl⟩⟩ <;> rw [he]
  · simp [outline_node, outlineOf_eq_flatMap, NodeKind.isWrapper]
  · simp [outline_node, outlineOf_eq_flatMap, NodeKind.isWrapper]

theorem source_map_normalized (h : (node i k cs).Source) : ∀ c ∈ cs.map normalized, c.Source := by
  intro c hc
  obtain ⟨d, hd, rfl⟩ := List.mem_map.mp hc
  exact (source_normalized d (h.child hd)).1

/-- Normal form keeps all other nodes in their order. -/
theorem outline_normalized (t : Tree) (h : t.Source) :
    t.normalized.outline NodeKind.isWrapper = t.outline NodeKind.isWrapper := by
  induction t with
  | node i k cs ih =>
    have hcs : outlineOf NodeKind.isWrapper (cs.map normalized) =
        outlineOf NodeKind.isWrapper cs := by
      rw [outlineOf_eq_flatMap, outlineOf_eq_flatMap, List.flatMap_map]
      exact List.flatMap_congr fun c hc => ih c hc (h.child hc)
    rw [normalized_node, normalizedAll_eq_map, outline_collapse (source_map_normalized h),
      outline_node, outline_node, hcs]

/-- The tree is no block that could give way to an expression. -/
def Irreducible (t : Tree) : Prop :=
  t.kind = .block → ∀ only, t.children = [only] →
    only.kind.isExpression = false ∧ only.kind ≠ .exprStmt

theorem irreducible_collapse (hsource : ∀ c ∈ cs, c.Source)
    (hcs : ∀ c ∈ cs, c.Every Irreducible) : (collapse i k cs).Every Irreducible := by
  unfold collapse
  split
  · exact (hcs _ List.mem_cons_self).child List.mem_cons_self
  · next only hstatement =>
    split
    · exact hcs only List.mem_cons_self
    · next hk =>
      refine every_node.mpr ⟨hcs, fun _ other hother => ?_⟩
      obtain rfl : only = other := by simpa using hother
      refine ⟨by simpa using hk, fun hexpr => ?_⟩
      obtain ⟨j, kind, es⟩ := only
      obtain rfl : kind = .exprStmt := hexpr
      obtain ⟨e, rfl, -⟩ := (hsource _ List.mem_cons_self).shaped.exprStmt
      exact hstatement j e [] rfl
  · next hone =>
    exact every_node.mpr ⟨hcs, fun hk only honly => (hone only hk honly).elim⟩

theorem irreducible_normalized (t : Tree) (h : t.Source) : t.normalized.Every Irreducible := by
  induction t with
  | node i k cs ih =>
    rw [normalized_node, normalizedAll_eq_map]
    refine irreducible_collapse (source_map_normalized h) fun c hc => ?_
    obtain ⟨d, hd, rfl⟩ := List.mem_map.mp hc
    exact ih d hd (h.child hd)

end Tree

namespace Arena

variable {a : Arena} {t : Tree}

/-- A name, or a part of a marked node. -/
def IsPlace (a : Arena) (id : NodeId) : Prop :=
  match a.kind id with
  | .symbol _ => True
  | .index | .field _ => ∃ base, a.child? id 0 = some base ∧ (a.facts base).lvalue = true
  | _ => False

theorem places_iff (a : Arena) (id : NodeId) :
    a.places (a.kind id) (a.children id) = true ↔ a.IsPlace id := by
  unfold IsPlace child?
  cases a.kind id <;> cases a.children id <;> simp [places]

theorem Holds.filter_preorderWithin (h : a.Holds q t) {depth : Nat} (hd : t.height ≤ depth)
    (erased : NodeKind → Bool) :
    (a.preorderWithin depth t.handle).filter (fun id => !erased (a.kind id)) =
      t.outline erased := by
  induction depth generalizing t q with
  | zero =>
    cases t
    simp at hd
  | succ depth ih =>
    obtain ⟨i, k, cs⟩ := t
    have hkind : a.kind i = k := h.kind
    have hchildren : a.children i = cs.map Tree.handle := h.children
    have hcs : (cs.map Tree.handle).flatMap (fun id =>
        (a.preorderWithin depth id).filter fun id => !erased (a.kind id)) =
          Tree.outlineOf erased cs := by
      rw [Tree.outlineOf_eq_flatMap, List.flatMap_map]
      refine List.flatMap_congr fun c hc => ih (holdsAll_iff.mp h.below c hc) ?_
      have := Tree.height_le_heightOf hc
      rw [Tree.height_node] at hd
      omega
    rw [Tree.handle_node, preorderWithin, Tree.outline_node, List.filter_cons,
      List.filter_flatMap, hchildren, hcs, hkind]
    cases erased k <;> rfl

theorem Holds.filter_preorder (h : a.Holds q t) (hn : t.ids.Nodup) (erased : NodeKind → Bool) :
    (a.preorder t.handle).filter (fun id => !erased (a.kind id)) = t.outline erased :=
  h.filter_preorderWithin (h.height_le hn) erased

theorem Holds.complaints_eq (h : a.Holds q t) : Normalize.complaints a [t] =
    t.ids.flatMap fun id => a.misplaced (a.kind id) (a.children id) := by
  rw [Normalize.complaints, Tree.ids_eq_map, List.flatMap_map, Tree.subtreesOf_cons,
    Tree.subtreesOf_nil, List.append_nil]
  refine List.flatMap_congr fun u hu => ?_
  obtain ⟨p, hp⟩ := h.subtree hu
  rw [hp.kind, hp.children]

end Arena

/-- What normal form makes of the tree below `root` of `s`. -/
structure NormalForm (root : NodeId) (s s' : Session) : Prop where
  /-- No block is left that could give way to an expression. -/
  blocks : ∀ id only, s'.tree.Reaches root id → s'.tree.kind id = .block →
    s'.tree.children id = [only] →
      (s'.tree.kind only).isExpression = false ∧ s'.tree.kind only ≠ .exprStmt
  /-- What is no wrapper is where it was. -/
  kept : (s'.tree.preorder root).filter (fun id => !(s'.tree.kind id).isWrapper) =
    (s.tree.preorder root).filter (fun id => !(s.tree.kind id).isWrapper)
  /-- The check of the links comes to its end. -/
  links : (∃ n, s'.tree.Checks [root] n none) ∧ s'.tree.badLink? root = none
  /-- The marked nodes are the places. -/
  marks : ∀ id, s'.tree.Reaches root id →
    ((s'.tree.facts id).lvalue = true ↔ s'.tree.IsPlace id)
  /-- Each node is asked once for what it stores to. -/
  report : ∃ order : List NodeId, order.Nodup ∧ (∀ id, id ∈ order ↔ s'.tree.Reaches root id) ∧
    s'.report = s.report ++
      order.flatMap fun id => s'.tree.misplaced (s'.tree.kind id) (s'.tree.children id)

section
variable {s s' : Session} {root : NodeId} {ts : List Tree}

theorem NormalForm.of_normal (hf : s.tree.Forest [.node root (.moduleRoot name) ts])
    (hf' : s'.tree.Forest [.node root (.moduleRoot name) (ts.map Tree.normalized)])
    (hn : Normalize.Normal s s' ts) (hsource : ∀ t ∈ ts, t.Source)
    (hroot : (s.tree.facts root).lvalue = false) : NormalForm root s s' := by
  obtain ⟨hholds, hnodup⟩ := hf.head
  obtain ⟨hholds', hnodup'⟩ := hf'.head
  have hself : root ∉ Tree.idsOf ts := by
    rw [Tree.ids_node, List.nodup_append] at hnodup
    exact fun hm => hnodup.2.2 root hm root (List.mem_singleton_self _) rfl
  -- every node of the result has its children in the arena
  have hnode : ∀ id, s'.tree.Reaches root id →
      ∃ u ∈ (Tree.node root (.moduleRoot name) (ts.map Tree.normalized)).subtrees,
        u.handle = id ∧ ∃ q, s'.tree.Holds q u := by
    intro id hid
    obtain ⟨u, hu, hid⟩ := Tree.mem_ids.mp (hholds'.reaches_iff.mp hid)
    exact ⟨u, hu, hid, hholds'.subtree hu⟩
  have hirreducible : (Tree.node root (.moduleRoot name) (ts.map Tree.normalized)).Every
      Tree.Irreducible := by
    refine Tree.every_node.mpr ⟨List.forall_mem_map.mpr fun t ht => ?_, nofun⟩
    exact Tree.irreducible_normalized t (hsource t ht)
  have hplaced : (Tree.node root (.moduleRoot name) (ts.map Tree.normalized)).Every
      (Normalize.Placed s'.tree) := by
    refine Tree.every_node.mpr ⟨List.forall_mem_map.mpr hn.placed, ?_⟩
    exact (congrArg Facts.lvalue (Arena.facts_congr (hn.others root hself))).trans hroot
  refine ⟨?_, ?_, hholds'.checks hnodup', fun id hid => ?_, _, hnodup',
    fun id => hholds'.reaches_iff.symm, ?_⟩
  · intro id only hid hkind hchildren
    obtain ⟨u, hu, rfl, q, hq⟩ := hnode id hid
    rw [hq.kind] at hkind
    rw [hq.children] at hchildren
    obtain ⟨c, hc, rfl⟩ := List.map_eq_singleton_iff.mp hchildren
    rw [(Arena.holdsAll_iff.mp hq.below c (by simp [hc])).kind]
    exact hirreducible u hu hkind c hc
  · have houtline : Tree.outlineOf NodeKind.isWrapper (ts.map Tree.normalized) =
        Tree.outlineOf NodeKind.isWrapper ts := by
      rw [Tree.outlineOf_eq_flatMap, Tree.outlineOf_eq_flatMap, List.flatMap_map]
      exact List.flatMap_congr fun t ht => t.outline_normalized (hsource t ht)
    refine (hholds'.filter_preorder hnodup' _).trans ?_
    rw [Tree.outline_node, houtline, ← Tree.outline_node]
    exact (hholds.filter_preorder hnodup _).symm
  · obtain ⟨u, hu, rfl, q, hq⟩ := hnode id hid
    rw [hplaced u hu, ← hq.kind, ← hq.children]
    exact s'.tree.places_iff u.handle
  · rw [hn.report, ← hholds'.complaints_eq, Normalize.complaints_node]
    exact congrArg _ (List.append_nil _).symm

end

/-- What reading leaves behind, whether or not it stops early. -/
theorem triple_read_root (s : Session) (tokens : List Token) (name path source file : String) :
    let m := (s.addModule name path source).1
    let Q := fun s' => ((s'.tree.facts (s'.module m).root).lvalue = false) ∧ ∃ ts,
      s'.tree.Forest [.node (s'.module m).root (.moduleRoot name) ts] ∧
        ∀ t ∈ ts, t.Every (Written s')
    Triple (parseModule tokens file m) (s.addModule name path source).2 (fun _ => Q)
      fun _ => Q := by
  refine (triple_read keeps_depth tokens name path source file s.tree.forest_nil rfl).mono ?_ ?_
  all_goals
    rintro - s' ⟨-, -, ts, hf, -, hw, ha⟩
    refine ⟨?_, ts, hf, hw⟩
    have hroot : (s'.module (s.addModule name path source).1).root = ⟨s.tree.size⟩ := by
      rw [← s.module_root_addModule name path source, ha.rest]
      rfl
    have hlabel := ha.labels _ _ (Arena.label_add_self s.tree _ _ _)
    rw [hroot, Arena.facts_of_label hlabel]
    rfl

/-- A module that was read comes into normal form, also if reading it stopped early. -/
theorem normalForm_of_read (s : Session) (tokens : List Token) (name path source file : String) :
    let m := (s.addModule name path source).1
    let s₁ := ((parseModule tokens file m).start (s.addModule name path source).2).2
    Returns (normalize (s₁.module m).root) s₁ fun _ s₂ =>
      NormalForm (s₁.module m).root s₁ s₂ := by
  have hread := triple_read_root s tokens name path source file
  intro m s₁
  obtain ⟨hroot, ts, hf, hw⟩ : (s₁.tree.facts (s₁.module m).root).lvalue = false ∧ ∃ ts,
      s₁.tree.Forest [.node (s₁.module m).root (.moduleRoot name) ts] ∧
        ∀ t ∈ ts, t.Every (Written s₁) := hread.left
  have hsource : ∀ t ∈ ts, t.Source := fun t ht => Written.source (hw t ht)
  refine (returns_normalize hf (fun t ht => Written.unmarked (hw t ht)) hsource).imp ?_
  rintro - s₂ ⟨hf₂, hn⟩
  exact .of_normal hf hf₂ hn hsource hroot

end BlockLang
