import BlockLang.Proofs.Tree.Forest

/-!
# Cutting and grafting

What the operations of the arena do to a forest: trees are taken apart, put into gaps
and exchanged, and nothing else moves. No label changes.
-/

namespace BlockLang

open BlockLang.Tree (idsOf)
open BlockLang.Frame (plug top Around)

namespace Arena

/-- The arena spells out the trees, which share no node and have no parent. -/
def Forest (a : Arena) (ts : List Tree) : Prop := a.HoldsAll none ts ∧ (idsOf ts).Nodup

variable {a b : Arena} {fs : List Frame} {ts us : List Tree}

theorem forest_nil (a : Arena) : a.Forest [] := ⟨by simp, by simp⟩

theorem Forest.perm (h : a.Forest ts) (hp : ts.Perm us) : a.Forest us := by
  refine ⟨holdsAll_iff.mpr fun t ht => ?_, (Tree.idsOf_perm hp).nodup_iff.mp h.2⟩
  exact holdsAll_iff.mp h.1 t (hp.mem_iff.mpr ht)

theorem Forest.congr (h : a.Forest ts) (hl : ∀ i ∈ idsOf ts, b.links i = a.links i) :
    b.Forest ts := ⟨h.1.congr hl, h.2⟩

theorem Forest.left (h : a.Forest (ts ++ us)) : a.Forest ts := by
  obtain ⟨hh, hn⟩ := h
  rw [Tree.idsOf_append] at hn
  exact ⟨(holdsAll_append.mp hh).1, hn.of_append_left⟩

theorem Forest.right (h : a.Forest (ts ++ us)) : a.Forest us := by
  obtain ⟨hh, hn⟩ := h
  rw [Tree.idsOf_append] at hn
  exact ⟨(holdsAll_append.mp hh).2, hn.of_append_right⟩

theorem Forest.swap (ts us : List Tree) {vs : List Tree} (h : a.Forest (ts ++ (us ++ vs))) :
    a.Forest (us ++ (ts ++ vs)) := by
  rw [← List.append_assoc] at h ⊢
  exact h.perm (List.perm_append_comm.append_right vs)

/-- A tree in the middle is left out. -/
theorem Forest.drop (h : a.Forest (ts ++ t :: us)) : a.Forest (ts ++ us) := by
  have hp : (ts ++ t :: us).Perm ([t] ++ (ts ++ us)) := List.perm_middle
  exact (h.perm hp).right

theorem Forest.tail (h : a.Forest (t :: ts)) : a.Forest ts := by
  rw [← List.singleton_append] at h
  exact h.right

theorem Forest.head (h : a.Forest (t :: ts)) : a.Holds none t ∧ t.ids.Nodup := by
  rw [← List.singleton_append] at h
  obtain ⟨hh, hn⟩ := h.left
  simp only [holdsAll_cons, holdsAll_nil, and_true] at hh
  exact ⟨hh, by simpa using hn⟩

theorem Forest.length_le (h : a.Forest ts) : (idsOf ts).length ≤ a.size :=
  length_le_size h.2 h.1.lt_size

theorem forest_plug : a.Forest (plug fs ts ++ us) ↔
    Around a fs (ts.map Tree.handle) ∧ a.HoldsAll (top fs) ts ∧ a.HoldsAll none us ∧
      (Frame.ids fs ++ (idsOf ts ++ idsOf us)).Nodup := by
  have hp : (idsOf (plug fs ts ++ us)).Perm (Frame.ids fs ++ (idsOf ts ++ idsOf us)) := by
    rw [Tree.idsOf_append, ← List.append_assoc]
    exact (Frame.perm_idsOf_plug fs ts).append_right _
  unfold Forest
  rw [holdsAll_append, Frame.holdsAll_plug, hp.nodup_iff]
  simp only [and_assoc]

/-- What is in a gap, below the node that the gap is in. -/
theorem Forest.gap (h : a.Forest (plug fs [t] ++ us)) : a.Holds (top fs) t := by
  have hts := (forest_plug.mp h).2.1
  simpa using hts

theorem Forest.nodup_gap (h : a.Forest (plug fs ts ++ us)) : (idsOf ts).Nodup :=
  (forest_plug.mp h).2.2.2.of_append_right.of_append_left

theorem Forest.lt_size_gap (h : a.Forest (plug fs ts ++ us)) : ∀ id ∈ idsOf ts, id.index < a.size :=
  (forest_plug.mp h).2.1.lt_size

/-- The label of every node stays as it is. -/
def SameLabels (a b : Arena) : Prop := ∀ id, b.label id = a.label id

theorem SameLabels.extends (h : a.SameLabels b) : a.Extends b := extends_of_label_eq h

theorem SameLabels.size_eq (h : a.SameLabels b) : b.size = a.size :=
  Nat.le_antisymm (extends_of_label_eq fun id => (h id).symm).size_le h.extends.size_le

theorem SameLabels.trans (h : a.SameLabels b) (h' : b.SameLabels c) : a.SameLabels c :=
  fun id => (h' id).trans (h id)

theorem Forest.add (h : a.Forest ts) (kind : NodeKind) (span : Span) (scope : ScopeId) :
    (a.add kind span scope).2.Forest (.node ⟨a.size⟩ kind [] :: ts) := by
  have hnew : (⟨a.size⟩ : NodeId) ∉ idsOf ts := fun hm => Nat.lt_irrefl _ (h.1.lt_size _ hm)
  have hold : (a.add kind span scope).2.Forest ts := h.congr fun i hi =>
    links_add_ne (by rintro rfl; exact hnew hi) kind span scope
  refine ⟨holdsAll_cons.mpr ⟨holds_node.mpr ⟨links_add_self .., by simp⟩, hold.1⟩, ?_⟩
  simpa using ⟨hnew, h.2⟩

/-- Trees move to another parent together. -/
theorem HoldsAll.move {cs : List Tree} (h : a.HoldsAll p cs) (hn : (idsOf cs).Nodup)
    (hr : ∀ i ∈ cs.map Tree.handle,
      b.links i = (a.links i).map fun l => { l with parent := q })
    (hl : ∀ i ∈ idsOf cs, i ∉ cs.map Tree.handle → b.links i = a.links i) : b.HoldsAll q cs := by
  induction cs with
  | nil => simp
  | cons c cs ih =>
    simp only [holdsAll_cons] at h ⊢
    simp only [Tree.idsOf_cons, List.nodup_append] at hn
    simp only [List.map_cons, List.mem_cons, Tree.idsOf_cons, List.mem_append] at hr hl
    refine ⟨h.1.move hn.1 (hr _ (.inl rfl)) fun i hi hne => hl i (.inl hi) ?_,
      ih h.2 hn.2.1 (fun i hi => hr i (.inr hi)) fun i hi hm => hl i (.inr hi) ?_⟩
    · rintro (he | hm)
      · exact hne he
      · obtain ⟨d, hd, rfl⟩ := List.mem_map.mp hm
        exact hn.2.2 _ hi _ (Tree.handle_mem_idsOf hd) rfl
    · rintro (rfl | hm')
      · exact hn.2.2 _ c.handle_mem_ids _ hi rfl
      · exact hm hm'

theorem Forest.take {i : NodeId} {k : NodeKind} {cs : List Tree}
    (h : a.Forest (plug fs [.node i k cs] ++ us)) :
    (a.takeChildren i).1 = cs.map Tree.handle ∧
      (a.takeChildren i).2.Forest (plug fs [.node i k []] ++ (cs ++ us)) := by
  obtain ⟨har, hts, hus, hn⟩ := forest_plug.mp h
  simp only [holdsAll_cons, holdsAll_nil, and_true, holds_node] at hts
  obtain ⟨hi, hcs⟩ := hts
  have hchildren : a.children i = cs.map Tree.handle := children_of_links hi
  have hp : (Frame.ids fs ++ (idsOf [.node i k []] ++ idsOf (cs ++ us))).Perm
      (Frame.ids fs ++ (idsOf [.node i k cs] ++ idsOf us)) := by
    refine List.perm_iff_count.mpr fun x => ?_
    simp only [Tree.idsOf_cons, Tree.ids_node, Tree.idsOf_nil, Tree.idsOf_append,
      List.count_append, List.count_nil]
    omega
  have hn' := hp.nodup_iff.mpr hn
  simp only [Tree.idsOf_cons, Tree.ids_node, Tree.idsOf_nil, List.append_nil, List.nil_append,
    Tree.idsOf_append, List.nodup_append, List.mem_append, List.mem_singleton] at hn'
  obtain ⟨-, ⟨-, ⟨hcn, -, hcu⟩, hself⟩, hfs⟩ := hn'
  have hroot : ∀ j ∈ cs.map Tree.handle, j ∈ idsOf cs := by
    intro j hj
    obtain ⟨c, hc, rfl⟩ := List.mem_map.mp hj
    exact Tree.handle_mem_idsOf hc
  have hnot : i ∉ cs.map Tree.handle := fun hm => hself i rfl i (.inl (hroot i hm)) rfl
  -- only `i` and the roots of its children change
  have hkeep : ∀ j, j ≠ i → j ∉ cs.map Tree.handle →
      (a.takeChildren i).2.links j = a.links j := by
    intro j hj hm
    simp only [takeChildren, hchildren]
    rw [links_detachAll_not_mem _ hm, links_setChildren_ne (Ne.symm hj)]
  refine ⟨hchildren, forest_plug.mpr ⟨?_, ?_, holdsAll_append.mpr ⟨?_, ?_⟩, hp.nodup_iff.mpr hn⟩⟩
  · exact har.congr fun j hj => hkeep j (fun he => hfs j hj j (.inl he) rfl)
      fun hm => hfs j hj j (.inr (.inl (hroot j hm))) rfl
  · simp only [holdsAll_cons, holdsAll_nil, and_true, holds_node, takeChildren, hchildren]
    rw [links_detachAll_not_mem _ hnot, links_setChildren_self, hi]
    rfl
  · refine hcs.move hcn (fun j hj => ?_) fun j hj hm => hkeep j ?_ hm
    · have hne : i ≠ j := fun he => hnot (he ▸ hj)
      simp only [takeChildren, hchildren]
      rw [links_detachAll_mem _ hj, links_setChildren_ne hne]
    · exact fun he => hself i rfl j (.inl hj) he.symm
  · exact hus.congr fun j hj => hkeep j (fun he => hself i rfl j (.inr hj) he.symm)
      fun hm => hcu j (hroot j hm) j hj rfl

theorem Forest.push {i : NodeId} {k : NodeKind} {cs : List Tree} {c : Tree}
    (h : a.Forest (plug fs [.node i k cs] ++ c :: us)) :
    ∃ b, a.pushChild i c.handle = .ok b ∧ b.Forest (plug fs [.node i k (cs ++ [c])] ++ us) ∧
      a.SameLabels b := by
  obtain ⟨har, hts, hus, hn⟩ := forest_plug.mp h
  simp only [holdsAll_cons, holdsAll_nil, and_true, holds_node] at hts hus
  obtain ⟨hi, hcs⟩ := hts
  obtain ⟨hc, hus⟩ := hus
  have hp : (Frame.ids fs ++ (idsOf [.node i k (cs ++ [c])] ++ idsOf us)).Perm
      (Frame.ids fs ++ (idsOf [.node i k cs] ++ idsOf (c :: us))) := by
    refine List.perm_iff_count.mpr fun x => ?_
    simp only [Tree.idsOf_cons, Tree.ids_node, Tree.idsOf_nil, Tree.idsOf_append,
      List.count_append, List.count_nil]
    omega
  have hn' := hn
  simp only [Tree.idsOf_cons, Tree.ids_node, Tree.idsOf_nil, List.append_nil,
    List.nodup_append, List.mem_append, List.mem_singleton] at hn'
  obtain ⟨-, ⟨⟨-, -, hin⟩, ⟨hcn, -, hcu⟩, hsep⟩, hfs⟩ := hn'
  have hci : c.handle ≠ i := fun he => hsep i (.inr rfl) c.handle (.inl c.handle_mem_ids) he.symm
  refine ⟨_, pushChild_eq hc.links hi hci, forest_plug.mpr ⟨?_, ?_, ?_, hp.nodup_iff.mpr hn⟩, ?_⟩
  · refine har.congr fun j hj => ?_
    rw [links_setChildren_ne (fun he => hfs j hj i (.inl (.inr rfl)) he.symm),
      links_setParent_ne fun he => hfs j hj _ (.inr (.inl c.handle_mem_ids)) he.symm]
  · simp only [holdsAll_cons, holdsAll_nil, and_true, holds_node, holdsAll_append]
    refine ⟨?_, hcs.congr fun j hj => ?_, hc.move hcn ?_ fun j hj hne => ?_⟩
    · rw [links_setChildren_self, links_setParent_ne hci, hi]
      simp
    · rw [links_setChildren_ne (fun he => hin j hj i rfl he.symm),
        links_setParent_ne fun he => hsep j (.inl hj) _ (.inl c.handle_mem_ids) he.symm]
    · rw [links_setChildren_ne (Ne.symm hci), links_setParent_self]
    · rw [links_setChildren_ne (fun he => hsep i (.inr rfl) j (.inl hj) he),
        links_setParent_ne (Ne.symm hne)]
  · refine hus.congr fun j hj => ?_
    rw [links_setChildren_ne (fun he => hsep i (.inr rfl) j (.inr hj) he),
      links_setParent_ne fun he => hcu _ c.handle_mem_ids j hj he]
  · intro j
    simp

/-- Makes several trees the last children of a node. -/
theorem Forest.pushAll {i : NodeId} {k : NodeKind} {cs ds : List Tree}
    (h : a.Forest (plug fs [.node i k cs] ++ (ds ++ us))) :
    ∃ b, a.pushChildren i (ds.map Tree.handle) = .ok b ∧
      b.Forest (plug fs [.node i k (cs ++ ds)] ++ us) ∧ a.SameLabels b := by
  induction ds generalizing a cs with
  | nil =>
    refine ⟨a, by simp [pushChildren, pure, Except.pure], by simpa using h, fun _ => rfl⟩
  | cons d ds ih =>
    obtain ⟨b, hb, hf, hl⟩ := Forest.push h
    obtain ⟨c, hc, hf', hl'⟩ := ih hf
    refine ⟨c, ?_, by simpa using hf', hl.trans hl'⟩
    simp only [pushChildren, List.map_cons, List.foldlM_cons, hb, bind, Except.bind]
    exact hc

/-- The links after one node has taken the place of another. -/
theorem Forest.replace {f : Frame} {x y : Tree} (h : a.Forest (plug (f :: fs) [x] ++ y :: us)) :
    ∃ b, a.replaceNode x.handle y.handle = .ok b ∧
      a.replaceChild f.id x.handle y.handle = .ok b ∧
      b.Forest (plug (f :: fs) [y] ++ x :: us) ∧ a.SameLabels b := by
  obtain ⟨⟨hf, hleft, hright, har⟩, hts, hus, hn⟩ := forest_plug.mp h
  simp only [holdsAll_cons, holdsAll_nil, and_true, top] at hts hus
  obtain ⟨hy, hus⟩ := hus
  have hp : (Frame.ids (f :: fs) ++ (idsOf [y] ++ idsOf (x :: us))).Perm
      (Frame.ids (f :: fs) ++ (idsOf [x] ++ idsOf (y :: us))) := by
    refine List.perm_iff_count.mpr fun z => ?_
    simp only [Tree.idsOf_cons, Tree.idsOf_nil, List.count_append, List.count_nil]
    omega
  have hn' := hn
  simp only [Frame.ids, Tree.idsOf_cons, Tree.idsOf_nil, List.append_nil, List.cons_append,
    List.nodup_cons, List.nodup_append, List.mem_append, not_or] at hn'
  obtain ⟨⟨⟨⟨hfl, hfr⟩, hff⟩, hfx, hfy, hfu⟩, -, ⟨hxn, ⟨hyn, -, hyu⟩, hxy⟩, hsep⟩ := hn'
  have hfx' : f.id ≠ x.handle := fun he => hfx (he ▸ x.handle_mem_ids)
  have hfy' : f.id ≠ y.handle := fun he => hfy (he ▸ y.handle_mem_ids)
  have hxy' : x.handle ≠ y.handle := hxy _ x.handle_mem_ids _ (.inl y.handle_mem_ids)
  have hxl : x.handle ∉ f.left.map Tree.handle := by
    intro hm
    obtain ⟨c, hc, he⟩ := List.mem_map.mp hm
    exact hsep _ (.inl (.inl (Tree.handle_mem_idsOf hc))) _ (.inl x.handle_mem_ids) he
  have hlinks : a.links f.id = some ⟨f.kind, top fs,
      f.left.map Tree.handle ++ x.handle :: f.right.map Tree.handle⟩ := by simpa using hf
  -- only the frame and the roots of the two trees change
  have hkeep : ∀ j, j ≠ f.id → j ≠ x.handle → j ≠ y.handle →
      (((a.setChildren f.id (f.left.map Tree.handle ++ y.handle :: f.right.map
        Tree.handle)).setParent y.handle (some f.id)).setParent x.handle none).links j =
        a.links j := by
    intro j h1 h2 h3
    rw [links_setParent_ne (Ne.symm h2), links_setParent_ne (Ne.symm h3),
      links_setChildren_ne (Ne.symm h1)]
  have hout : ∀ j, (j ∈ idsOf f.left ∨ j ∈ idsOf f.right) ∨ j ∈ Frame.ids fs →
      (((a.setChildren f.id (f.left.map Tree.handle ++ y.handle :: f.right.map
        Tree.handle)).setParent y.handle (some f.id)).setParent x.handle none).links j =
        a.links j := by
    intro j hj
    refine hkeep j ?_ (hsep j hj _ (.inl x.handle_mem_ids))
      (hsep j hj _ (.inr (.inl y.handle_mem_ids)))
    rintro rfl
    rcases hj with (hj | hj) | hj
    · exact hfl hj
    · exact hfr hj
    · exact hff hj
  refine ⟨_, replaceNode_eq hts.links hy.links hlinks hxl, replaceChild_eq hy.links hlinks hxl,
    forest_plug.mpr ⟨⟨?_, ?_, ?_, ?_⟩, ?_, ?_, hp.nodup_iff.mpr hn⟩, ?_⟩
  · rw [links_setParent_ne (Ne.symm hfx'), links_setParent_ne (Ne.symm hfy'),
      links_setChildren_self, hlinks]
    simp
  · exact hleft.congr fun j hj => hout j (.inl (.inl hj))
  · exact hright.congr fun j hj => hout j (.inl (.inr hj))
  · exact har.congr fun j hj => hout j (.inr hj)
  · simp only [holdsAll_cons, holdsAll_nil, and_true, top]
    refine hy.move hyn ?_ fun j hj hne => hkeep j ?_ ?_ hne
    · rw [links_setParent_ne hxy', links_setParent_self, links_setChildren_ne hfy']
    · exact fun he => hfy (he ▸ hj)
    · exact fun he => hxy _ x.handle_mem_ids _ (.inl hj) he.symm
  · simp only [holdsAll_cons]
    refine ⟨hts.move hxn ?_ fun j hj hne => hkeep j ?_ hne ?_,
      hus.congr fun j hj => hkeep j ?_ ?_ ?_⟩
    · rw [links_setParent_self, links_setParent_ne (Ne.symm hxy'), links_setChildren_ne hfx']
    · exact fun he => hfx (he ▸ hj)
    · exact hxy j hj _ (.inl y.handle_mem_ids)
    · exact fun he => hfu (he ▸ hj)
    · exact fun he => hxy _ x.handle_mem_ids _ (.inr hj) he.symm
    · exact fun he => hyu _ y.handle_mem_ids _ hj he.symm
  · intro j
    simp

theorem insertIdx_split (left right : List NodeId) :
    (left ++ right).insertIdx left.length new = left ++ new :: right := by
  induction left with
  | nil => simp
  | cons x xs ih => simpa using ih

theorem Forest.insert {f : Frame} {x y : Tree} (h : a.Forest (plug (f :: fs) [x] ++ y :: us)) :
    ∃ b, a.insertChild f.id f.left.length y.handle = .ok b ∧
      b.Forest (plug (f :: fs) [y, x] ++ us) ∧ a.SameLabels b := by
  obtain ⟨⟨hf, hleft, hright, har⟩, hts, hus, hn⟩ := forest_plug.mp h
  simp only [holdsAll_cons, holdsAll_nil, and_true, top] at hts hus
  obtain ⟨hy, hus⟩ := hus
  have hp : (Frame.ids (f :: fs) ++ (idsOf [y, x] ++ idsOf us)).Perm
      (Frame.ids (f :: fs) ++ (idsOf [x] ++ idsOf (y :: us))) := by
    refine List.perm_iff_count.mpr fun z => ?_
    simp only [Tree.idsOf_cons, Tree.idsOf_nil, List.count_append, List.count_nil]
    omega
  have hn' := hn
  simp only [Frame.ids, Tree.idsOf_cons, Tree.idsOf_nil, List.append_nil, List.cons_append,
    List.nodup_cons, List.nodup_append, List.mem_append, not_or] at hn'
  obtain ⟨⟨⟨⟨hfl, hfr⟩, hff⟩, hfx, hfy, hfu⟩, -, ⟨hxn, ⟨hyn, -, hyu⟩, hxy⟩, hsep⟩ := hn'
  have hfy' : y.handle ≠ f.id := fun he => hfy (he ▸ y.handle_mem_ids)
  have hlen : f.left.length ≤ (f.left.map Tree.handle ++ [x].map Tree.handle ++
      f.right.map Tree.handle).length := by
    simp
  have hchildren : (f.left.map Tree.handle ++ [x].map Tree.handle ++
      f.right.map Tree.handle).insertIdx f.left.length y.handle =
      f.left.map Tree.handle ++ [y, x].map Tree.handle ++ f.right.map Tree.handle := by
    simpa using insertIdx_split (f.left.map Tree.handle) (x.handle :: f.right.map Tree.handle)
  have hkeep : ∀ j, j ≠ f.id → j ≠ y.handle →
      ((a.setParent y.handle (some f.id)).setChildren f.id (f.left.map Tree.handle ++
        [y, x].map Tree.handle ++ f.right.map Tree.handle)).links j = a.links j := by
    intro j h1 h2
    rw [links_setChildren_ne (Ne.symm h1), links_setParent_ne (Ne.symm h2)]
  have hout : ∀ j, (j ∈ idsOf f.left ∨ j ∈ idsOf f.right) ∨ j ∈ Frame.ids fs →
      ((a.setParent y.handle (some f.id)).setChildren f.id (f.left.map Tree.handle ++
        [y, x].map Tree.handle ++ f.right.map Tree.handle)).links j = a.links j := by
    intro j hj
    refine hkeep j ?_ (hsep j hj _ (.inr (.inl y.handle_mem_ids)))
    rintro rfl
    rcases hj with (hj | hj) | hj
    · exact hfl hj
    · exact hfr hj
    · exact hff hj
  have heq := insertChild_eq hy.links hf hfy' hlen
  rw [hchildren] at heq
  refine ⟨_, heq, forest_plug.mpr ⟨⟨?_, ?_, ?_, ?_⟩, ?_, ?_, hp.nodup_iff.mpr hn⟩, ?_⟩
  · rw [links_setChildren_self, links_setParent_ne hfy', hf]
    simp
  · exact hleft.congr fun j hj => hout j (.inl (.inl hj))
  · exact hright.congr fun j hj => hout j (.inl (.inr hj))
  · exact har.congr fun j hj => hout j (.inr hj)
  · simp only [holdsAll_cons, holdsAll_nil, and_true, top]
    refine ⟨hy.move hyn ?_ fun j hj hne => hkeep j ?_ hne, hts.congr fun j hj => hkeep j ?_ ?_⟩
    · rw [links_setChildren_ne (Ne.symm hfy'), links_setParent_self]
    · exact fun he => hfy (he ▸ hj)
    · exact fun he => hfx (he ▸ hj)
    · exact hxy j hj _ (.inl y.handle_mem_ids)
  · exact hus.congr fun j hj => hkeep j (fun he => hfu (he ▸ hj))
      fun he => hyu _ y.handle_mem_ids _ hj he.symm
  · intro j
    simp

end Arena
end BlockLang
