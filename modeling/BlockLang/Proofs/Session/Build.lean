import BlockLang.Proofs.Session.Run
import BlockLang.Proofs.Tree.Subtree

/-!
# Building trees in a session

What the passes that add, attach and detach nodes do to a forest. They leave every
label alone and only add to the tables.
-/

namespace BlockLang

open BlockLang.Tree (idsOf)
open BlockLang.Frame (plug)

namespace Arena

/-- Labels stay, and nothing is known of the nodes that come new. -/
structure Grows (a b : Arena) : Prop where
  labels : a.Extends b
  fresh : ∀ id l, a.size ≤ id.index → b.label id = some l → l.facts = .none

variable {a b c : Arena}

theorem Grows.refl (a : Arena) : a.Grows a :=
  ⟨.refl a, fun _ _ hi hl => absurd (lt_size_of_label hl) (Nat.not_lt.mpr hi)⟩

theorem Grows.trans (h : a.Grows b) (h' : b.Grows c) : a.Grows c := by
  refine ⟨h.labels.trans h'.labels, fun id l hi hl => ?_⟩
  by_cases hb : b.size ≤ id.index
  · exact h'.fresh id l hb hl
  · obtain ⟨l', hl'⟩ := exists_label (Nat.lt_of_not_le hb)
    obtain rfl : l = l' := by simpa [hl] using h'.labels id l' hl'
    exact h.fresh id l hi hl'

theorem SameLabels.grows (h : a.SameLabels b) : a.Grows b :=
  ⟨h.extends, fun id _ hi hl =>
    absurd (lt_size_of_label ((h id).symm.trans hl)) (Nat.not_lt.mpr hi)⟩

theorem grows_add (a : Arena) (kind : NodeKind) (span : Span) (scope : ScopeId) :
    a.Grows (a.add kind span scope).2 := by
  refine ⟨extends_add a kind span scope, fun id l hi hl => ?_⟩
  by_cases h : id = ⟨a.size⟩
  · subst h
    rw [label_add_self] at hl
    obtain rfl := Option.some.inj hl
    rfl
  · rw [label_add_ne h] at hl
    exact absurd (lt_size_of_label hl) (Nat.not_lt.mpr hi)

/-- The nodes that come new stand in the scope. -/
def NewIn (scope : ScopeId) (a b : Arena) : Prop :=
  ∀ id, b.scope id = scope ∨ b.scope id = a.scope id

theorem SameLabels.newIn (h : a.SameLabels b) (scope : ScopeId) : a.NewIn scope b :=
  fun id => .inr (scope_congr (h id))

theorem newIn_add (a : Arena) (kind : NodeKind) (span : Span) (scope : ScopeId) :
    a.NewIn scope (a.add kind span scope).2 := by
  intro id
  by_cases h : id = ⟨a.size⟩
  · subst h
    exact .inl (scope_add_self a kind span scope)
  · exact .inr (scope_add_ne h kind span scope)

end Arena

/-- The session has gained nodes that stand in the scope. -/
structure Gains (scope : ScopeId) (s s' : Session) : Prop where
  tree : s.tree.Grows s'.tree
  place : s.tree.NewIn scope s'.tree
  rest : s' = { s with tree := s'.tree }

/-- Something stands in the scope. -/
def Session.Uses (s : Session) (scope : ScopeId) : Prop :=
  scope = s.universal ∨ ∃ id, scope = s.tree.scope id

/-- The session has only gained nodes and temporaries. -/
structure Builds (s s' : Session) : Prop where
  tree : s.tree.Grows s'.tree
  scopes : ∀ id, s.Uses (s'.tree.scope id)
  temps : ∀ (i : Nat) node, s.temps[i]? = some node → s'.temps[i]? = some node
  rest : s' = { s with tree := s'.tree, temps := s'.temps }

theorem Builds.refl (s : Session) : Builds s s :=
  ⟨.refl _, fun id => .inr ⟨id, rfl⟩, fun _ _ h => h, rfl⟩

theorem Builds.trans (h : Builds s s') (h' : Builds s' s'') : Builds s s'' := by
  refine ⟨h.tree.trans h'.tree, fun id => ?_, fun i n hn => h'.temps i n (h.temps i n hn), ?_⟩
  · rcases h'.scopes id with hu | ⟨old, ho⟩
    · exact .inl (by rw [hu, h.rest])
    · exact ho ▸ h.scopes old
  · rw [h'.rest, h.rest]

theorem Builds.size_le (h : Builds s s') : s.tree.size ≤ s'.tree.size := h.tree.labels.size_le

theorem Gains.builds (h : Gains scope s s') (hs : s.Uses scope) : Builds s s' := by
  refine ⟨h.tree, fun id => ?_, fun i n hn => ?_, ?_⟩
  · rcases h.place id with hn | ho
    · exact hn ▸ hs
    · exact .inr ⟨id, ho⟩
  · rw [h.rest]
    exact hn
  · rw [h.rest]

/-- Only the links between nodes have changed. -/
structure Rearranges (s s' : Session) : Prop where
  labels : s.tree.SameLabels s'.tree
  rest : s' = { s with tree := s'.tree }

theorem Rearranges.refl (s : Session) : Rearranges s s := ⟨fun _ => rfl, rfl⟩

theorem Rearranges.trans (h : Rearranges s s') (h' : Rearranges s' s'') : Rearranges s s'' :=
  ⟨h.labels.trans h'.labels, by rw [h'.rest, h.rest]⟩

theorem Rearranges.temps (h : Rearranges s s') : s'.temps = s.temps := by rw [h.rest]

theorem Rearranges.gains (h : Rearranges s s') (scope : ScopeId) : Gains scope s s' :=
  ⟨h.labels.grows, h.labels.newIn scope, h.rest⟩

theorem Rearranges.builds (h : Rearranges s s') : Builds s s' :=
  (h.gains s.universal).builds (.inl rfl)

namespace Pass

variable {s : Session} {E : Fault → Session → Prop} {ds us : List Tree} {fs : List Frame}

theorem triple_rearrange {f : Arena → Except Fault Arena} {ts : List Tree}
    (h : ∃ b, f s.tree = .ok b ∧ b.Forest ts ∧ s.tree.SameLabels b) :
    Triple (tryTree f) s (fun _ s' => s'.tree.Forest ts ∧ Rearranges s s') E := by
  obtain ⟨b, hb, hf, hl⟩ := h
  rw [triple_tryTree, hb]
  exact ⟨hf, hl, rfl⟩

/-- A new node takes detached trees as its children. -/
theorem triple_addNode {children : List NodeId} {kind : NodeKind} {span : Span} {scope : ScopeId}
    (h : s.tree.Forest (ds ++ us)) (hc : children = ds.map Tree.handle) :
    Triple (addNode kind span scope children) s
      (fun id s' => s'.tree.Forest (.node id kind ds :: us) ∧ id = ⟨s.tree.size⟩ ∧
        Gains scope s s') E := by
  subst hc
  unfold addNode
  simp only [triple_bind, triple_get, triple_modify, triple_pure]
  have hadd : (s.tree.add kind span scope).2.Forest
      (plug [] [.node ⟨s.tree.size⟩ kind []] ++ (ds ++ us)) := h.add kind span scope
  refine (triple_rearrange hadd.pushAll).imp ?_
  rintro - s' ⟨hf, hr⟩
  refine ⟨hf, rfl, (Arena.grows_add s.tree kind span scope).trans hr.labels.grows, fun id => ?_, ?_⟩
  · rw [Arena.scope_congr (hr.labels id)]
    exact Arena.newIn_add s.tree kind span scope id
  · rw [hr.rest]

theorem triple_addLike {origin : NodeId} {kind : NodeKind} (h : s.tree.Forest us) :
    Triple (addLike origin kind) s
      (fun id s' => s'.tree.Forest (.node id kind [] :: us) ∧ id = ⟨s.tree.size⟩ ∧
        Gains (s.tree.scope origin) s s') E := by
  unfold addLike
  simp only [triple_bind, triple_spanOf, triple_scopeOf]
  exact triple_addNode h rfl

theorem triple_pushChild {cs : List Tree} {c : Tree}
    (h : s.tree.Forest (plug fs [.node i k cs] ++ c :: us)) :
    Triple (pushChild i c.handle) s
      (fun _ s' => s'.tree.Forest (plug fs [.node i k (cs ++ [c])] ++ us) ∧ Rearranges s s') E := by
  exact triple_rearrange h.push

theorem triple_take {cs : List Tree} (h : s.tree.Forest (plug fs [.node i k cs] ++ us)) :
    Triple (takeChildren i) s
      (fun children s' => children = cs.map Tree.handle ∧
        s'.tree.Forest (plug fs [.node i k []] ++ (cs ++ us)) ∧ Rearranges s s') E := by
  rw [triple_takeChildren]
  obtain ⟨hc, hf⟩ := h.take
  exact ⟨hc, hf, fun _ => Arena.label_takeChildren, rfl⟩

theorem triple_replaceNode {f : Frame} {x y : Tree}
    (h : s.tree.Forest (plug (f :: fs) [x] ++ y :: us)) :
    Triple (tryTree (·.replaceNode x.handle y.handle)) s
      (fun _ s' => s'.tree.Forest (plug (f :: fs) [y] ++ x :: us) ∧ Rearranges s s') E := by
  obtain ⟨b, hb, -, hf, hl⟩ := h.replace
  exact triple_rearrange ⟨b, hb, hf, hl⟩

end Pass
end BlockLang
