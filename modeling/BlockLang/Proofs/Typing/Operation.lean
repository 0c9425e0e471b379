import BlockLang.Proofs.Typing.Done
import BlockLang.Proofs.Typing.Step

/-!
# Operators and calls

The only steps that change the tree. Whatever they do to it, the step becomes what
`Resolves` says, in the basic block it stands in, and inference is through with it.
-/

namespace BlockLang

open BlockLang.Tree (idsOf)
open BlockLang.Frame (plug)

/-- A frame whose gap has moved past the trees `cs`. -/
def Frame.after (f : Frame) (cs : List Tree) : Frame := { f with left := f.left ++ cs }

theorem Frame.plug_after (f : Frame) (fs : List Frame) (cs ts : List Tree) :
    plug (f.after cs :: fs) ts = plug (f :: fs) (cs ++ ts) := by
  simp [plug, Frame.after]

@[simp] theorem Frame.after_nil (f : Frame) : f.after [] = f := by simp [Frame.after]

theorem Frame.after_after (f : Frame) (cs ds : List Tree) :
    (f.after cs).after ds = f.after (cs ++ ds) := by
  simp [Frame.after]

namespace Arena

variable {a : Arena} {f : Frame} {fs : List Frame} {us : List Tree}

theorem Forest.kind_frame (h : a.Forest (plug (f :: fs) ts ++ us)) : a.kind f.id = f.kind :=
  kind_of_links (forest_plug.mp h).1.1

theorem Forest.parent_gap (h : a.Forest (plug (f :: fs) [t] ++ us)) :
    a.parent t.handle = some f.id := h.gap.parent_eq

theorem Forest.indexInParent? (h : a.Forest (plug (f :: fs) [t] ++ us)) :
    a.indexInParent? t.handle = some f.left.length := by
  have hchildren : a.children f.id =
      f.left.map Tree.handle ++ t.handle :: f.right.map Tree.handle := by
    simpa using children_of_links (forest_plug.mp h).1.1
  have hleft : t.handle ∉ f.left.map Tree.handle := by
    intro hm
    obtain ⟨c, hc, he⟩ := List.mem_map.mp hm
    have hn := (forest_plug.mp h).2.2.2
    simp only [Frame.ids, List.cons_append, List.nodup_cons, List.nodup_append,
      List.mem_append] at hn
    exact hn.2.2.2 _ (.inl (.inl (Tree.handle_mem_idsOf hc))) _
      (.inl (Tree.handle_mem_idsOf (List.mem_singleton_self t))) he
  simp only [Arena.indexInParent?, h.parent_gap, Option.bind_eq_bind, Option.bind_some, hchildren]
  simpa using findIdx?_split (f.right.map Tree.handle) hleft

end Arena

namespace Typing

open Pass

variable {s s' : Session} {f : Frame} {fs : List Frame} {us : List Tree} {B : Set NodeId}

-- ---------------------------------------------------------------------------
-- Choosing
-- ---------------------------------------------------------------------------

/-- The declaration that a use is bound to. -/
def Resolution.chosen? : Resolution → Option DeclId
  | .resolved decl _ | .ambiguous decl _ _ => some decl
  | .noMatch | .notDefined => none

theorem exists_of_chosen? {candidates : List Candidate} {id : DeclId}
    (h : (choose candidates).chosen? = some id) : ∃ c ∈ candidates, c.decl = id := by
  unfold choose at h
  dsimp only at h
  split at h
  · cases h
  split at h
  · cases h
  have hmem : ∀ c ∈ candidates.filter (·.cost = leastCost candidates), c ∈ candidates :=
    fun c hc => List.mem_of_mem_filter hc
  split at h
  · cases h
  · next only hfilter =>
    exact ⟨only, hmem only (by simp [hfilter]), Option.some.inj h⟩
  · next first others _ hfilter =>
    exact ⟨first, hmem first (by simp [hfilter]), Option.some.inj h⟩

theorem ifReturns_candidate? (arguments : TypeId) (id : DeclId) (s : Session) :
    IfReturns (candidate? arguments id) s fun c _ => ∀ x ∈ c, x.decl = id := by
  refine ifReturns_bind fun signature s' => ?_
  split
  · exact nofun
  · simp only [IfReturns, triple_bind, triple_types, triple_pure]
    rintro c hc
    obtain ⟨_, -, rfl⟩ := Option.map_eq_some_iff.mp hc
    rfl

/-- An operator is chosen among the built-ins. -/
theorem returns_resolveOverload {scope : ScopeId} (hs : s.Scoped) (hscope : s.names.Has scope)
    (name : String) (arguments : TypeId) :
    Returns (resolveOverload scope name arguments) s fun resolution s' =>
      Learns (fun _ => False) s s' ∧ (IsOperator name → s.Operators → ∀ id,
        resolution.chosen? = some id → ∃ op, (s.decl id).kind = .builtin op) := by
  refine (learner_resolveOverload (G := (·.Has scope)) (fun _ h => h) name arguments s hs
    hscope).and ?_
  obtain ⟨found, hfound, hdeclared⟩ := ScopeTable.exists_findVars hs.closed hscope name
  unfold resolveOverload
  simp only [IfReturns, triple_bind, triple_lookUp, hfound]
  refine (ifReturns_mapM (ifReturns_candidate? arguments) found s).imp
    fun candidates s' hc hname ho id hid => ?_
  obtain ⟨c, hcm, rfl⟩ := exists_of_chosen? hid
  obtain ⟨other, hother, hdecl⟩ := hc (some c) (by simpa using hcm)
  obtain ⟨place, hplace⟩ := hdeclared other hother
  obtain rfl : c.decl = other := hdecl c rfl
  exact ho place _ name hname hplace

-- ---------------------------------------------------------------------------
-- Conversions
-- ---------------------------------------------------------------------------

section
variable {user : NodeId} {k : NodeKind} {ls rs : List Tree}

theorem plug_child (fs : List Frame) (x : Tree) :
    plug (⟨user, k, ls, rs⟩ :: fs) [x] = plug fs [.node user k (ls ++ x :: rs)] := by
  simp [plug]

/-- A step that stands alone gets its place before the user, which reads it through a new
temporary. -/
theorem returns_placeCast {cast hole : Tree} {operand : NodeId} (hf : f.kind = .basicBlock)
    (hs : s.Scoped)
    (h : s.tree.Forest (plug (f :: fs) [.node user k (ls ++ hole :: rs)] ++ cast :: us)) :
    Returns (do
        let tree ← Pass.tree
        let block := (tree.parent user).filter fun parent => (tree.kind parent).isBasicBlock
        let replacement ← match block with
          | none => pure cast.handle
          | some block =>
            tryTree (·.insertChild block ((tree.indexInParent? user).getD 0) cast.handle)
            let temp ← newTemp cast.handle
            let temp ← addLike operand (.temp temp)
            let facts ← factsOf cast.handle
            annotate temp fun _ => facts
            pure temp
        tryTree (·.replaceChild user hole.handle replacement)) s fun _ s' => ∃ t τ,
      Reworks (fun _ => False) s
        (plug (f.after [cast] :: fs) [.node user k (ls ++ .node t (.temp τ) [] :: rs)] ++ us) s' ∧
      s'.temps[τ.index]? = some cast.handle ∧ s'.tree.facts t = s'.tree.facts cast.handle := by
  -- the block is the one that the gap is in
  have hparent := h.parent_gap
  have hindex := h.indexInParent?
  have hkind : (s.tree.kind f.id).isBasicBlock = true := by
    rw [h.kind_frame, hf]
    rfl
  simp only [Tree.handle_node] at hparent hindex
  simp only [triple_tree, hparent, Option.filter_some, hkind, if_true, hindex, Option.getD_some,
    triple_bind]
  refine (Reworks.refl (N := fun _ => False) hs h).insertChild.imp fun _ s₁ h₁ => ?_
  refine (h₁.newTemp cast.handle).imp ?_
  rintro τ s₂ ⟨h₂, hset⟩
  have hcast : cast.handle.index < s₂.tree.size :=
    h₂.forest.lt_size_gap _ (by simp [Tree.handle_mem_ids])
  -- from here on what the conversion has set stays
  refine (Reworks.refl (N := fun _ => False) h₂.session h₂.forest).addLike.imp ?_
  rintro t s₃ ⟨h₃, ht⟩
  have hne : cast.handle ≠ t := by
    rintro rfl
    exact Nat.not_lt.mpr ht hcast
  have hlt : t.index < s₃.tree.size := h₃.forest.1.lt_size t (by simp)
  simp only [triple_factsOf]
  refine (h₃.notes (.annotate (N := (· = t)) rfl (P := (· = s₃.tree.facts cast.handle))
    fun _ => rfl) (by rintro _ rfl; exact .inr ht) hlt).imp ?_
  rintro - s₄ ⟨h₄, hlearns, hfacts⟩
  rw [triple_pure]
  let temp : Tree := .node t (.temp τ) []
  have h₅ : s₄.tree.Forest
      (plug (⟨user, k, ls, rs⟩ :: f.after [cast] :: fs) [hole] ++ temp :: us) := by
    rw [plug_child, Frame.plug_after]
    exact h₄.forest.perm List.perm_middle.symm
  refine (Reworks.refl (N := fun _ => False) h₄.session h₅).replaceChild.imp fun _ s₅ h₅ => ?_
  have hrest := h₄.trans h₅ fun _ => False.elim
  rw [plug_child] at hrest
  have hcast' := Nat.lt_of_lt_of_le hcast h₄.proceeds.size
  have ht' : t.index < s₄.tree.size := Nat.lt_of_lt_of_le hlt hlearns.size_le
  refine ⟨t, τ, (h₂.trans hrest fun _ => False.elim).withForest hrest.forest.drop, ?_, ?_⟩
  · exact hrest.proceeds.temps τ.index cast.handle hset hcast not_false
  · rw [h₅.proceeds.facts ht' not_false, h₅.proceeds.facts hcast' not_false, hfacts,
      hlearns.facts hne]

/-- The node `c` is a conversion to `target`, which `j` reads through a temporary. -/
structure Casts (s : Session) (target : Primitive) (c j : NodeId) (τ : TempId) : Prop where
  set : s.temps[τ.index]? = some c
  type : (s.tree.facts c).type = some target.typeId
  facts : s.tree.facts j = s.tree.facts c

/-- A conversion gets its place before the user of its operand. -/
theorem returns_insertCast {o : Tree} {target : Primitive} (hf : f.kind = .basicBlock)
    (hs : s.Scoped)
    (h : s.tree.Forest (plug (f :: fs) [.node user k (ls ++ o :: rs)] ++ us)) :
    Returns (insertCast user o.handle target) s fun _ s' => ∃ c j τ, s.tree.size ≤ c.index ∧
      Reworks (fun _ => False) s (plug (f.after [.node c (.cast target.typeId) [o]] :: fs)
        [.node user k (ls ++ .node j (.temp τ) [] :: rs)] ++ us) s' ∧ Casts s' target c j τ := by
  unfold insertCast
  refine triple_bind.mpr ((Reworks.refl (N := fun _ => False) hs h).addLike.imp ?_)
  rintro hole s₁ ⟨h₁, -⟩
  have h₁' : Reworks (fun _ => False) s
      (plug (⟨user, k, ls, rs⟩ :: f :: fs) [o] ++ .node hole .nullValue [] :: us) s₁ := by
    rw [plug_child]
    exact h₁.withForest (h₁.forest.perm List.perm_middle.symm)
  refine triple_bind.mpr (h₁'.replaceChild.imp fun _ s₂ h₂ => ?_)
  simp only [triple_bind, triple_spanOf, triple_scopeOf]
  have h₂' : Reworks (fun _ => False) s ([o] ++
      (plug (⟨user, k, ls, rs⟩ :: f :: fs) [.node hole .nullValue []] ++ us)) s₂ :=
    h₂.withForest (h₂.forest.perm List.perm_middle)
  refine (h₂'.addNode rfl (.inr ⟨o.handle, rfl⟩)).imp ?_
  rintro c s₃ ⟨h₃, hc⟩
  let cast : Tree := .node c (.cast target.typeId) [o]
  have hlt : c.index < s₃.tree.size := h₃.forest.1.lt_size c (by simp)
  refine (h₃.notes (notes_annotateCast (N := (· = c)) rfl o.handle target)
    (by rintro _ rfl; exact .inr hc) hlt).imp ?_
  rintro - s₄ ⟨h₄, hlearns, htyped⟩
  have h₄' : s₄.tree.Forest
      (plug (f :: fs) [.node user k (ls ++ .node hole .nullValue [] :: rs)] ++ cast :: us) := by
    rw [← plug_child]
    exact h₄.forest.perm List.perm_middle.symm
  refine (returns_placeCast hf h₄.session h₄').imp ?_
  rintro - s₅ ⟨j, τ, h₅, hset, hfacts⟩
  have hlt' : c.index < s₄.tree.size := Nat.lt_of_lt_of_le hlt hlearns.size_le
  rw [← h₅.proceeds.facts hlt' not_false] at htyped
  exact ⟨c, j, τ, hc, h₄.trans h₅ fun _ => False.elim, hset, htyped, hfacts⟩

end

/-- What stands before a step or is below it is not the step. -/
theorem spared_beside {user id : NodeId} {k : NodeKind} {cs os : List Tree}
    (h : s.tree.Forest (plug (f :: fs) (cs ++ [.node user k os]) ++ us))
    (hid : id ∈ idsOf cs ++ idsOf os) : Spared (· = user) s id := by
  have hn := h.nodup_gap
  refine ⟨h.lt_size_gap id (by simp_all; tauto), ?_⟩
  rintro rfl
  simp only [Tree.idsOf_append, Tree.idsOf_cons, Tree.ids_node, Tree.idsOf_nil, List.append_nil,
    ← List.append_assoc] at hn
  exact (List.nodup_append.mp hn).2.2 id hid id (by simp) rfl

/-- Conversions stand before a user that has only temporaries below it. Inference is through
with all of them, and has touched no node that was there. -/
structure Converted (s : Session) (B : Set NodeId) (f : Frame) (fs : List Frame) (us : List Tree)
    (user : NodeId) (k : NodeKind) (cs os : List Tree) (s' : Session) : Prop where
  there : user.index < s.tree.size
  apart : ∀ p ∈ B, Spared (· = user) s p
  casts : ∀ c ∈ cs, IsCast s.tree.size c
  operands : ∀ o ∈ os, IsTemp o
  reworks : Reworks (fun _ => False) s (plug (f.after cs :: fs) [.node user k os] ++ us) s'
  before : Done s' B cs
  below : ∀ o ∈ os, Done s' (B ∪ exportsOf cs) [o]

namespace Converted

variable {user : NodeId} {k : NodeKind} {cs os : List Tree}

theorem refl (hs : s.Scoped) (h : s.tree.Forest (plug (f :: fs) [.node user k os] ++ us))
    (hB : ∀ p ∈ B, Spared (· = user) s p) (ho : ∀ o ∈ os, IsTemp o)
    (hd : ∀ o ∈ os, Done s B [o]) : Converted s B f fs us user k [] os s :=
  ⟨h.lt_size_gap user (by simp), hB, by simp, ho,
    by simpa [Frame.plug_after] using .refl hs h, .nil, by simpa using hd⟩

theorem forest (h : Converted s B f fs us user k cs os s') :
    s'.tree.Forest (plug (f :: fs) (cs ++ [.node user k os]) ++ us) := by
  rw [← Frame.plug_after]
  exact h.reworks.forest

/-- What conversions and operands use is there, and is not the user. -/
theorem spared (h : Converted s B f fs us user k cs os s') :
    (∀ p ∈ B ∪ exportsOf cs, Spared (· = user) s' p) ∧
      ∀ id ∈ idsOf cs ++ idsOf os, Spared (· = user) s' id := by
  have hids : ∀ id ∈ idsOf cs ++ idsOf os, Spared (· = user) s' id :=
    fun id hid => spared_beside h.forest hid
  refine ⟨fun p hp => hp.elim (fun hp => ?_) fun hp => ?_, hids⟩
  · exact ⟨Nat.lt_of_lt_of_le (h.apart p hp).1 h.reworks.proceeds.size, (h.apart p hp).2⟩
  · exact hids p (List.mem_append_left _ (mem_idsOf_of_exportsOf hp))

/-- All of it stays if only the user is touched. -/
theorem proceeds (h : Converted s B f fs us user k cs os s')
    (hp : Proceeds (· = user) s' s'') :
    Done s'' B cs ∧ ∀ o ∈ os, Done s'' (B ∪ exportsOf cs) [o] := by
  obtain ⟨hused, hids⟩ := h.spared
  refine ⟨h.before.proceeds hp (fun id hid => hids id (List.mem_append_left _ hid))
    fun p hp => hused p (.inl hp), fun o ho => (h.below o ho).proceeds hp (fun id hid => ?_) hused⟩
  exact hids id (List.mem_append_right _ (Tree.mem_idsOf.mpr ⟨o, ho, by simpa using hid⟩))

theorem learnIf {G : Names → Prop} {p : Pass α} (h : Converted s B f fs us user k cs os s')
    (hp : Learner (fun _ => False) G p) (hg : G s.names) :
    Returns p s' fun _ s'' => Converted s B f fs us user k cs os s'' := by
  refine (hp s' h.reworks.session (h.reworks.proceeds.names ▸ hg)).imp fun _ s'' hl => ?_
  obtain ⟨hbefore, hbelow⟩ := h.proceeds (hl.proceeds.mono fun _ => False.elim)
  exact ⟨h.there, h.apart, h.casts, h.operands, h.reworks.learns hl fun _ => False.elim, hbefore,
    hbelow⟩

theorem learn {p : Pass α} (h : Converted s B f fs us user k cs os s')
    (hp : Learner (fun _ => False) (fun _ => True) p) :
    Returns p s' fun _ s'' => Converted s B f fs us user k cs os s'' := h.learnIf hp trivial

/-- One more operand is converted. -/
theorem insertCast {ls rs : List Tree} {j : NodeId} {τ : TempId} {target : Primitive}
    (hf : f.kind = .basicBlock)
    (h : Converted s B f fs us user k cs (ls ++ .node j (.temp τ) [] :: rs) s') :
    Returns (insertCast user j target) s' fun _ s'' => ∃ c o,
      Converted s B f fs us user k (cs ++ [c]) (ls ++ o :: rs) s'' := by
  refine (returns_insertCast (f := f.after cs) hf h.reworks.session h.reworks.forest).imp ?_
  rintro - s'' ⟨c', j', τ', hnew, hr, hcasts⟩
  let c : Tree := .node c' (.cast target.typeId) [.node j (.temp τ) []]
  let o : Tree := .node j' (.temp τ') []
  have hc : IsCast s'.tree.size c := ⟨⟨_, rfl⟩, fun o ho => ⟨j, τ, List.mem_singleton.mp ho⟩, hnew⟩
  have htyped : (s''.tree.facts c').type.isSome = true := by simp [hcasts.type]
  obtain ⟨hbefore, hbelow⟩ := h.proceeds (hr.proceeds.mono fun _ => False.elim)
  have hdc : Done s'' (B ∪ exportsOf cs) [c] :=
    .plain rfl (by simpa using hbelow _ (by simp)) (.of_cover (.of_type htyped rfl) (by simp) rfl)
  have hdo : Done s'' (exportsOf [c]) [o] := by
    have hfree : c.ImportFree := Tree.importFree_node.mpr ⟨by simpa using .leaf rfl, rfl⟩
    exact .temp hcasts.set (mem_exportsOf_singleton.mpr (.whole hfree)) htyped
      (by rw [hcasts.facts])
  have hmore : B ∪ exportsOf cs ⊆ B ∪ exportsOf (cs ++ [c]) := by
    rw [exportsOf_append, ← Set.union_assoc]
    exact Set.subset_union_left
  have hlast : exportsOf [c] ⊆ B ∪ exportsOf (cs ++ [c]) := by
    rw [exportsOf_append, ← Set.union_assoc]
    exact Set.subset_union_right
  refine ⟨c, o, h.there, h.apart, List.forall_mem_append.mpr ⟨h.casts, by
    simpa using hc.mono h.reworks.proceeds.size⟩, ?_, ?_, Done.append_iff.mpr ⟨hbefore, hdc⟩, ?_⟩
  · have hoperands := h.operands
    simp only [List.forall_mem_append, List.forall_mem_cons] at hoperands ⊢
    exact ⟨hoperands.1, ⟨j', τ', rfl⟩, hoperands.2.2⟩
  · rw [← Frame.after_after]
    exact h.reworks.trans hr fun _ => False.elim
  · simp only [List.forall_mem_append, List.forall_mem_cons] at hbelow ⊢
    exact ⟨fun o ho => (hbelow.1 o ho).mono hmore, hdo.mono hlast,
      fun o ho => (hbelow.2.2 o ho).mono hmore⟩

/-- The operands are gone through from left to right; `ls` are those done. -/
theorem promoteEach {target : Primitive} (hf : f.kind = .basicBlock) (ls : List Tree)
    (h : Converted s B f fs us user k cs (ls ++ os) s') :
    Returns ((os.map Tree.handle).mapM fun operand => do
        if (← types).underlying? (← typeOf operand) = some target then return false
        Typing.insertCast user operand target
        return true) s' fun _ s'' => ∃ cs os, Converted s B f fs us user k cs os s'' := by
  induction os generalizing cs ls s' with
  | nil => exact ⟨cs, ls ++ [], h⟩
  | cons o os ih =>
    obtain ⟨j, τ, rfl⟩ := h.operands o (by simp)
    simp only [List.map_cons, Tree.handle_node, triple_mapM_cons, triple_bind, triple_types,
      typeOf, triple_factsOf, triple_pure]
    split
    · exact ih (ls ++ [.node j (.temp τ) []]) (by simpa using h)
    · refine triple_bind.mpr ((h.insertCast hf).imp ?_)
      rintro - s₁ ⟨c, o', h₁⟩
      exact ih (ls ++ [o']) (by simpa using h₁)

/-- Every operand that has another type is converted. -/
theorem promoteOperands (hf : f.kind = .basicBlock)
    (h : Converted s B f fs us user k cs os s') :
    Returns (promoteOperands user) s' fun _ s'' =>
      ∃ cs os, Converted s B f fs us user k cs os s'' := by
  have hchildren : s'.tree.children user = os.map Tree.handle := h.reworks.forest.gap.children
  unfold Typing.promoteOperands
  simp only [triple_bind, triple_tree, hchildren]
  split
  · next lhs rhs hos =>
    split
    · simp only [triple_types, triple_bind]
      split
      · exact ⟨cs, os, h⟩
      · obtain ⟨a, b, rfl⟩ : ∃ a b, os = [a, b] :=
          List.length_eq_two.mp (by simpa using congrArg List.length hos)
        simp only [List.map_cons, List.map_nil, List.cons.injEq, and_true] at hos
        obtain ⟨rfl, rfl⟩ := hos
        exact triple_bind.mpr ((promoteEach hf [] h).imp fun _ _ h => h)
    · exact ⟨cs, os, h⟩
  · exact ⟨cs, os, h⟩

end Converted

-- ---------------------------------------------------------------------------
-- Binding
-- ---------------------------------------------------------------------------

/-- Only the step itself can be used. -/
theorem exportsOf_step {k : NodeKind} (h : k.isStep = true) : exportsOf [.node i k os] ⊆ {i} := by
  intro p hp
  refine ((mem_exportsOf_singleton.mp hp).eq_handle ?_).1
  cases k <;> first | rfl | simp [NodeKind.isStep, NodeKind.isExpression] at h

/-- Inference has come past the tree `t` in a frame. Steps `cs` now stand before what it has
become. -/
structure Past (N : NodeId → Prop) (s : Session) (B : Set NodeId) (f : Frame) (fs : List Frame)
    (us : List Tree) (t : Tree) (cs : List Tree) (t' : Tree) (s' : Session) : Prop where
  reworks : Reworks N s (plug (f.after cs :: fs) [t'] ++ us) s'
  done : Done s' B (cs ++ [t'])
  hands : Hands s s' (exportsOf [t]) (exportsOf (cs ++ [t']))

/-- Nothing that the tree exports was handed over before. -/
theorem Past.from {N M : NodeId → Prop} {t t' : Tree} {ts cs : List Tree}
    (h : Past M s' B f fs us t cs t' s'') (hr : Reworks N s ts s')
    (hm : ∀ id, M id → N id ∨ s.tree.size ≤ id.index)
    (hh : Hands s s' (exportsOf [t]) (exportsOf [t])) : Past N s B f fs us t cs t' s'' :=
  ⟨hr.trans h.reworks hm, h.done, hh.trans h.hands⟩

/-- What a step has become: conversions, and what stands there in the end. -/
def Bound (N : NodeId → Prop) (s : Session) (B : Set NodeId) (f : Frame) (fs : List Frame)
    (us : List Tree) (t : Tree) (node : NodeId) (s' : Session) : Prop :=
  ∃ cs t', node = t'.handle ∧ Resolves s.tree.size t (cs ++ [t']) ∧ Past N s B f fs us t cs t' s'

section
variable {user : NodeId} {k : NodeKind} {cs os os₀ : List Tree}

/-- A user that stays where it is, and is taken note of. -/
theorem Converted.kept {p : Pass α} {P : Facts → Prop}
    (h : Converted s B f fs us user k cs os s') (hk : k.isStep = true)
    (hr : Resolves s.tree.size (.node user k os₀) (cs ++ [.node user k os]))
    (hp : Notes (· = user) (fun _ => True) user P p)
    (hP : ∀ facts, P facts → facts.Cover k ∧
      (s'.Operators → k.isOperator = true → facts.type = some .error)) :
    Returns p s' fun _ s'' => Bound (· = user) s B f fs us (.node user k os₀) user s'' := by
  have hlt := Nat.lt_of_lt_of_le h.there h.reworks.proceeds.size
  refine (h.reworks.mono (M := (· = user)) fun _ => False.elim).notes hp (fun _ hu => .inl hu)
    hlt |>.imp ?_
  rintro _ s'' ⟨hreworks, hl, hfacts⟩
  obtain ⟨hbefore, hbelow⟩ := h.proceeds hl.proceeds
  obtain ⟨hcover, hoperator⟩ := hP _ hfacts
  refine ⟨cs, .node user k os, rfl, hr, hreworks, ?_, ?_⟩
  · refine Done.append_iff.mpr ⟨hbefore, .plain (NodeKind.isPlain_of_isStep hk) hbelow ?_⟩
    refine ⟨hcover, fun ho => hoperator (operators_congr hl.names.symm ho), ?_⟩
    rintro τ rfl
    simp [NodeKind.isStep] at hk
  · have hself : user ∈ exportsOf (cs ++ [.node user k os]) := by
      rw [exportsOf_append, Set.mem_union, mem_exportsOf_singleton]
      exact .inr (.whole (importFree_step (isImport_of_isStep hk) h.operands))
    have hthere : ∀ p ∈ ({user} : Set NodeId), Spared (fun _ => False) s p := by
      rintro _ rfl
      exact ⟨h.there, not_false⟩
    refine Hands.mono ((h.reworks.proceeds.hands hthere).trans (.of_temps hl.temps Set.Subset.rfl))
      (exportsOf_step hk) ?_
    rintro _ rfl
    exact hself

theorem Converted.keptOperation {p : Pass α} {P : Facts → Prop}
    (h : Converted s B f fs us user k cs os s') (hk : k.isOperation = true)
    (hp : Notes (· = user) (fun _ => True) user P p)
    (hP : ∀ facts, P facts → facts.Cover k ∧
      (s'.Operators → k.isOperator = true → facts.type = some .error)) :
    Returns p s' fun _ s'' => Bound (· = user) s B f fs us (.node user k os₀) user s'' :=
  h.kept (isStep_of_isOperation hk) (.kept hk h.casts h.operands) hp hP

/-- A new call of a built-in takes the operands of `user` and its place. -/
def placeCall (user : NodeId) (op : Builtin) (result : TypeId) : Pass NodeId := do
  let operands ← takeChildren user
  let call ← addNode (.builtinCall op) (← spanOf user) (← scopeOf user) operands
  substitute user call
  annotate call ({ · with type := some result, binding := some (.builtin op) })
  return call

theorem callBuiltin_eq (user : NodeId) (op : Builtin) (result : TypeId) :
    (do
      let operands ← takeChildren user
      let call ← addNode (.builtinCall op) (← spanOf user) (← scopeOf user) operands
      substitute user call
      annotate call ({ · with type := some result, binding := some (.builtin op) })
      foldCall call op
      return call) = (do
      let call ← placeCall user op result
      foldCall call op
      return call) := by
  simp [placeCall]

theorem returns_placeCall (hs : s.Scoped)
    (h : s.tree.Forest (plug (f :: fs) [.node user k os] ++ us)) (op : Builtin) (result : TypeId) :
    Returns (placeCall user op result) s fun call s' => s.tree.size ≤ call.index ∧
      Reworks (· = user) s
        (plug (f :: fs) [.node call (.builtinCall op) os] ++ .node user k [] :: us) s' ∧
      (s'.tree.facts call).type = some result ∧
      (s'.tree.facts call).binding = some (.builtin op) ∧ Hands s s' {user} {call} := by
  unfold placeCall
  simp only [triple_bind, triple_spanOf, triple_scopeOf, triple_pure]
  refine (Reworks.refl (N := fun _ => False) hs h).take.imp ?_
  rintro _ s₁ ⟨rfl, h₁⟩
  have h₁' := h₁.withForest (h₁.forest.swap _ _)
  refine (h₁'.addNode rfl (.inr ⟨user, rfl⟩)).imp ?_
  rintro j s₂ ⟨h₂, hj⟩
  let call : Tree := .node j (.builtinCall op) os
  have h₂' := (h₂.withForest (h₂.forest.perm List.perm_middle.symm)).mono (M := (· = user))
    fun _ => False.elim
  refine (h₂'.substitute (y := call) (.inl rfl)).imp ?_
  rintro - s₃ ⟨h₃, hretargets⟩
  have hlt : j.index < s₃.tree.size := h₃.forest.lt_size_gap j (by simp [call])
  refine (h₃.notes (.annotate (N := (· = j)) rfl
    (P := fun facts => facts.type = some result ∧ facts.binding = some (.builtin op))
    fun _ => ⟨rfl, rfl⟩) (by rintro _ rfl; exact .inr hj) hlt).imp ?_
  rintro - s₄ ⟨h₄, hl₄, hfacts⟩
  have hthere : ∀ p ∈ ({user} : Set NodeId), Spared (fun _ => False) s p := by
    rintro _ rfl
    exact ⟨h.lt_size_gap _ (by simp), not_false⟩
  have hover : Hands s₂ s₃ {user} {j} :=
    hretargets.hands rfl fun p hp hne => absurd hp hne
  exact ⟨hj, h₄, hfacts.1, hfacts.2, ((h₂.proceeds.hands hthere).trans hover).trans
    (.of_temps hl₄.temps Set.Subset.rfl)⟩

/-- The call is computed if its operands are constant. -/
theorem returns_callBuiltin (hs : s.Scoped)
    (h : s.tree.Forest (plug (f :: fs) [.node user k os] ++ us)) (op : Builtin) (result : TypeId) :
    Returns (do
        let operands ← takeChildren user
        let call ← addNode (.builtinCall op) (← spanOf user) (← scopeOf user) operands
        substitute user call
        annotate call ({ · with type := some result, binding := some (.builtin op) })
        foldCall call op
        return call) s fun call s' => s.tree.size ≤ call.index ∧
      Reworks (· = user) s (plug (f :: fs) [.node call (.builtinCall op) os] ++ us) s' ∧
      (s'.tree.facts call).type = some result ∧
      (s'.tree.facts call).binding = some (.builtin op) ∧ Hands s s' {user} {call} := by
  rw [callBuiltin_eq]
  refine triple_bind.mpr ((returns_placeCall hs h op result).imp ?_)
  rintro j s₁ ⟨hj, h₁, htype, hbinding, hhands⟩
  refine triple_bind.mpr ((returns_foldCall s₁ op).imp ?_)
  rintro - s₂ ⟨hl₂, htype₂, hbinding₂⟩
  have h₂ := h₁.learns hl₂ (by rintro _ rfl; exact .inr hj)
  exact ⟨hj, h₂.withForest h₂.forest.drop, htype₂.trans htype, hbinding₂.trans hbinding,
    hhands.trans (.of_temps hl₂.temps Set.Subset.rfl)⟩

theorem Converted.callBuiltin (h : Converted s B f fs us user k cs os s')
    (hk : k.isOperation = true) (op : Builtin) (result : TypeId) :
    Returns (do
        let operands ← takeChildren user
        let call ← addNode (.builtinCall op) (← spanOf user) (← scopeOf user) operands
        substitute user call
        annotate call ({ · with type := some result, binding := some (.builtin op) })
        foldCall call op
        return call) s' fun node s'' =>
      Bound (· = user) s B f fs us (.node user k os₀) node s'' := by
  refine (returns_callBuiltin h.reworks.session h.reworks.forest op result).imp ?_
  rintro j s'' ⟨hj, hr, htype, hbinding, hover⟩
  obtain ⟨hbefore, hbelow⟩ := h.proceeds hr.proceeds
  have hcasts := h.reworks.mono (M := (· = user)) fun _ => False.elim
  refine ⟨cs, .node j (.builtinCall op) os, rfl, ?_, hcasts.trans hr fun _ hu => .inl hu, ?_, ?_⟩
  · exact .builtin hk h.casts h.operands (Nat.le_trans h.reworks.proceeds.size hj)
  · refine Done.append_iff.mpr ⟨hbefore, .plain rfl hbelow ?_⟩
    exact .of_cover (.of_binding (by simp [htype]) (by simp [hbinding])) (by simp) rfl
  · have hthere : ∀ p ∈ ({user} : Set NodeId), Spared (fun _ => False) s p := by
      rintro _ rfl
      exact ⟨h.there, not_false⟩
    refine ((h.reworks.proceeds.hands hthere).trans hover).mono
      (exportsOf_step (isStep_of_isOperation hk)) ?_
    rintro _ rfl
    rw [exportsOf_append, Set.mem_union, mem_exportsOf_singleton]
    exact .inr (.whole (importFree_step rfl h.operands))

/-- A node of kind `k` may be bound to the declaration: an operator only to a built-in. -/
def MayMean (s : Session) (k : NodeKind) (id : DeclId) : Prop :=
  k.isOperator = true → s.Operators → ∃ op, (s.decl id).kind = .builtin op

/-- A user is bound to what it means. -/
theorem Converted.bindTo {id : DeclId} (h : Converted s B f fs us user k cs os s')
    (hk : k.isOperation = true) (signature : TypeId) (hid : MayMean s k id) :
    Returns (bindTo user id signature) s' fun node s'' =>
      Bound (· = user) s B f fs us (.node user k os₀) node s'' := by
  unfold Typing.bindTo
  simp only [resultOf, triple_bind, triple_types, triple_pure, triple_declOf]
  split
  · exact h.callBuiltin hk _ _
  · next hother =>
    refine triple_bind.mpr (h.keptOperation hk (.annotate (N := (· = user)) rfl
      (P := fun facts => facts.type.isSome = true ∧ facts.binding.isSome = true)
      fun _ => ⟨rfl, rfl⟩) fun facts hfacts => ⟨.of_binding hfacts.1 hfacts.2, fun ho hop => ?_⟩)
    have hnames := h.reworks.proceeds.names
    obtain ⟨op, hkind⟩ := hid hop (operators_congr hnames.symm ho)
    exact absurd (by rw [Decl.binding, decl_kind_congr hnames, hkind]) (hother op)

theorem Converted.bindFirst {id : DeclId} (h : Converted s B f fs us user k cs os s')
    (hk : k.isOperation = true) (name : String) (signature : TypeId) (tied : List DeclId)
    (hid : MayMean s k id) :
    Returns (do
        reportAmbiguity user name tied
        Typing.bindTo user id signature) s' fun node s'' =>
      Bound (· = user) s B f fs us (.node user k os₀) node s'' :=
  triple_bind.mpr ((h.learn (learner_reportAmbiguity _ _ _)).imp fun _ _ h =>
    h.bindTo hk signature hid)

/-- A user that is wrong. -/
theorem Converted.wrong {p : Pass α} (h : Converted s B f fs us user k cs os s')
    (hk : k.isOperation = true)
    (hp : Notes (· = user) (fun _ => True) user (·.type = some .error) p) :
    Returns p s' fun _ s'' => Bound (· = user) s B f fs us (.node user k os₀) user s'' :=
  h.keptOperation hk hp fun _ herror => ⟨.of_error herror, fun _ _ => herror⟩

theorem Converted.reportNoMatch (h : Converted s B f fs us user k cs os s')
    (hk : k.isOperation = true) (name : String) (arguments : TypeId) :
    Returns (reportNoMatch user name arguments) s' fun node s'' =>
      Bound (· = user) s B f fs us (.node user k os₀) node s'' := by
  have hgives : Gives (Typing.reportNoMatch user name arguments) user :=
    .bind fun _ => .bind fun _ => .bind fun _ => .pure _
  have hnotes := notes_reportNoMatch (N := (· = user)) (G := fun _ => True) rfl name arguments
  have hwrong : Returns (Typing.reportNoMatch user name arguments) s' fun _ s'' =>
      Bound (· = user) s B f fs us (.node user k os₀) user s'' := h.wrong hk hnotes
  refine (hwrong.and (hgives s')).imp ?_
  rintro _ s'' ⟨hb, rfl⟩
  exact hb

/-- Whatever is chosen is something that the user may mean. -/
theorem Converted.resolve {scope : ScopeId} {name : String}
    (h : Converted s B f fs us user k cs os s') (hscope : s.names.Has scope)
    (hname : k.isOperator = true → IsOperator name) (arguments : TypeId) :
    Returns (resolveOverload scope name arguments) s' fun resolution s'' =>
      Converted s B f fs us user k cs os s'' ∧
        ∀ id, resolution.chosen? = some id → MayMean s k id := by
  have hnames := h.reworks.proceeds.names
  have hchosen := returns_resolveOverload h.reworks.session (hnames ▸ hscope) name arguments
  refine ((h.learnIf (learner_resolveOverload (fun _ h => h) name arguments) hscope).and
    (hchosen.mono (fun _ _ h => h.2) fun _ _ => False.elim)).imp ?_
  rintro resolution s'' ⟨h', hbuiltin⟩
  refine ⟨h', fun id hid hk ho => ?_⟩
  obtain ⟨op, hop⟩ := hbuiltin (hname hk) (operators_congr hnames ho) id hid
  exact ⟨op, by rw [← decl_kind_congr hnames, hop]⟩

theorem Converted.analyzeOperator {symbol : String} (hf : f.kind = .basicBlock)
    (hk : k.isOperation = true) (hsymbol : k.isOperator = true → IsOperator symbol)
    (promotes : Bool) (h : Converted s B f fs us user k cs os s') :
    Returns (analyzeOperator user symbol promotes) s' fun node s'' =>
      Bound (· = user) s B f fs us (.node user k os₀) node s'' := by
  have hscope : s.names.Has (s'.tree.scope user) :=
    h.reworks.proceeds.names ▸ h.reworks.session.nodes user
  unfold Typing.analyzeOperator
  refine triple_bind.mpr (triple_scopeOf.mpr ?_)
  generalize s'.tree.scope user = scope at hscope ⊢
  refine triple_bind.mpr ((h.learn (learner_argumentTuple user)).imp fun arguments s₁ h => ?_)
  refine triple_bind.mpr ((h.resolve hscope hsymbol arguments).imp ?_)
  rintro resolution s₂ ⟨h, hchosen⟩
  refine triple_bind.mpr ((h.learn (learner_isExactMatch _ _)).imp fun isExact s₃ h => ?_)
  extract_lets bindFound afterRetry
  have hfound : ∀ arguments resolution s₄ cs os,
      (∀ id, Resolution.chosen? resolution = some id → MayMean s k id) →
      Converted s B f fs us user k cs os s₄ →
      Returns (bindFound (arguments, resolution)) s₄ fun node s'' =>
        Bound (· = user) s B f fs us (.node user k os₀) node s'' := by
    intro arguments resolution s₄ cs os hchosen h
    cases resolution with
    | resolved decl signature => exact h.bindTo hk signature (hchosen decl rfl)
    | ambiguous first signature tied =>
      exact h.bindFirst hk symbol signature tied (hchosen first rfl)
    | noMatch => exact h.reportNoMatch hk symbol arguments
    | notDefined => exact h.reportNoMatch hk symbol arguments
  clear_value bindFound
  have hafter : ∀ retry s₄ cs os, Converted s B f fs us user k cs os s₄ →
      Returns (afterRetry retry) s₄ fun node s'' =>
        Bound (· = user) s B f fs us (.node user k os₀) node s'' := by
    intro retry s₄ cs os h
    unfold afterRetry
    split
    · refine triple_bind.mpr ((h.learn (learner_argumentTuple user)).imp fun arguments s₅ h => ?_)
      refine triple_bind.mpr ((h.resolve hscope hsymbol arguments).imp ?_)
      rintro resolution s₆ ⟨h, hchosen⟩
      exact hfound arguments resolution s₆ cs os hchosen h
    · exact hfound arguments resolution s₄ cs os hchosen h
  clear_value afterRetry
  split
  · refine triple_bind.mpr ((h.promoteOperands hf).imp ?_)
    rintro retry s₄ ⟨cs, os, h⟩
    exact hafter retry s₄ cs os h
  · exact hafter false s₃ cs os h

theorem Converted.analyzeCall (h : Converted s B f fs us user (.call name) cs os s') :
    Returns (analyzeCall user name) s' fun node s'' =>
      Bound (· = user) s B f fs us (.node user (.call name) os₀) node s'' := by
  unfold Typing.analyzeCall
  refine triple_bind.mpr ((h.learn (learner_argumentTuple user)).imp fun arguments s₁ h => ?_)
  simp only [triple_bind, triple_scopeOf]
  have hscope : s.names.Has (s₁.tree.scope user) :=
    h.reworks.proceeds.names ▸ h.reworks.session.nodes user
  have hname : (NodeKind.call name).isOperator = true → IsOperator name := by
    simp [NodeKind.isOperator]
  refine (h.resolve hscope hname arguments).imp ?_
  rintro resolution s₂ ⟨h, hchosen⟩
  cases resolution with
  | resolved decl signature => exact h.bindTo rfl signature (hchosen decl rfl)
  | ambiguous first signature tied =>
    exact h.bindFirst rfl name signature tied (hchosen first rfl)
  | noMatch => exact h.reportNoMatch rfl name arguments
  | notDefined =>
    simp only [triple_bind]
    refine (h.learn (.reportAt _ _)).imp fun _ s₃ h => ?_
    exact h.wrong rfl (notes_setType (N := (· = user)) rfl _)

theorem Converted.unlessPoisoned (h : Converted s B f fs us user k cs os s')
    (hk : k.isOperation = true) (poisoned : Bool) {analyze : Pass NodeId}
    (ha : Returns analyze s' fun node s'' =>
      Bound (· = user) s B f fs us (.node user k os₀) node s'') :
    Returns (unlessPoisoned poisoned user analyze) s' fun node s'' =>
      Bound (· = user) s B f fs us (.node user k os₀) node s'' := by
  unfold Typing.unlessPoisoned
  split
  · exact triple_bind.mpr (h.wrong hk (notes_setType (N := (· = user)) rfl _))
  · exact ha

-- ---------------------------------------------------------------------------
-- Steps
-- ---------------------------------------------------------------------------

/-- A step whose operands are known is resolved where it stands. -/
theorem returns_plainStep (hf : f.kind = .basicBlock) (hk : k.isStep = true)
    (hi : k.isInferred = false) (missing : Pass TypeId) (result : Option TypeId) (poisoned : Bool)
    (h : Converted s B f fs us user k [] os s) :
    Returns (plainStep missing user k result poisoned) s fun node s' =>
      Bound (· = user) s B f fs us (.node user k os) node s' := by
  cases hop : k.isOperation with
  | true =>
    cases k with
    | binary op =>
      exact h.unlessPoisoned hop poisoned
        (h.analyzeOperator hf hop (fun _ => isOperator_binary op) _)
    | unary op =>
      exact h.unlessPoisoned hop poisoned
        (h.analyzeOperator hf hop (fun _ => isOperator_unary op) _)
    | call name => exact h.unlessPoisoned hop poisoned h.analyzeCall
    | _ => simp [NodeKind.isOperation] at hop
  | false =>
    have hnotes := notes_plainStep (N := (· = user)) (G := fun _ => True) rfl hk hop hi missing
      result poisoned
    have hkept : Returns (plainStep missing user k result poisoned) s fun _ s' =>
        Bound (· = user) s B f fs us (.node user k os) user s' := by
      refine h.kept hk .same hnotes fun facts hcover => ⟨hcover, fun _ ho => ?_⟩
      cases k <;> simp [NodeKind.isOperator, NodeKind.isOperation] at ho hop
    refine (hkept.and (gives_plainStep hop missing result poisoned s)).imp ?_
    rintro _ s' ⟨hb, rfl⟩
    exact hb

end

/-- A temporary whose producer has a type gets that type. -/
theorem returns_copyProducer {j p : NodeId} {τ : TempId} (hs : s.Scoped)
    (hset : s.temps[τ.index]? = some p) (htyped : (s.tree.facts p).type.isSome = true)
    (hlt : j.index < s.tree.size) (missing : Pass TypeId) :
    Returns (copyProducer missing j τ) s fun _ s' => Learns (· = j) s s' ∧
      (s'.tree.facts j).type = (s.tree.facts p).type := by
  obtain ⟨type, htype⟩ := Option.isSome_iff_exists.mp htyped
  have hend : ∀ value, Notes (· = j) (fun _ => True) j (·.type = some type)
      (annotate j fun _ => { s.tree.facts p with type := some type, value }) :=
    fun _ => .annotate (N := (· = j)) rfl fun _ => rfl
  have hrun : ∀ {q : Pass Unit}, Notes (· = j) (fun _ => True) j (·.type = some type) q →
      Returns q s fun _ s' => Learns (· = j) s s' ∧ (s'.tree.facts j).type = some type :=
    fun hq => (hq s hs trivial).imp fun _ _ h => ⟨h.1, h.2 hlt⟩
  unfold copyProducer
  simp only [triple_bind, triple_get, triple_factsOf, hset, Option.getD_some, htype, triple_pure]
  split
  · exact hrun (.after (learner_duplicate _).map hend)
  · exact hrun (.after (.pure _) hend)

/-- The operands of a step that is ready are all known afterwards. -/
theorem returns_readEach {os : List Tree} {parent : Option NodeId} (hs : s.Scoped)
    (h : s.tree.HoldsAll parent os) (hn : (idsOf os).Nodup) (ho : ∀ o ∈ os, IsTemp o)
    (hr : ∀ o ∈ os, Ready s B o) (missing : Pass TypeId) :
    Returns ((os.map Tree.handle).forM fun operand => do
        match ← kindOf operand with
        | .temp temp => copyProducer missing operand temp
        | _ => return) s fun _ s' =>
      Learns (· ∈ idsOf os) s s' ∧ ∀ o ∈ os, Done s' B [o] := by
  induction os generalizing s with
  | nil => exact ⟨.refl s, by simp⟩
  | cons o os ih =>
    obtain ⟨j, τ, rfl⟩ := ho o List.mem_cons_self
    rw [List.forall_mem_cons] at ho hr
    obtain ⟨hro, hr⟩ := hr
    obtain ⟨p, hset, hp⟩ := hro.fed.set
    rw [Arena.holdsAll_cons] at h
    have hkind : s.tree.kind j = .temp τ := h.1.kind
    have hj := h.1.lt_size j (by simp)
    have hne : p ≠ j := fun he => hro.apart p hp (by simp [he])
    have hfirst : j ∉ idsOf os := by
      simp only [Tree.idsOf_cons, Tree.ids_node, Tree.idsOf_nil, List.nil_append,
        List.singleton_append, List.nodup_cons] at hn
      exact hn.1
    simp only [List.map_cons, Tree.handle_node, triple_forM_cons, triple_bind, triple_kindOf, hkind]
    refine (returns_copyProducer hs hset (hro.known p hp).2 hj missing).imp ?_
    rintro - s₁ ⟨hl₁, htype⟩
    have hready : ∀ o ∈ os, Ready s₁ B o := by
      refine fun o hm => (hr o hm).proceeds hl₁.proceeds (fun id hid => ⟨?_, ?_⟩) fun p hp he => ?_
      · exact h.2.lt_size id (Tree.mem_idsOf.mpr ⟨o, hm, hid⟩)
      · rintro rfl
        exact hfirst (Tree.mem_idsOf.mpr ⟨o, hm, hid⟩)
      · exact hro.apart p hp (by simp [he])
    refine (ih (hl₁.scoped hs) (h.2.congr fun id _ => hl₁.links id)
      (by simpa using hn.of_append_right) ho.2 hready).imp ?_
    rintro - s₂ ⟨hl₂, hdone⟩
    have htyped : (s₁.tree.facts p).type.isSome = true := by
      rw [hl₁.facts hne]
      exact (hro.known p hp).2
    have hdone₁ : Done s₁ B [.node j (.temp τ) []] :=
      .temp (hl₁.temps ▸ hset) hp htyped (by rw [htype, hl₁.facts hne])
    refine ⟨(hl₁.mono ?_).trans (hl₂.mono ?_), List.forall_mem_cons.mpr ⟨?_, hdone⟩⟩
    · rintro _ rfl
      simp
    · intro id hid
      simp [hid]
    · refine hdone₁.proceeds hl₂.proceeds (fun id hid => ?_) fun q hq => ⟨?_, fun hm => ?_⟩
      · obtain rfl : id = j := by simpa using hid
        exact ⟨Nat.lt_of_lt_of_le hj hl₁.size_le, hfirst⟩
      · exact Nat.lt_of_lt_of_le (hro.known q hq).1 hl₁.size_le
      · obtain ⟨o, ho, hqo⟩ := Tree.mem_idsOf.mp hm
        exact (hr o ho).apart q hq hqo

/-- A step of a basic block is resolved where it stands. -/
theorem returns_analyzeStep {t : Tree} (hf : f.kind = .basicBlock) (ht : Step t)
    (hi : t.kind.isInferred = false) (hs : s.Scoped)
    (h : s.tree.Forest (plug (f :: fs) [t] ++ us)) (hr : Ready s B t) (missing : Pass TypeId)
    (result : Option TypeId) (fuel : Nat) :
    Returns (analyzeStep missing result (fuel + 1) t.handle) s fun node s' =>
      Bound (· ∈ t.ids) s B f fs us t node s' := by
  cases t with
  | node i k os =>
    have hstep : k.isStep = true := ht.kind
    have hkind : s.tree.kind i = k := h.gap.kind
    have hchildren : s.tree.children i = os.map Tree.handle := h.gap.children
    have hnodup := h.nodup_gap
    simp only [Tree.idsOf_cons, Tree.ids_node, Tree.idsOf_nil, List.append_nil] at hnodup
    unfold analyzeStep
    simp only [Tree.handle_node, readOperands, triple_bind, triple_kindOf, triple_childrenOf, hkind,
      hchildren]
    refine (returns_readEach hs h.gap.below hnodup.of_append_left ht.operands
      (fun o ho => hr.child (NodeKind.isPlain_of_isStep hstep) ho) missing).imp ?_
    rintro - s₁ ⟨hl₁, hdone⟩
    refine (learner_isPoisoned (N := fun _ => False) (G := fun _ => True) i s₁ (hl₁.scoped hs)
      trivial).imp fun poisoned s₂ hl₂ => ?_
    have hl : Learns (· ∈ idsOf os) s s₂ := hl₁.trans (hl₂.mono fun _ => False.elim)
    have hspared : ∀ p ∈ B, Spared (· = i) s₂ p := by
      intro p hp
      refine ⟨Nat.lt_of_lt_of_le (hr.known p hp).1 hl.size_le, ?_⟩
      rintro rfl
      exact hr.apart p hp (by simp)
    have hdone₂ : ∀ o ∈ os, Done s₂ B [o] := by
      refine fun o ho => (hdone o ho).proceeds hl₂.proceeds (fun id hid => ⟨?_, not_false⟩)
        fun p hp => ⟨Nat.lt_of_lt_of_le (hr.known p hp).1 hl₁.size_le, not_false⟩
      have hid' : id ∈ idsOf os := Tree.mem_idsOf.mpr ⟨o, ho, by simpa using hid⟩
      exact Nat.lt_of_lt_of_le (h.lt_size_gap id (by simp [hid'])) hl₁.size_le
    have hconverted : Converted s₂ B f fs us i k [] os s₂ :=
      .refl (hl.scoped hs) (hl.forest h) hspared ht.operands hdone₂
    have hplain : Returns (plainStep missing i k result poisoned) s₂ fun node s' =>
        Bound (· ∈ (Tree.node i k os).ids) s B f fs us (.node i k os) node s' := by
      refine (returns_plainStep hf hstep hi missing result poisoned hconverted).imp ?_
      rintro _ s₃ ⟨cs, t', rfl, hresolves, hpast⟩
      have hreads : Reworks (· ∈ (Tree.node i k os).ids) s _ s₂ :=
        (Reworks.refl hs h).learns hl fun id hid => .inl (by simp [hid])
      refine ⟨cs, t', rfl, hresolves.mono hl.size_le, hpast.from hreads ?_ ?_⟩
      · rintro _ rfl
        exact .inl (by simp)
      · exact .of_temps hl.temps Set.Subset.rfl
    split
    case h_11 => exact hplain
    all_goals exact absurd hstep (by simp [NodeKind.isStep, NodeKind.isExpression])

end Typing
end BlockLang
