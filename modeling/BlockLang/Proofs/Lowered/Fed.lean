import BlockLang.Proofs.Lowered.Form
import Mathlib.Data.Set.Basic

/-!
# Where temporaries get their values

`Fed` says that every temporary in a tree is set by a node that comes before it: by one
of those in a given set, or by one in front of it in the same sequence of statements. The
body of a function starts with nothing. Lowering leads to trees of which this holds.
-/

namespace BlockLang

open BlockLang.Tree (idsOf)

namespace NodeKind

/-- Whether the children of a node are run one after the other, so that a later one may use
what an earlier one has computed. -/
def isSequence : NodeKind → Bool
  | .moduleRoot _ | .pair | .basicBlock => true
  | _ => false

/-- Whether the children of a node may only use what was there before all of them. -/
def isPlain : NodeKind → Bool
  | .temp _ | .funcDecl _ => false
  | kind => !kind.isSequence

theorem ne_funcDecl_of_isSequence {k : NodeKind} (h : k.isSequence = true) (d : DeclId) :
    k ≠ .funcDecl d := by
  rintro rfl
  simp [isSequence] at h

theorem ne_funcDecl_of_isPlain {k : NodeKind} (h : k.isPlain = true) (d : DeclId) :
    k ≠ .funcDecl d := by
  rintro rfl
  simp [isPlain] at h

theorem isPlain_of_isStep {k : NodeKind} (h : k.isStep = true) : k.isPlain = true := by
  cases k <;> first | rfl | simp [isStep, isExpression] at h

theorem eq_of_isControlFlow {k : NodeKind} (h : k.isControlFlow = true) :
    k = .ifElse ∨ k = .whileLoop := by
  cases k <;> first | exact .inl rfl | exact .inr rfl | simp [isControlFlow] at h

theorem isPlain_of_isControlFlow {k : NodeKind} (h : k.isControlFlow = true) :
    k.isPlain = true := by
  rcases eq_of_isControlFlow h with rfl | rfl <;> rfl

end NodeKind

-- ---------------------------------------------------------------------------
-- What can be used
-- ---------------------------------------------------------------------------

/-- The nodes of a statement whose values may be used after it. -/
inductive Tree.Exports : Tree → NodeId → Prop
  | whole (free : t.ImportFree) : Exports t t.handle
  | part (kind : k.isSequence = true) (mem : c ∈ cs) (below : Exports c p) :
    Exports (.node i k cs) p

def exportsOf (ts : List Tree) : Set NodeId := {p | ∃ t ∈ ts, t.Exports p}

section
variable {t : Tree} {ts us : List Tree} {p : NodeId}

theorem mem_exportsOf : p ∈ exportsOf ts ↔ ∃ t ∈ ts, t.Exports p := Iff.rfl

@[simp] theorem exportsOf_nil : exportsOf [] = ∅ := by
  ext p
  simp [mem_exportsOf]

@[simp] theorem exportsOf_append (ts us : List Tree) :
    exportsOf (ts ++ us) = exportsOf ts ∪ exportsOf us := by
  ext p
  simp [mem_exportsOf, or_and_right, exists_or]

theorem exportsOf_cons (t : Tree) (ts : List Tree) :
    exportsOf (t :: ts) = exportsOf [t] ∪ exportsOf ts := exportsOf_append [t] ts

@[simp] theorem mem_exportsOf_singleton : p ∈ exportsOf [t] ↔ t.Exports p := by
  simp [mem_exportsOf]

theorem Tree.Exports.mem_ids (h : t.Exports p) : p ∈ t.ids := by
  induction h with
  | whole => exact Tree.handle_mem_ids _
  | part _ mem _ ih =>
    rw [Tree.ids_node, List.mem_append]
    exact .inl (Tree.mem_idsOf.mpr ⟨_, mem, ih⟩)

theorem mem_idsOf_of_exportsOf (h : p ∈ exportsOf ts) : p ∈ idsOf ts := by
  obtain ⟨t, ht, hp⟩ := h
  exact Tree.mem_idsOf.mpr ⟨t, ht, hp.mem_ids⟩

/-- Only the node itself can be used, unless it is a sequence. -/
theorem Tree.Exports.eq_handle (h : (Tree.node i k cs).Exports p) (hk : k.isSequence = false) :
    p = i ∧ (Tree.node i k cs).ImportFree := by
  cases h with
  | whole free => exact ⟨rfl, free⟩
  | part kind => simp [hk] at kind

theorem exportsOf_subset_exports (hk : k.isSequence = true) :
    exportsOf cs ⊆ exportsOf [.node i k cs] := by
  rintro p ⟨c, hc, hp⟩
  exact mem_exportsOf_singleton.mpr (.part hk hc hp)

end

-- ---------------------------------------------------------------------------
-- Temporaries that are set
-- ---------------------------------------------------------------------------

/-- Every temporary is set by a node of `B` or by one that comes before it in the tree. -/
inductive Fed (temps : Array NodeId) : Set NodeId → Tree → Prop
  | temp (set : temps[τ.index]? = some p) (known : p ∈ B) : Fed temps B (.node i (.temp τ) [])
  | sequence (kind : k.isSequence = true)
    (parts : ∀ l c r, cs = l ++ c :: r → Fed temps (B ∪ exportsOf l) c) :
    Fed temps B (.node i k cs)
  | function (body : ∀ c ∈ cs, Fed temps ∅ c) : Fed temps B (.node i (.funcDecl d) cs)
  | plain (kind : k.isPlain = true) (parts : ∀ c ∈ cs, Fed temps B c) : Fed temps B (.node i k cs)

/-- Each tree may use what those before it have computed. -/
def FedSeq (temps : Array NodeId) (B : Set NodeId) (ts : List Tree) : Prop :=
  ∀ l c r, ts = l ++ c :: r → Fed temps (B ∪ exportsOf l) c

section
variable {temps temps' : Array NodeId} {B B' : Set NodeId} {t u : Tree} {ts us cs : List Tree}

/-- The nodes that set temporaries may change where they are known, but not inside. -/
theorem Fed.transport (h : Fed temps B t)
    (hB : ∀ (τ : Nat) p, temps[τ]? = some p → p ∈ B → ∃ p', temps'[τ]? = some p' ∧ p' ∈ B')
    (hids : ∀ (τ : Nat) p, temps[τ]? = some p → p ∈ t.ids → temps'[τ]? = some p) :
    Fed temps' B' t := by
  induction h generalizing B' with
  | temp set known =>
    obtain ⟨p', hset, hp'⟩ := hB _ _ set known
    exact .temp hset hp'
  | @sequence k cs B i kind _ ih =>
    refine .sequence kind fun l c r hcs =>
      ih l c r hcs (fun τ p hset hp => ?_) fun τ p hset hp => ?_
    · rcases hp with hp | hp
      · obtain ⟨p', hset', hp'⟩ := hB τ p hset hp
        exact ⟨p', hset', .inl hp'⟩
      · exact ⟨p, hids τ p hset (by simp [hcs, mem_idsOf_of_exportsOf hp]), .inr hp⟩
    · exact hids τ p hset (by simp [hcs, hp])
  | function _ ih =>
    refine .function fun c hc => ih c hc (fun _ _ _ hp => hp.elim) fun τ p hset hp => ?_
    exact hids τ p hset (by simp [Tree.mem_idsOf.mpr ⟨c, hc, hp⟩])
  | plain kind _ ih =>
    refine .plain kind fun c hc => ih c hc hB fun τ p hset hp => ?_
    exact hids τ p hset (by simp [Tree.mem_idsOf.mpr ⟨c, hc, hp⟩])

theorem Fed.mono (h : Fed temps B t) (hB : B ⊆ B') : Fed temps B' t :=
  h.transport (fun _ p hset hp => ⟨p, hset, hB hp⟩) fun _ _ hset _ => hset

theorem FedSeq.mono (h : FedSeq temps B ts) (hB : B ⊆ B') : FedSeq temps B' ts :=
  fun l c r hts => (h l c r hts).mono (Set.union_subset_union_left _ hB)

@[simp] theorem fedSeq_nil : FedSeq temps B [] := fun l c r h => by simp at h

theorem fedSeq_append :
    FedSeq temps B (ts ++ us) ↔ FedSeq temps B ts ∧ FedSeq temps (B ∪ exportsOf ts) us := by
  constructor
  · intro h
    refine ⟨fun l c r hts => h l c (r ++ us) (by simp [hts]), fun l c r hus => ?_⟩
    refine (h (ts ++ l) c r (by simp [hus])).mono ?_
    rw [exportsOf_append, Set.union_assoc]
  · rintro ⟨hts, hus⟩ l c r heq
    rcases List.append_eq_append_iff.mp heq with ⟨l', rfl, hl'⟩ | ⟨r', hr', heq'⟩
    · refine (hus l' c r hl').mono ?_
      rw [exportsOf_append, Set.union_assoc]
    · cases r' with
      | nil =>
        obtain rfl : ts = l := by simpa using hr'
        refine (hus [] c r (by simpa using heq'.symm)).mono ?_
        simp
      | cons d r' =>
        obtain ⟨rfl, -⟩ := List.cons.inj (by simpa using heq' : c :: r = d :: (r' ++ us))
        exact hts l c r' hr'

@[simp] theorem fedSeq_singleton : FedSeq temps B [t] ↔ Fed temps B t := by
  constructor
  · intro h
    simpa using h [] t [] rfl
  · intro h l c r heq
    obtain ⟨rfl, rfl, rfl⟩ : l = [] ∧ c = t ∧ r = [] := by
      cases l with
      | nil => simpa [eq_comm] using heq
      | cons a l => simp at heq
    simpa using h

theorem fedSeq_cons : FedSeq temps B (t :: ts) ↔
    Fed temps B t ∧ FedSeq temps (B ∪ exportsOf [t]) ts := by
  rw [← List.singleton_append, fedSeq_append, fedSeq_singleton]

theorem FedSeq.transport (h : FedSeq temps B ts)
    (hB : ∀ (τ : Nat) p, temps[τ]? = some p → p ∈ B → ∃ p', temps'[τ]? = some p' ∧ p' ∈ B')
    (hids : ∀ (τ : Nat) p, temps[τ]? = some p → p ∈ idsOf ts → temps'[τ]? = some p) :
    FedSeq temps' B' ts := by
  intro l c r hts
  refine (h l c r hts).transport (fun τ p hset hp => ?_) fun τ p hset hp => ?_
  · rcases hp with hp | hp
    · obtain ⟨p', hset', hp'⟩ := hB τ p hset hp
      exact ⟨p', hset', .inl hp'⟩
    · exact ⟨p, hids τ p hset (by simp [hts, mem_idsOf_of_exportsOf hp]), .inr hp⟩
  · exact hids τ p hset (by simp [hts, hp])

/-- The statements of a sequence. -/
theorem Fed.parts (h : Fed temps B (.node i k cs)) (hk : k.isSequence = true) :
    FedSeq temps B cs := by
  cases h with
  | temp | function => simp [NodeKind.isSequence] at hk
  | sequence _ parts => exact parts
  | plain kind => cases k <;> simp [NodeKind.isSequence, NodeKind.isPlain] at hk kind

/-- The parts of a node that is no sequence. -/
theorem Fed.child (h : Fed temps B (.node i k cs)) (hk : k.isPlain = true) (hc : c ∈ cs) :
    Fed temps B c := by
  cases h with
  | temp | function => simp [NodeKind.isPlain] at hk
  | sequence kind => cases k <;> simp [NodeKind.isSequence, NodeKind.isPlain] at hk kind
  | plain _ parts => exact parts c hc

theorem Fed.body (h : Fed temps B (.node i (.funcDecl d) cs)) (hc : c ∈ cs) : Fed temps ∅ c := by
  cases h with
  | sequence kind => simp [NodeKind.isSequence] at kind
  | function body => exact body c hc
  | plain kind => simp [NodeKind.isPlain] at kind

theorem Fed.set (h : Fed temps B (.node i (.temp τ) cs)) :
    ∃ p, temps[τ.index]? = some p ∧ p ∈ B := by
  cases h with
  | temp set known => exact ⟨_, set, known⟩
  | sequence kind => simp [NodeKind.isSequence] at kind
  | plain kind => simp [NodeKind.isPlain] at kind

/-- What a tree reads from outside was computed outside, wherever it stands. -/
theorem Fed.subtree (h : Fed temps B t) (hu : u ∈ t.subtrees) (hn : t.ids.Nodup)
    (hB : ∀ p ∈ B, p ∉ t.ids) : ∃ B', Fed temps B' u ∧ ∀ p ∈ B', p ∉ u.ids := by
  induction h with
  | temp set known =>
    obtain rfl := by simpa using hu
    exact ⟨_, .temp set known, hB⟩
  | sequence kind parts ih =>
    simp only [Tree.subtrees_node, List.mem_append, List.mem_singleton] at hu
    rcases hu with hu | rfl
    · obtain ⟨c, hc, huc⟩ := Tree.mem_subtreesOf.mp hu
      obtain ⟨l, r, rfl⟩ := List.append_of_mem hc
      refine ih l c r rfl huc (Tree.nodup_ids_of_mem hn (by simp)) fun p hp hm => ?_
      rcases hp with hp | hp
      · exact hB p hp (by simp [hm])
      · simp only [Tree.ids_node, Tree.idsOf_append, Tree.idsOf_cons, List.append_assoc] at hn
        exact (List.nodup_append.mp hn).2.2 p (mem_idsOf_of_exportsOf hp) p (by simp [hm]) rfl
    · exact ⟨_, .sequence kind parts, hB⟩
  | function body ih =>
    simp only [Tree.subtrees_node, List.mem_append, List.mem_singleton] at hu
    rcases hu with hu | rfl
    · obtain ⟨c, hc, hu⟩ := Tree.mem_subtreesOf.mp hu
      exact ih c hc hu (Tree.nodup_ids_of_mem hn hc) fun p hp => hp.elim
    · exact ⟨_, .function body, hB⟩
  | plain kind parts ih =>
    simp only [Tree.subtrees_node, List.mem_append, List.mem_singleton] at hu
    rcases hu with hu | rfl
    · obtain ⟨c, hc, hu⟩ := Tree.mem_subtreesOf.mp hu
      refine ih c hc hu (Tree.nodup_ids_of_mem hn hc) fun p hp hm => hB p hp ?_
      simp [Tree.mem_idsOf.mpr ⟨c, hc, hm⟩]
    · exact ⟨_, .plain kind parts, hB⟩

end

-- ---------------------------------------------------------------------------
-- Order
-- ---------------------------------------------------------------------------

namespace Tree

mutual
/-- The handles of a tree in the order the nodes are run, each after those below it. Nodes
inside of functions are not among them. -/
def own : Tree → List NodeId
  | node id (.funcDecl _) _ => [id]
  | node id _ children => ownOf children ++ [id]
def ownOf : List Tree → List NodeId
  | [] => []
  | t :: ts => t.own ++ ownOf ts
end

@[simp] theorem ownOf_nil : ownOf [] = [] := by rw [ownOf]
@[simp] theorem ownOf_cons : ownOf (t :: ts) = t.own ++ ownOf ts := by rw [ownOf]

@[simp] theorem ownOf_append (ts us : List Tree) : ownOf (ts ++ us) = ownOf ts ++ ownOf us := by
  induction ts with
  | nil => simp
  | cons t ts ih => simp [ih]

theorem own_node (h : ∀ d, k ≠ .funcDecl d) : (node i k cs).own = ownOf cs ++ [i] := by
  rw [own]
  exact h

theorem own_sublist_ownOf {ts : List Tree} (h : t ∈ ts) : t.own.Sublist (ownOf ts) := by
  obtain ⟨l, r, rfl⟩ := List.append_of_mem h
  rw [ownOf_append, ownOf_cons]
  exact (List.sublist_append_left _ _).trans (List.sublist_append_right _ _)

theorem ownOf_sublist_own (h : ∀ d, k ≠ .funcDecl d) :
    (ownOf cs).Sublist (node i k cs).own := by
  rw [own_node h]
  exact List.sublist_append_left _ _

theorem handle_mem_own (t : Tree) : t.handle ∈ t.own := by
  cases t with
  | node i k cs => cases k <;> simp [own]

theorem Exports.mem_own {t : Tree} (h : t.Exports p) : p ∈ t.own := by
  induction h with
  | whole => exact handle_mem_own _
  | part kind mem _ ih =>
    exact (ownOf_sublist_own (NodeKind.ne_funcDecl_of_isSequence kind)).subset
      ((own_sublist_ownOf mem).subset ih)

/-- Among statements `p` is run before `q`, both outside of functions or in the body of the
same one. -/
def RunsBefore (ts : List Tree) (p q : NodeId) : Prop :=
  [p, q].Sublist (ownOf ts) ∨
    ∃ f ∈ subtreesOf ts, (∃ d, f.kind = .funcDecl d) ∧ [p, q].Sublist (ownOf f.children)

variable {ts us : List Tree} {p q : NodeId}

theorem ownOf_sublist_idsOf_of {ts : List Tree} (h : ∀ t ∈ ts, t.own.Sublist t.ids) :
    (ownOf ts).Sublist (idsOf ts) := by
  induction ts with
  | nil => simp
  | cons t ts ih =>
    rw [List.forall_mem_cons] at h
    simpa using h.1.append (ih h.2)

theorem own_sublist_ids (t : Tree) : t.own.Sublist t.ids := by
  induction t with
  | node i k cs ih =>
    rw [ids_node]
    cases k with
    | funcDecl d => simp [own]
    | _ =>
      rw [own_node (by simp)]
      exact (ownOf_sublist_idsOf_of ih).append_right _

theorem ownOf_sublist_idsOf (ts : List Tree) : (ownOf ts).Sublist (idsOf ts) :=
  ownOf_sublist_idsOf_of fun t _ => t.own_sublist_ids

theorem RunsBefore.mem_idsOf (h : RunsBefore ts p q) : p ∈ idsOf ts := by
  rcases h with h | ⟨f, hf, -, h⟩
  · exact (ownOf_sublist_idsOf ts).subset (h.subset (by simp))
  · obtain ⟨t, ht, hft⟩ := mem_subtreesOf.mp hf
    have hp : p ∈ idsOf f.children := (ownOf_sublist_idsOf _).subset (h.subset (by simp))
    obtain ⟨c, hc, hp⟩ := Tree.mem_idsOf.mp hp
    obtain ⟨u, hu, rfl⟩ := Tree.mem_ids.mp hp
    have huf := subtrees_trans (child_mem_subtrees hc) hu
    exact Tree.mem_idsOf.mpr ⟨t, ht, Tree.mem_ids.mpr ⟨u, subtrees_trans hft huf, rfl⟩⟩

theorem RunsBefore.mono (h : RunsBefore ts p q) (ho : (ownOf ts).Sublist (ownOf us))
    (hs : subtreesOf ts ⊆ subtreesOf us) : RunsBefore us p q := by
  rcases h with h | ⟨f, hf, hd, h⟩
  · exact .inl (h.trans ho)
  · exact .inr ⟨f, hs hf, hd, h⟩

/-- What is run before something in a statement is run before it in any list of those. -/
theorem RunsBefore.of_mem (h : RunsBefore [t] p q) (ht : t ∈ ts) : RunsBefore ts p q := by
  refine h.mono (by simpa using own_sublist_ownOf ht) fun u hu => ?_
  exact mem_subtreesOf.mpr ⟨t, ht, by simpa using hu⟩

theorem RunsBefore.below (h : RunsBefore cs p q) (hk : ∀ d, k ≠ .funcDecl d) :
    RunsBefore [node i k cs] p q :=
  h.mono (by simpa using ownOf_sublist_own hk) fun u hu => by simp [hu]

/-- Both are in the body of a function then. -/
theorem RunsBefore.body (h : RunsBefore cs p q) : RunsBefore [node i (.funcDecl d) cs] p q := by
  rcases h with h | ⟨f, hf, hd, h⟩
  · exact .inr ⟨node i (.funcDecl d) cs, by simp, ⟨d, rfl⟩, h⟩
  · exact .inr ⟨f, by simp [hf], hd, h⟩

end Tree

section
variable {temps : Array NodeId} {B : Set NodeId} {t u : Tree} {ts cs : List Tree}

open BlockLang.Tree (RunsBefore)

/-- A temporary below a node of another kind is below one of its children. -/
theorem exists_child_of_temp (hu : u ∈ (Tree.node i k cs).subtrees) (hk : u.kind = .temp τ)
    (hne : k ≠ .temp τ) : ∃ c ∈ cs, u ∈ c.subtrees := by
  simp only [Tree.subtrees_node, List.mem_append, List.mem_singleton] at hu
  refine Tree.mem_subtreesOf.mp (hu.resolve_right ?_)
  rintro rfl
  exact hne hk

/-- What a statement uses was there before the sequence it is in, or is run in it. -/
theorem runsBefore_of_part (hts : ts = l ++ c :: r)
    (h : p ∈ B ∪ exportsOf l ∧ q ∈ c.own ∨ RunsBefore [c] p q) :
    p ∈ B ∧ q ∈ Tree.ownOf ts ∨ RunsBefore ts p q := by
  have hc : c ∈ ts := by simp [hts]
  rcases h with ⟨hp | ⟨d, hd, hp⟩, hq⟩ | h
  · exact .inl ⟨hp, (Tree.own_sublist_ownOf hc).subset hq⟩
  · have hpl : p ∈ Tree.ownOf l := (Tree.own_sublist_ownOf hd).subset hp.mem_own
    have hpq : [p, q].Sublist (Tree.ownOf l ++ c.own) :=
      (List.singleton_sublist.mpr hpl).append (List.singleton_sublist.mpr hq)
    rw [hts]
    refine .inr (.inl ?_)
    rw [Tree.ownOf_append, Tree.ownOf_cons, ← List.append_assoc]
    exact hpq.trans (List.sublist_append_left _ _)
  · exact .inr (h.of_mem hc)

/-- What sets a temporary was there before, or is run before it. -/
theorem Fed.runsBefore (h : Fed temps B t) (hu : u ∈ t.subtrees) (hk : u.kind = .temp τ) :
    ∃ p, temps[τ.index]? = some p ∧ (p ∈ B ∧ u.handle ∈ t.own ∨ RunsBefore [t] p u.handle) := by
  induction h with
  | temp set known =>
    obtain rfl := by simpa using hu
    obtain rfl := NodeKind.temp.inj hk
    exact ⟨_, set, .inl ⟨known, Tree.handle_mem_own _⟩⟩
  | sequence kind _ ih =>
    have hne := NodeKind.ne_funcDecl_of_isSequence kind
    obtain ⟨c, hc, huc⟩ := exists_child_of_temp hu hk
      (by rintro rfl; simp [NodeKind.isSequence] at kind)
    obtain ⟨l, r, hcs⟩ := List.append_of_mem hc
    obtain ⟨p, hset, h⟩ := ih l c r hcs huc
    refine ⟨p, hset, (runsBefore_of_part hcs h).imp (fun h => ⟨h.1, ?_⟩) fun h => h.below hne⟩
    exact (Tree.ownOf_sublist_own hne).subset h.2
  | function _ ih =>
    obtain ⟨c, hc, huc⟩ := exists_child_of_temp hu hk nofun
    obtain ⟨p, hset, h⟩ := ih c hc huc
    exact ⟨p, hset, .inr ((h.resolve_left fun h => h.1.elim).of_mem hc).body⟩
  | plain kind _ ih =>
    have hne := NodeKind.ne_funcDecl_of_isPlain kind
    obtain ⟨c, hc, huc⟩ := exists_child_of_temp hu hk
      (by rintro rfl; simp [NodeKind.isPlain] at kind)
    obtain ⟨p, hset, h⟩ := ih c hc huc
    refine ⟨p, hset, h.imp (fun h => ⟨h.1, ?_⟩) fun h => (h.of_mem hc).below hne⟩
    exact (Tree.ownOf_sublist_own hne).subset ((Tree.own_sublist_ownOf hc).subset h.2)

/-- Where nothing was there before, every temporary is set by a node run before it. -/
theorem FedSeq.runsBefore (h : FedSeq temps ∅ ts) (hu : u ∈ Tree.subtreesOf ts)
    (hk : u.kind = .temp τ) : ∃ p, temps[τ.index]? = some p ∧ RunsBefore ts p u.handle := by
  obtain ⟨c, hc, huc⟩ := Tree.mem_subtreesOf.mp hu
  obtain ⟨l, r, hts⟩ := List.append_of_mem hc
  obtain ⟨p, hset, h'⟩ := (h l c r hts).runsBefore huc hk
  exact ⟨p, hset, (runsBefore_of_part hts h').resolve_left fun h => h.1.elim⟩

end
end BlockLang
