import BlockLang.Proofs.Lowered.Feeds
import BlockLang.Proofs.Session.Operators
import BlockLang.Proofs.Typing.Notes
import BlockLang.Proofs.Typing.Reworks

/-!
# What inference is through with

`Done` says of trees that inference has come past them: every node has been taken note
of, and every temporary has the type of the node that sets it, which comes before it. A
tree is `Ready` if what it uses is known. Both survive whatever happens elsewhere.
-/

namespace BlockLang

open BlockLang.Tree (idsOf subtreesOf)

variable {N : NodeId → Prop} {s s' s'' : Session} {B B' E E' E'' : Set NodeId} {t u : Tree}
  {ts us cs : List Tree} {p : NodeId}

/-- A node that is there, and is none of `N`. -/
def Spared (N : NodeId → Prop) (s : Session) (p : NodeId) : Prop := p.index < s.tree.size ∧ ¬ N p

theorem operators_congr (h : s'.names = s.names) (ho : s.Operators) : s'.Operators :=
  ho.congr (congrArg Names.scopes h) (decl_kind_congr h)

-- ---------------------------------------------------------------------------
-- Handing temporaries over
-- ---------------------------------------------------------------------------

/-- A temporary that is set by one of `E` before is set by one of `E'` after. -/
def Hands (s s' : Session) (E E' : Set NodeId) : Prop :=
  ∀ (τ : Nat) p, s.temps[τ]? = some p → p ∈ E → ∃ p', s'.temps[τ]? = some p' ∧ p' ∈ E'

namespace Hands

theorem trans (h : Hands s s' E E') (h' : Hands s' s'' E' E'') : Hands s s'' E E'' := by
  intro τ p hset hp
  obtain ⟨p', hset', hp'⟩ := h τ p hset hp
  exact h' τ p' hset' hp'

theorem mono (h : Hands s s' E E') (hE : D ⊆ E) (hE' : E' ⊆ D') : Hands s s' D D' := by
  intro τ p hset hp
  obtain ⟨p', hset', hp'⟩ := h τ p hset (hE hp)
  exact ⟨p', hset', hE' hp'⟩

theorem union (h : Hands s s' E E'') (h' : Hands s s' E' E'') : Hands s s' (E ∪ E') E'' :=
  fun τ p hset hp => hp.elim (h τ p hset) (h' τ p hset)

theorem of_temps (h : s'.temps = s.temps) (hE : E ⊆ E') : Hands s s' E E' :=
  fun _ p hset hp => ⟨p, h ▸ hset, hE hp⟩

end Hands

theorem Proceeds.hands (h : Proceeds N s s') (hE : ∀ p ∈ E, Spared N s p) : Hands s s' E E :=
  fun τ p hset hp => ⟨p, h.temps τ p hset (hE p hp).1 (hE p hp).2, hp⟩

/-- What the old node has set is handed over to the new one. -/
theorem Retargets.hands {old new : NodeId} (h : Retargets old new s s') (hn : new ∈ E')
    (hE : ∀ p ∈ E, p ≠ old → p ∈ E') : Hands s s' E E' := by
  intro τ p hset hp
  refine ⟨_, h τ p hset, ?_⟩
  split
  · exact hn
  · next hne => exact hE p hp hne

-- ---------------------------------------------------------------------------
-- Trees that are done
-- ---------------------------------------------------------------------------

/-- The node of `u` has been taken note of. -/
structure Noted (s : Session) (u : Tree) : Prop where
  covers : (s.tree.facts u.handle).Cover u.kind
  /-- Operators that mean something have become calls of built-ins. -/
  operator : s.Operators → u.kind.isOperator = true → (s.tree.facts u.handle).type = some .error
  temp : ∀ τ, u.kind = .temp τ → ∃ p, s.temps[τ.index]? = some p ∧
    (s.tree.facts p).type = (s.tree.facts u.handle).type

/-- Inference is through with these trees, which may use what `B` has computed. -/
structure Done (s : Session) (B : Set NodeId) (ts : List Tree) : Prop where
  fed : FedSeq s.temps B ts
  noted : ∀ u ∈ subtreesOf ts, Noted s u

/-- Nodes that are neither temporaries nor operators have a type, and a binding if they use
a name. -/
theorem Noted.of_cover (h : (s.tree.facts i).Cover k) (ht : ∀ τ, k ≠ .temp τ)
    (ho : k.isOperator = false) : Noted s (.node i k cs) :=
  ⟨h, fun _ hk => by simp [ho] at hk, fun τ hk => absurd hk (ht τ)⟩

namespace Done

theorem nil : Done s B [] := ⟨fedSeq_nil, by simp⟩

theorem append_iff :
    Done s B (ts ++ us) ↔ Done s B ts ∧ Done s (B ∪ exportsOf ts) us := by
  constructor
  · rintro ⟨hf, hn⟩
    rw [Tree.subtreesOf_append, List.forall_mem_append] at hn
    obtain ⟨hts, hus⟩ := fedSeq_append.mp hf
    exact ⟨⟨hts, hn.1⟩, hus, hn.2⟩
  · rintro ⟨⟨hts, hn⟩, hus, hn'⟩
    refine ⟨fedSeq_append.mpr ⟨hts, hus⟩, ?_⟩
    rw [Tree.subtreesOf_append, List.forall_mem_append]
    exact ⟨hn, hn'⟩

theorem mono (h : Done s B ts) (hB : B ⊆ B') : Done s B' ts := ⟨h.fed.mono hB, h.noted⟩

theorem noted_node (h : ∀ c ∈ cs, ∃ B, Done s B [c]) (hn : Noted s (.node i k cs)) :
    ∀ u ∈ subtreesOf [.node i k cs], Noted s u := by
  simp only [Tree.subtreesOf_cons, Tree.subtreesOf_nil, List.append_nil, Tree.subtrees_node,
    List.forall_mem_append, List.forall_mem_singleton]
  refine ⟨fun u hu => ?_, hn⟩
  obtain ⟨c, hc, huc⟩ := Tree.mem_subtreesOf.mp hu
  obtain ⟨_, hd⟩ := h c hc
  exact hd.noted u (by simpa using huc)

theorem mem (h : Done s B ts) (hc : c ∈ ts) : ∃ B, Done s B [c] := by
  obtain ⟨l, r, rfl⟩ := List.append_of_mem hc
  obtain ⟨-, h⟩ := append_iff.mp h
  rw [← List.singleton_append] at h
  exact ⟨_, (append_iff.mp h).1⟩

theorem sequence (hk : k.isSequence = true) (h : Done s B cs) (hn : Noted s (.node i k cs)) :
    Done s B [.node i k cs] :=
  ⟨fedSeq_singleton.mpr (.sequence hk h.fed), noted_node (fun _ hc => h.mem hc) hn⟩

theorem plain (hk : k.isPlain = true) (h : ∀ c ∈ cs, Done s B [c]) (hn : Noted s (.node i k cs)) :
    Done s B [.node i k cs] :=
  ⟨fedSeq_singleton.mpr (.plain hk fun c hc => fedSeq_singleton.mp (h c hc).fed),
    noted_node (fun c hc => ⟨B, h c hc⟩) hn⟩

theorem function (h : ∀ c ∈ cs, Done s ∅ [c]) (hn : Noted s (.node i (.funcDecl d) cs)) :
    Done s B [.node i (.funcDecl d) cs] :=
  ⟨fedSeq_singleton.mpr (.function fun c hc => fedSeq_singleton.mp (h c hc).fed),
    noted_node (fun c hc => ⟨∅, h c hc⟩) hn⟩

/-- A temporary that has the type of what sets it. -/
theorem temp {τ : TempId} (hset : s.temps[τ.index]? = some p) (hp : p ∈ B)
    (htyped : (s.tree.facts p).type.isSome = true)
    (heq : (s.tree.facts p).type = (s.tree.facts i).type) : Done s B [.node i (.temp τ) []] := by
  refine ⟨fedSeq_singleton.mpr (.temp hset hp), ?_⟩
  simp only [Tree.subtreesOf_cons, Tree.subtreesOf_nil, List.append_nil, Tree.subtrees_node,
    List.nil_append, List.forall_mem_singleton]
  refine ⟨.of_type (heq ▸ htyped) rfl, fun _ hk => by simp [NodeKind.isOperator] at hk, ?_⟩
  intro τ' hk
  obtain rfl : τ = τ' := NodeKind.temp.inj hk
  exact ⟨p, hset, heq⟩

/-- What may be used has a type. -/
theorem typed (h : Done s B ts) (hp : p ∈ exportsOf ts) :
    (s.tree.facts p).type.isSome = true := by
  obtain ⟨t, ht, hp⟩ := hp
  have hnoted : ∀ u ∈ t.subtrees, Noted s u := fun u hu =>
    h.noted u (Tree.mem_subtreesOf.mpr ⟨t, ht, hu⟩)
  clear ht h
  induction hp with
  | whole free => exact (hnoted _ (Tree.self_mem_subtrees _)).covers.type free.self
  | part _ mem _ ih =>
    exact ih fun u hu => hnoted u (Tree.subtrees_trans (Tree.child_mem_subtrees mem) hu)

/-- Trees stay done if neither they nor what they use is touched. -/
theorem proceeds (h : Done s B ts) (hp : Proceeds N s s') (hts : ∀ id ∈ idsOf ts, Spared N s id)
    (hB : ∀ p ∈ B, Spared N s p) : Done s' B ts := by
  refine ⟨h.fed.transport (hp.hands hB) fun τ p hset hm =>
    hp.temps τ p hset (hts p hm).1 (hts p hm).2, fun u hu => ?_⟩
  have hu' := hts u.handle (by rw [Tree.idsOf_eq_map]; exact List.mem_map_of_mem hu)
  have hfacts := hp.facts hu'.1 hu'.2
  obtain ⟨hcovers, hoperator, htemp⟩ := h.noted u hu
  refine ⟨hfacts ▸ hcovers, fun ho hk => ?_, fun τ hk => ?_⟩
  · rw [hfacts]
    exact hoperator (operators_congr hp.names.symm ho) hk
  · obtain ⟨p, hset, heq⟩ := htemp τ hk
    have hspared : Spared N s p := by
      obtain ⟨t, ht, hut⟩ := Tree.mem_subtreesOf.mp hu
      obtain ⟨l, r, rfl⟩ := List.append_of_mem ht
      obtain ⟨p', hset', hp'⟩ := (h.fed l t r rfl).runsBefore hut hk
      obtain rfl : p = p' := by simpa [hset] using hset'
      rcases hp' with ⟨hp' | hp', -⟩ | hp'
      · exact hB p hp'
      · exact hts p (by simp [mem_idsOf_of_exportsOf hp'])
      · exact hts p (by simp [show p ∈ t.ids by simpa using hp'.mem_idsOf])
    refine ⟨p, hp.temps τ.index p hset hspared.1 hspared.2, ?_⟩
    rw [hfacts, hp.facts hspared.1 hspared.2, heq]

end Done

-- ---------------------------------------------------------------------------
-- Trees that are ready
-- ---------------------------------------------------------------------------

/-- What a tree uses of `B` is known. -/
structure Ready (s : Session) (B : Set NodeId) (t : Tree) : Prop where
  fed : Fed s.temps B t
  known : ∀ p ∈ B, p.index < s.tree.size ∧ (s.tree.facts p).type.isSome = true
  apart : ∀ p ∈ B, p ∉ t.ids

namespace Ready

theorem proceeds (h : Ready s B t) (hp : Proceeds N s s') (ht : ∀ id ∈ t.ids, Spared N s id)
    (hB : ∀ p ∈ B, ¬ N p) : Ready s' B t := by
  have hspared : ∀ p ∈ B, Spared N s p := fun p hm => ⟨(h.known p hm).1, hB p hm⟩
  refine ⟨h.fed.transport (hp.hands hspared) fun τ p hset hm =>
    hp.temps τ p hset (ht p hm).1 (ht p hm).2, fun p hm => ?_, h.apart⟩
  rw [hp.facts (hspared p hm).1 (hspared p hm).2]
  exact ⟨Nat.lt_of_lt_of_le (h.known p hm).1 hp.size, (h.known p hm).2⟩

/-- Nothing of `B` is touched while the tree is gone through. -/
theorem spared (h : Ready s B t) : ∀ p ∈ B, Spared (· ∈ t.ids) s p :=
  fun p hp => ⟨(h.known p hp).1, h.apart p hp⟩

theorem child (h : Ready s B (.node i k cs)) (hk : k.isPlain = true) (hc : c ∈ cs) :
    Ready s B c := by
  refine ⟨h.fed.child hk hc, h.known, fun p hp hm => h.apart p hp ?_⟩
  rw [Tree.ids_node, List.mem_append]
  exact .inl (Tree.mem_idsOf.mpr ⟨c, hc, hm⟩)

/-- The body of a function uses nothing from outside. -/
theorem body (h : Ready s B (.node i (.funcDecl d) cs)) (hc : c ∈ cs) : Ready s ∅ c :=
  ⟨h.fed.body hc, fun _ hp => hp.elim, fun _ hp => hp.elim⟩

end Ready
end BlockLang
