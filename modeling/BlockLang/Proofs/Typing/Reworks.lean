import BlockLang.Proofs.Typing.Notes

/-!
# Reworking trees

Inference changes trees while it walks over them. `Reworks` says where it has come from a
session: which trees there are now, that names are declared as before, and that only the
nodes it was sent to have been touched. Each operation on the tree has a rule.
-/

namespace BlockLang

open BlockLang.Tree (idsOf)
open BlockLang.Frame (plug)

/-- The labels of all nodes but `N` stay, and so do the temporaries they set. New nodes
stand where others do. -/
structure Proceeds (N : NodeId → Prop) (s s' : Session) : Prop where
  names : s'.names = s.names
  labels : ∀ id l, ¬ N id → s.tree.label id = some l → s'.tree.label id = some l
  temps : ∀ (τ : Nat) p, s.temps[τ]? = some p → p.index < s.tree.size → ¬ N p →
    s'.temps[τ]? = some p
  scopes : ∀ id, s.Uses (s'.tree.scope id)
  size : s.tree.size ≤ s'.tree.size
  report : s.report <+: s'.report

section
variable {N M : NodeId → Prop} {s s' s'' : Session}

theorem Proceeds.refl (s : Session) : Proceeds N s s :=
  ⟨rfl, fun _ _ _ hl => hl, fun _ _ hset _ _ => hset, fun id => .inr ⟨id, rfl⟩, Nat.le_refl _,
    List.prefix_refl _⟩

/-- Nodes that are new may be learned about too. -/
theorem Proceeds.trans (h : Proceeds N s s') (h' : Proceeds M s' s'')
    (hm : ∀ id, M id → N id ∨ s.tree.size ≤ id.index) : Proceeds N s s'' where
  names := h'.names.trans h.names
  labels := by
    intro id l hn hl
    refine h'.labels id l (fun hm' => ?_) (h.labels id l hn hl)
    rcases hm id hm' with hn' | hle
    · exact hn hn'
    · exact Nat.not_lt.mpr hle (Arena.lt_size_of_label hl)
  temps := by
    intro τ p hset hlt hn
    refine h'.temps τ p (h.temps τ p hset hlt hn) (Nat.lt_of_lt_of_le hlt h.size) fun hm' => ?_
    rcases hm p hm' with hn' | hle
    · exact hn hn'
    · exact Nat.not_lt.mpr hle hlt
  scopes := by
    intro id
    rcases h'.scopes id with hu | ⟨old, ho⟩
    · exact .inl (hu.trans (congrArg Names.universal h.names))
    · exact ho ▸ h.scopes old
  size := Nat.le_trans h.size h'.size
  report := h.report.trans h'.report

theorem Proceeds.mono (h : Proceeds N s s') (hm : ∀ id, N id → M id) : Proceeds M s s' :=
  ⟨h.names, fun id l hid => h.labels id l fun hn => hid (hm id hn),
    fun τ p hset hlt hp => h.temps τ p hset hlt fun hn => hp (hm p hn), h.scopes, h.size, h.report⟩

theorem Proceeds.scoped (h : Proceeds N s s') (hs : s.Scoped) : s'.Scoped :=
  hs.congr h.names h.scopes

theorem Proceeds.facts {id : NodeId} (h : Proceeds N s s') (hlt : id.index < s.tree.size)
    (hn : ¬ N id) : s'.tree.facts id = s.tree.facts id := by
  obtain ⟨l, hl⟩ := Arena.exists_label hlt
  rw [Arena.facts_of_label hl, Arena.facts_of_label (h.labels id l hn hl)]

theorem Learns.proceeds (h : Learns N s s') : Proceeds N s s' where
  names := h.names
  labels := fun id _ hn hl => (h.labels id hn).trans hl
  temps := fun _ _ hset _ _ => h.temps ▸ hset
  scopes := fun id => .inr ⟨id, h.scopes id⟩
  size := Arena.size_le_of_links h.links
  report := h.report

theorem Builds.proceeds (h : Builds s s') : Proceeds N s s' where
  names := by rw [h.rest]; rfl
  labels := fun id l _ hl => h.tree.labels id l hl
  temps := fun τ p hset _ _ => h.temps τ p hset
  scopes := h.scopes
  size := h.tree.labels.size_le
  report := by
    have hr : s'.report = s.report := by rw [h.rest]
    exact hr ▸ List.prefix_refl _

end

/-- What `old` has set is set by `new`. -/
def Retargets (old new : NodeId) (s s' : Session) : Prop :=
  ∀ (τ : Nat) p, s.temps[τ]? = some p → s'.temps[τ]? = some (if p = old then new else p)

-- ---------------------------------------------------------------------------
-- On the way through a tree
-- ---------------------------------------------------------------------------

/-- Inference has come from `s` to a session that spells out the trees `ts`, and has
touched no old nodes but `N`. -/
structure Reworks (N : NodeId → Prop) (s : Session) (ts : List Tree) (s' : Session) : Prop where
  session : s'.Scoped
  forest : s'.tree.Forest ts
  proceeds : Proceeds N s s'

namespace Reworks

open Pass

variable {N M : NodeId → Prop} {s s' s'' : Session} {ts us : List Tree} {p : Pass α}

theorem refl (hs : s.Scoped) (hf : s.tree.Forest ts) : Reworks N s ts s := ⟨hs, hf, .refl s⟩

theorem trans (h : Reworks N s ts s') (h' : Reworks M s' us s'')
    (hm : ∀ id, M id → N id ∨ s.tree.size ≤ id.index) : Reworks N s us s'' :=
  ⟨h'.session, h'.forest, h.proceeds.trans h'.proceeds hm⟩

theorem mono (h : Reworks N s ts s') (hm : ∀ id, N id → M id) : Reworks M s ts s' :=
  ⟨h.session, h.forest, h.proceeds.mono hm⟩

theorem withForest (h : Reworks N s ts s') (hf : s'.tree.Forest us) : Reworks N s us s' :=
  ⟨h.session, hf, h.proceeds⟩

/-- Facts may be learned about the nodes `N` and about new ones. -/
theorem learns (h : Reworks N s ts s') (hl : Learns M s' s'')
    (hm : ∀ id, M id → N id ∨ s.tree.size ≤ id.index) : Reworks N s ts s'' :=
  ⟨hl.scoped h.session, hl.forest h.forest, h.proceeds.trans hl.proceeds hm⟩

theorem notesIf {G : Names → Prop} {node : NodeId} {P : Facts → Prop} (h : Reworks N s ts s')
    (hp : Notes M G node P p) (hm : ∀ id, M id → N id ∨ s.tree.size ≤ id.index) (hg : G s.names)
    (hlt : node.index < s'.tree.size) :
    Returns p s' fun _ s'' =>
      Reworks N s ts s'' ∧ Learns M s' s'' ∧ P (s''.tree.facts node) := by
  refine (hp s' h.session (h.proceeds.names ▸ hg)).imp ?_
  rintro _ s'' ⟨hl, hP⟩
  exact ⟨h.learns hl hm, hl, hP hlt⟩

theorem notes {node : NodeId} {P : Facts → Prop} (h : Reworks N s ts s')
    (hp : Notes M (fun _ => True) node P p) (hm : ∀ id, M id → N id ∨ s.tree.size ≤ id.index)
    (hlt : node.index < s'.tree.size) :
    Returns p s' fun _ s'' =>
      Reworks N s ts s'' ∧ Learns M s' s'' ∧ P (s''.tree.facts node) := h.notesIf hp hm trivial hlt

theorem builds (h : Reworks N s ts s') (hb : Builds s' s'') (hf : s''.tree.Forest us) :
    Reworks N s us s'' := by
  have hp : Proceeds N s s'' := h.proceeds.trans (hb.proceeds (N := N)) fun _ hn => .inl hn
  exact ⟨hb.proceeds (N := N) |>.scoped h.session, hf, hp⟩

theorem temps {temps : Array NodeId} (h : Reworks N s ts s')
    (hkeeps : ∀ (τ : Nat) p, s'.temps[τ]? = some p → p.index < s.tree.size → ¬ N p →
      temps[τ]? = some p) : Reworks N s ts { s' with temps } := by
  obtain ⟨hs, hf, hp⟩ := h
  exact ⟨hs.congr rfl fun id => .inr ⟨id, rfl⟩, hf, hp.names, hp.labels,
    fun τ p hset hlt hn => hkeeps τ p (hp.temps τ p hset hlt hn) hlt hn, hp.scopes, hp.size,
    hp.report⟩

theorem newTemp (h : Reworks N s ts s') (p : NodeId) :
    Returns (Pass.newTemp p) s' fun τ s'' =>
      Reworks N s ts s'' ∧ s''.temps[τ.index]? = some p := by
  refine ⟨h.temps fun τ q hset _ _ => ?_, by simp⟩
  obtain ⟨hlt, -⟩ := Array.getElem?_eq_some_iff.mp hset
  rwa [Array.getElem?_push_lt hlt, ← Array.getElem?_eq_getElem]

/-- Temporaries that a touched or a new node sets may be set by another. -/
theorem retarget {old new : NodeId} (h : Reworks N s ts s')
    (ho : new = old ∨ N old ∨ s.tree.size ≤ old.index) :
    Returns (retargetTemps old new) s' fun _ s'' =>
      Reworks N s ts s'' ∧ Retargets old new s' s'' := by
  refine ⟨h.temps fun τ p hset hlt hn => ?_, fun τ p hset => by simp [hset]⟩
  rcases ho with rfl | ho
  · simp [hset, eq_comm]
  · have hne : p ≠ old := by
      rintro rfl
      exact ho.elim hn (Nat.not_le.mpr hlt)
    simp [hset, hne]

theorem addNode {ds : List Tree} {children : List NodeId} {kind : NodeKind} {span : Span}
    {scope : ScopeId} (h : Reworks N s (ds ++ us) s') (hc : children = ds.map Tree.handle)
    (hs : s'.Uses scope) :
    Returns (Pass.addNode kind span scope children) s' fun id s'' =>
      Reworks N s (.node id kind ds :: us) s'' ∧ s.tree.size ≤ id.index := by
  refine (triple_addNode h.forest hc).imp ?_
  rintro id s'' ⟨hf, hid, hg⟩
  exact ⟨h.builds (hg.builds hs) hf, hid ▸ h.proceeds.size⟩

theorem addLike {origin : NodeId} {kind : NodeKind} (h : Reworks N s us s') :
    Returns (Pass.addLike origin kind) s' fun id s'' =>
      Reworks N s (.node id kind [] :: us) s'' ∧ s.tree.size ≤ id.index := by
  refine (triple_addLike h.forest).imp ?_
  rintro id s'' ⟨hf, hid, hg⟩
  exact ⟨h.builds (hg.builds (.inr ⟨origin, rfl⟩)) hf, hid ▸ h.proceeds.size⟩

theorem take {fs : List Frame} {cs : List Tree} {i : NodeId} {k : NodeKind}
    (h : Reworks N s (plug fs [.node i k cs] ++ us) s') :
    Returns (takeChildren i) s' fun children s'' => children = cs.map Tree.handle ∧
      Reworks N s (plug fs [.node i k []] ++ (cs ++ us)) s'' := by
  refine (triple_take h.forest).imp ?_
  rintro children s'' ⟨hc, hf, hr⟩
  exact ⟨hc, h.builds hr.builds hf⟩

theorem replaceNode {f : Frame} {fs : List Frame} {x y : Tree}
    (h : Reworks N s (plug (f :: fs) [x] ++ y :: us) s') :
    Returns (tryTree (·.replaceNode x.handle y.handle)) s' fun _ s'' =>
      Reworks N s (plug (f :: fs) [y] ++ x :: us) s'' ∧ s''.temps = s'.temps := by
  refine (triple_replaceNode h.forest).imp ?_
  rintro - s'' ⟨hf, hr⟩
  exact ⟨h.builds hr.builds hf, hr.temps⟩

theorem replaceChild {f : Frame} {fs : List Frame} {x y : Tree}
    (h : Reworks N s (plug (f :: fs) [x] ++ y :: us) s') :
    Returns (tryTree (·.replaceChild f.id x.handle y.handle)) s' fun _ s'' =>
      Reworks N s (plug (f :: fs) [y] ++ x :: us) s'' := by
  obtain ⟨b, -, hb, hf, hl⟩ := h.forest.replace
  refine (triple_rearrange ⟨b, hb, hf, hl⟩).imp ?_
  rintro - s'' ⟨hf, hr⟩
  exact h.builds hr.builds hf

theorem insertChild {f : Frame} {fs : List Frame} {x y : Tree}
    (h : Reworks N s (plug (f :: fs) [x] ++ y :: us) s') :
    Returns (tryTree (·.insertChild f.id f.left.length y.handle)) s' fun _ s'' =>
      Reworks N s (plug (f :: fs) [y, x] ++ us) s'' := by
  refine (triple_rearrange h.forest.insert).imp ?_
  rintro - s'' ⟨hf, hr⟩
  exact h.builds hr.builds hf

/-- One tree takes the place of another, for temporaries too. -/
theorem substitute {f : Frame} {fs : List Frame} {x y : Tree}
    (h : Reworks N s (plug (f :: fs) [x] ++ y :: us) s')
    (hx : N x.handle ∨ s.tree.size ≤ x.handle.index) :
    Returns (Typing.substitute x.handle y.handle) s' fun _ s'' =>
      Reworks N s (plug (f :: fs) [y] ++ x :: us) s'' ∧ Retargets x.handle y.handle s' s'' := by
  unfold Typing.substitute
  refine triple_bind.mpr (h.replaceNode.imp ?_)
  rintro - s₁ ⟨h₁, htemps⟩
  refine (h₁.retarget (.inr hx)).imp ?_
  rintro - s₂ ⟨h₂, hr⟩
  exact ⟨h₂, fun τ p hset => hr τ p (htemps ▸ hset)⟩

end Reworks
end BlockLang
