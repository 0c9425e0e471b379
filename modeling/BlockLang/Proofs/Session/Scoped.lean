import BlockLang.Proofs.Grammar.Reads
import BlockLang.Proofs.Lowered.Normalize
import BlockLang.Proofs.Session.Operators

/-!
# Scopes of a session

A session is scoped if its table of scopes is closed and has every scope that one of its
nodes, functions or modules names. Looking names up never fails then. Reading a module,
bringing it into normal form and lowering it keep a session scoped.
-/

namespace BlockLang

namespace Session

/-- Every scope that the session names is in its table. -/
structure Scoped (s : Session) : Prop where
  closed : s.scopes.Closed
  universal : s.scopes.Has s.universal
  nodes : ∀ id, s.scopes.Has (s.tree.scope id)
  functions : ∀ id params result scope,
    (s.decl id).kind = .function params result scope → s.scopes.Has scope

variable {s s' : Session}

theorem Scoped.uses (h : s.Scoped) (hu : s.Uses scope) : s.scopes.Has scope := by
  rcases hu with rfl | ⟨id, rfl⟩
  · exact h.universal
  · exact h.nodes id

/-- The table of scopes has only grown, and new nodes stand in scopes that are in use. -/
theorem Scoped.mono (h : s.Scoped) (hc : s'.scopes.Closed)
    (hs : s.scopes.scopes.size ≤ s'.scopes.scopes.size) (hu : s'.universal = s.universal)
    (hn : ∀ id, s.Uses (s'.tree.scope id)) (hd : ∀ id, (s'.decl id).kind = (s.decl id).kind) :
    s'.Scoped := by
  refine ⟨hc, hu ▸ h.universal.mono hs, fun id => (h.uses (hn id)).mono hs, ?_⟩
  intro id params result scope hk
  exact (h.functions id params result scope (hd id ▸ hk)).mono hs

theorem Scoped.withScopes (h : s.Scoped) {scopes : ScopeTable} (hc : scopes.Closed)
    (hs : scopes.scopes.size = s.scopes.scopes.size) : Scoped { s with scopes } :=
  h.mono hc (Nat.le_of_eq hs.symm) rfl (fun id => .inr ⟨id, rfl⟩) fun _ => rfl

theorem Scoped.addDecl (h : s.Scoped) {d : Decl}
    (hd : ∀ params result scope, d.kind = .function params result scope → s.scopes.Has scope) :
    Scoped (s.addDecl d).2 := by
  refine ⟨h.closed, h.universal, h.nodes, fun id params result scope hk => ?_⟩
  simp only [Session.decl, Session.addDecl, Array.getElem?_push] at hk
  split at hk
  · exact hd params result scope hk
  · exact h.functions id params result scope hk

theorem scope_marks (h : Marks s s') (id : NodeId) : s'.tree.scope id = s.tree.scope id := by
  by_cases hi : id.index < s.tree.size
  · obtain ⟨l, hl⟩ := Arena.exists_label hi
    obtain ⟨lvalue, hl'⟩ := h.labels id l hl
    rw [Arena.scope_of_label hl, Arena.scope_of_label hl']
  · have hi' : ¬ id.index < s'.tree.size := by rwa [h.size]
    rw [Arena.scope_of_not_lt hi, Arena.scope_of_not_lt hi']

end Session

-- ---------------------------------------------------------------------------
-- Reading
-- ---------------------------------------------------------------------------

/-- The session is scoped, and the cursor stands in its scopes before tokens of a text. -/
structure Reading (depth : Nat) (c : Cursor) (s : Session) : Prop where
  session : s.Scoped
  operators : s.Operators
  privateLayer : s.scopes.Has c.layers.privateLayer
  publicLayer : s.scopes.Has c.layers.publicLayer
  inner : ∀ scope ∈ c.inner, s.scopes.Has scope
  depth : c.inner.length = depth
  words : ∀ t ∈ c.eof :: c.rest, t.kind = .identifier → IsWord t.value

section
variable {n : Nat} {c : Cursor}

theorem Cursor.current_mem (c : Cursor) : c.current ∈ c.eof :: c.rest := by
  unfold Cursor.current
  cases c.rest <;> simp

theorem Reading.scope (h : Reading n c s) : s.scopes.Has c.scope := by
  unfold Cursor.scope
  cases hi : c.inner with
  | nil => exact h.privateLayer
  | cons scope rest => exact h.inner scope (by simp [hi])

theorem Reading.mono (h : Reading n c s) (hs : s'.Scoped) (ho : s'.Operators)
    (hle : s.scopes.scopes.size ≤ s'.scopes.scopes.size) : Reading n c s' :=
  ⟨hs, ho, h.privateLayer.mono hle, h.publicLayer.mono hle,
    fun scope hm => (h.inner scope hm).mono hle, h.depth, h.words⟩

end

/-- Reading keeps a session scoped. -/
theorem keeps_reading : Adds.Keeps IsWord Reading where
  depth := fun n c s h => h.depth
  name := fun n c s h => h.words _ c.current_mem
  cursor := by
    intro n c c' s h hc
    refine ⟨h.session, h.operators, hc.layers ▸ h.privateLayer, hc.layers ▸ h.publicLayer,
      hc.inner ▸ h.inner, hc.inner ▸ h.depth, fun t ht => h.words t ?_⟩
    rcases List.mem_cons.mp ht with rfl | ht
    · simp [hc.eof]
    · exact List.mem_cons_of_mem _ (hc.rest.subset ht)
  leave := by
    intro n c s h
    refine ⟨h.session, h.operators, h.privateLayer, h.publicLayer,
      fun scope hm => h.inner scope (List.mem_of_mem_tail hm), ?_, h.words⟩
    rw [List.length_tail, h.depth, Nat.add_sub_cancel]
  enter := by
    intro n c s kind h
    have hclosed := h.session.closed.addScope kind fun p hp => Option.some.inj hp ▸ h.scope
    have hle : s.scopes.scopes.size ≤ (s.scopes.addScope kind (some c.scope)).2.scopes.size := by
      simp
    have h' : Reading n c { s with scopes := (s.scopes.addScope kind (some c.scope)).2 } :=
      h.mono (h.session.mono hclosed hle rfl (fun id => .inr ⟨id, rfl⟩) fun _ => rfl)
        (h.operators.addScope kind _) hle
    refine ⟨h'.session, h'.operators, h'.privateLayer, h'.publicLayer, fun scope hm => ?_,
      by simp [h.depth], h.words⟩
    rcases List.mem_cons.mp hm with rfl | hm
    · simp [ScopeTable.Has]
    · exact h'.inner scope hm
  tree := by
    intro n c s s' h hg
    rw [hg.rest]
    refine h.mono ⟨h.session.closed, h.session.universal, fun id => ?_, h.session.functions⟩
      h.operators (Nat.le_refl _)
    rcases hg.place id with hn | ho
    · exact hn ▸ h.scope
    · exact ho ▸ h.session.nodes id
  decl := by
    intro n c s name kind scope position h _ hk
    refine h.mono (h.session.addDecl fun params result scope he => ?_) (h.operators.addDecl _)
      (Nat.le_refl _)
    subst he
    exact hk.2
  declare := by
    intro n c s name kind scope position overloadable scopes h hw hk hadd
    have hsession : (s.addDecl (.new name kind scope position)).2.Scoped := by
      refine h.session.addDecl fun params result scope he => ?_
      subst he
      exact hk.2
    have hsize := ScopeTable.size_addVar hadd
    have hclosed := h.session.closed.addVar hadd
    exact h.mono (hsession.withScopes hclosed hsize) ((h.operators.addDecl _).addVar (.inl hw) hadd)
      (Nat.le_of_eq hsize.symm)
  typeDef := by
    intro n c s scope name params body position id scopes h hadd
    have hsize := ScopeTable.size_addType hadd
    have hclosed := h.session.closed.addType h.scope hadd
    exact h.mono (h.session.withScopes hclosed hsize) (h.operators.addType hadd)
      (Nat.le_of_eq hsize.symm)
  listType := fun n c s length h => h.mono ⟨h.session.closed, h.session.universal, h.session.nodes,
    h.session.functions⟩ h.operators (Nat.le_refl _)
  literal := by
    intro n c s id type value h _ _
    refine h.mono ⟨h.session.closed, h.session.universal, fun other => ?_, h.session.functions⟩
      h.operators (Nat.le_refl _)
    rw [Arena.scope_annotate]
    exact h.session.nodes other

-- ---------------------------------------------------------------------------
-- New sessions and modules
-- ---------------------------------------------------------------------------

namespace Session

variable {s : Session}

theorem Scoped.definePrimitive (h : s.Scoped) (p : Primitive) : (s.definePrimitive p).Scoped := by
  unfold Session.definePrimitive
  dsimp only
  split
  · rename_i hadd
    exact h.withScopes (h.closed.addType h.universal hadd) (ScopeTable.size_addType hadd)
  · exact h

theorem Scoped.declareBuiltin (h : s.Scoped) (op : Builtin) : (s.declareBuiltin op).Scoped := by
  unfold Session.declareBuiltin
  dsimp only
  have hscoped : ∀ types d, d.kind = .builtin op → (({ s with types }).addDecl d).2.Scoped := by
    intro types d hd
    have h' : Scoped { s with types } := ⟨h.closed, h.universal, h.nodes, h.functions⟩
    exact h'.addDecl fun params result scope hk => absurd (hk.symm.trans hd) nofun
  split
  · rename_i hadd
    exact (hscoped _ _ rfl).withScopes (h.closed.addVar hadd) (ScopeTable.size_addVar hadd)
  · exact hscoped _ _ rfl

/-- Without nodes and declarations, only the scopes themselves are left to look at. -/
theorem Scoped.of_closed (hc : s.scopes.Closed) (hu : s.scopes.Has s.universal)
    (htree : s.tree = .empty) (hdecls : s.decls = #[]) : s.Scoped := by
  refine ⟨hc, hu, fun id => ?_, fun id params result scope hk => ?_⟩
  · rw [htree]
    exact Nat.zero_lt_of_lt hu
  · rw [decl, hdecls] at hk
    cases hk

theorem scoped_new (entrySymbol : String) : (Session.new entrySymbol).Scoped := by
  refine List.foldlRecOn _ _ (List.foldlRecOn _ _ ?_ fun s h p _ => h.definePrimitive p)
    fun s h op _ => h.declareBuiltin op
  have hempty : ScopeTable.empty.Closed := ⟨nofun, nofun, nofun⟩
  exact .of_closed (hempty.addScope .universal nofun) Nat.zero_lt_one rfl rfl

end Session
end BlockLang
