import BlockLang.Proofs.Scope.Found
import BlockLang.Proofs.Session.Scoped
import BlockLang.Typing.Statement

/-!
# Learning about nodes

Most of type inference leaves the tree and everything that is declared as it is. It only
finds facts about the nodes it looks at, and adds to the types, values and diagnostics.
`Learner` says that a pass does no more than that and that it comes to its end, which it
does as long as the scopes it asks are there.
-/

namespace BlockLang

/-- What a definition says, apart from what has been found out about it. -/
def TypeDef.outline (d : TypeDef) : TypeDef := { d with paramTypes := [], resolved := none }

/-- What is declared in a session, and where. -/
structure Names where
  scopes : Array Scope
  typeDefs : Array TypeDef
  decls : Array DeclKind
  universal : ScopeId
  modules : Array Module

def Names.Has (n : Names) (scope : ScopeId) : Prop := scope.index < n.scopes.size

def Session.names (s : Session) : Names :=
  ⟨s.scopes.scopes, s.scopes.typeDefs.map TypeDef.outline, s.decls.map Decl.kind, s.universal,
    s.modules⟩

section
variable {s s' : Session}

theorem Session.decl_kind (s : Session) (id : DeclId) :
    (s.decl id).kind = (s.names.decls[id.index]?).getD default := by
  simp only [Session.decl, Session.names, Array.getElem?_map]
  cases s.decls[id.index]? <;> rfl

theorem decl_kind_congr (h : s'.names = s.names) (id : DeclId) :
    (s'.decl id).kind = (s.decl id).kind := by
  rw [Session.decl_kind, Session.decl_kind, h]

theorem closed_congr (h : s'.names = s.names) (hc : s.scopes.Closed) : s'.scopes.Closed := by
  have hscopes : s'.scopes.scopes = s.scopes.scopes := congrArg Names.scopes h
  have hdefs : s'.scopes.typeDefs.map TypeDef.outline = s.scopes.typeDefs.map TypeDef.outline :=
    congrArg Names.typeDefs h
  refine ⟨fun i scope hs p hp => ?_, fun i scope hs e he => ?_, fun i d hd => ?_⟩
  · rw [ScopeTable.Has, hscopes]
    exact hc.parent i scope (hscopes ▸ hs) p hp
  · rw [ScopeTable.Has, hscopes]
    exact hc.imports i scope (hscopes ▸ hs) e he
  · have hi : (s.scopes.typeDefs.map TypeDef.outline)[i]? = some d.outline := by
      rw [← hdefs, Array.getElem?_map, hd]
      rfl
    rw [Array.getElem?_map] at hi
    obtain ⟨d', hd', ho⟩ := Option.map_eq_some_iff.mp hi
    have hscope : d'.outline.scope = d.outline.scope := by rw [ho]
    rw [ScopeTable.Has, hscopes]
    exact hscope ▸ hc.typeDefs i d' hd'

theorem Session.Scoped.congr (hs : s.Scoped) (h : s'.names = s.names)
    (hn : ∀ id, s.Uses (s'.tree.scope id)) : s'.Scoped := by
  have hscopes : s'.scopes.scopes = s.scopes.scopes := congrArg Names.scopes h
  exact hs.mono (closed_congr h hs.closed) (Nat.le_of_eq (congrArg Array.size hscopes.symm))
    (congrArg Names.universal h) hn
    (decl_kind_congr h)

theorem Session.names_modifyDecl (s : Session) (id : DeclId) {f : Decl → Decl}
    (hf : ∀ d, (f d).kind = d.kind) : (s.modifyDecl id f).names = s.names := by
  have hdecls : (s.decls.modify id.index f).map Decl.kind = s.decls.map Decl.kind := by
    refine Array.ext_getElem? fun i => ?_
    simp only [Array.getElem?_map, Array.getElem?_modify]
    split
    · cases s.decls[i]? <;> simp [hf]
    · rfl
  simp only [Session.names, Session.modifyDecl, hdecls]

end

-- ---------------------------------------------------------------------------
-- What is learned
-- ---------------------------------------------------------------------------

/-- Only facts about the nodes `N` are new, besides types, values and diagnostics. -/
structure Learns (N : NodeId → Prop) (s s' : Session) : Prop where
  names : s'.names = s.names
  links : ∀ id, s'.tree.links id = s.tree.links id
  labels : ∀ id, ¬ N id → s'.tree.label id = s.tree.label id
  scopes : ∀ id, s'.tree.scope id = s.tree.scope id
  temps : s'.temps = s.temps
  report : s.report <+: s'.report

section
variable {N : NodeId → Prop} {s s' : Session}

/-- The tree stays as it is. -/
theorem Learns.of_tree (hn : s'.names = s.names) (ht : s'.tree = s.tree)
    (htemps : s'.temps = s.temps) (hr : s.report <+: s'.report) : Learns N s s' := by
  refine ⟨hn, fun id => ?_, fun id _ => ?_, fun id => ?_, htemps, hr⟩ <;> rw [ht]

theorem Learns.refl (s : Session) : Learns N s s := .of_tree rfl rfl rfl (List.prefix_refl _)

theorem Learns.trans (h : Learns N s s') (h' : Learns N s' s'') : Learns N s s'' where
  names := h'.names.trans h.names
  links := fun id => (h'.links id).trans (h.links id)
  labels := fun id hid => (h'.labels id hid).trans (h.labels id hid)
  scopes := fun id => (h'.scopes id).trans (h.scopes id)
  temps := h'.temps.trans h.temps
  report := h.report.trans h'.report

theorem Learns.scoped (h : Learns N s s') (hs : s.Scoped) : s'.Scoped :=
  hs.congr h.names fun id => .inr ⟨id, h.scopes id⟩

theorem Learns.forest (h : Learns N s s') (hf : s.tree.Forest ts) : s'.tree.Forest ts :=
  hf.congr fun id _ => h.links id

theorem learns_annotate {node : NodeId} (hn : N node) (f : Facts → Facts) :
    Learns N s { s with tree := s.tree.annotate node f } where
  names := rfl
  links := fun _ => Arena.links_annotate f
  labels := fun id hid => Arena.label_annotate_ne (by rintro rfl; exact hid hn) f
  scopes := fun _ => Arena.scope_annotate f
  temps := rfl
  report := List.prefix_refl _

end

-- ---------------------------------------------------------------------------
-- Passes that learn
-- ---------------------------------------------------------------------------

/-- From a scoped session whose names are as `G` says, the pass returns and has only
learned about the nodes `N`. -/
def Learner (N : NodeId → Prop) (G : Names → Prop) (p : Pass α) : Prop :=
  ∀ s : Session, s.Scoped → G s.names → Returns p s fun _ s' => Learns N s s'

namespace Learner

open Pass

variable {N : NodeId → Prop} {G G' : Names → Prop} {p : Pass α} {f : α → Pass β}

theorem pure (a : α) : Learner N G (Pure.pure a : Pass α) := fun s _ _ => .refl s

theorem bind (hp : Learner N G p) (hf : ∀ a, Learner N G (f a)) : Learner N G (p >>= f) := by
  intro s hs hg
  refine triple_bind.mpr ((hp s hs hg).imp fun a s' h => ?_)
  have hg' : G s'.names := by rwa [h.names]
  exact (hf a s' (h.scoped hs) hg').imp fun b s'' h' => h.trans h'

theorem map {g : α → β} (hp : Learner N G p) : Learner N G (g <$> p) := by
  rw [← bind_pure_comp]
  exact hp.bind fun a => .pure _

theorem guard (hp : Learner N G p) (h : ∀ n, G' n → G n) : Learner N G' p :=
  fun s hs hg => hp s hs (h _ hg)

theorem ite {c : Prop} [Decidable c] {p q : Pass α} (hp : Learner N G p) (hq : Learner N G q) :
    Learner N G (if c then p else q) := by
  split
  · exact hp
  · exact hq

theorem mapM {f : α → Pass β} (h : ∀ a, Learner N G (f a)) (xs : List α) :
    Learner N G (xs.mapM f) := by
  induction xs with
  | nil => exact .pure _
  | cons x xs ih =>
    rw [List.mapM_cons]
    exact (h x).bind fun _ => ih.bind fun _ => .pure _

theorem filterM {f : α → Pass Bool} (h : ∀ a, Learner N G (f a)) (xs : List α) :
    Learner N G (xs.filterM f) := by
  have haux : ∀ kept, Learner N G (List.filterAuxM f xs kept) := by
    induction xs with
    | nil => exact fun _ => .pure _
    | cons x xs ih =>
      intro kept
      unfold List.filterAuxM
      exact (h x).bind fun _ => ih _
  exact (haux []).bind fun _ => .pure _

/-- A pass that leaves the tree and the names alone. -/
theorem of_tree (hp : ∀ s, Returns p s fun _ s' => s'.names = s.names ∧ s'.tree = s.tree ∧
    s'.temps = s.temps ∧ s.report <+: s'.report) : Learner N G p := by
  intro s _ _
  refine (hp s).imp ?_
  rintro - s' ⟨hn, ht, htemps, hr⟩
  exact .of_tree hn ht htemps hr

/-- A pass that only reads. -/
theorem reads (hp : ∀ s, Returns p s fun _ s' => s' = s) : Learner N G p :=
  fun s _ _ => (hp s).imp fun _ _ h => by rw [h]; exact .refl s

theorem tree : Learner N G Pass.tree := .reads fun _ => rfl
theorem types : Learner N G Pass.types := .reads fun _ => rfl
theorem get : Learner N G (MonadState.get : Pass Session) := .reads fun _ => rfl
theorem startOf (id : NodeId) : Learner N G (Pass.startOf id) := .reads fun _ => rfl
theorem childrenOf (id : NodeId) : Learner N G (Pass.childrenOf id) := .reads fun _ => rfl
theorem child? (id : NodeId) (i : Nat) : Learner N G (Pass.child? id i) := .reads fun _ => rfl
theorem factsOf (id : NodeId) : Learner N G (Pass.factsOf id) := .reads fun _ => rfl
theorem declOf (id : DeclId) : Learner N G (Pass.declOf id) := .reads fun _ => rfl

theorem report (d : Diagnostic) : Learner N G (Pass.report d) :=
  .of_tree fun _ => ⟨rfl, rfl, rfl, List.prefix_append _ _⟩

theorem reportAt (id : NodeId) (p : Problem) : Learner N G (Pass.reportAt id p) :=
  (startOf id).bind fun _ => .report _

theorem makeType (f : TypeTable → TypeId × TypeTable) : Learner N G (Pass.makeType f) :=
  .of_tree fun _ => ⟨rfl, rfl, rfl, List.prefix_refl _⟩

theorem onValues (f : Heap → α × Heap) : Learner N G (Pass.onValues f) :=
  .of_tree fun _ => ⟨rfl, rfl, rfl, List.prefix_refl _⟩

theorem onValues? (f : Heap → Option (α × Heap)) : Learner N G (Pass.onValues? f) := by
  refine .of_tree fun s => triple_onValues?.mpr ?_
  split <;> exact ⟨rfl, rfl, rfl, List.prefix_refl _⟩

theorem modifyDecl (id : DeclId) {f : Decl → Decl} (hf : ∀ d, (f d).kind = d.kind) :
    Learner N G (Pass.modifyDecl id f) :=
  .of_tree fun s => ⟨s.names_modifyDecl id hf, rfl, rfl, List.prefix_refl _⟩

theorem annotate {node : NodeId} (hn : N node) (f : Facts → Facts) :
    Learner N G (Pass.annotate node f) := fun _ _ _ => learns_annotate hn f

/-- The body of a function has a scope that is there. -/
theorem ofDecl {f : Decl → Pass β} {id : DeclId}
    (h : ∀ d, Learner N (fun n => (∀ params result scope,
      d.kind = .function params result scope → n.Has scope) ∧ G n) (f d)) :
    Learner N G (Pass.declOf id >>= f) :=
  fun s hs hg => h (s.decl id) s hs ⟨hs.functions id, hg⟩

theorem findVars {scope : ScopeId} (h : ∀ n, G n → n.Has scope) (name : String) :
    Learner N G (lookUp (·.findVars scope name)) := by
  intro s hs hg
  obtain ⟨found, hf, -⟩ := ScopeTable.exists_findVars hs.closed (h _ hg) name
  simp only [Returns, triple_lookUp, hf]
  exact .refl s

theorem findType? {scope : ScopeId} (h : ∀ n, G n → n.Has scope) (name : String) :
    Learner N G (lookUp (·.findType? scope name)) := by
  intro s hs hg
  obtain ⟨found, hf⟩ := ScopeTable.exists_findType? hs.closed (h _ hg) name
  simp only [Returns, triple_lookUp, hf]
  exact .refl s

end Learner
end BlockLang
