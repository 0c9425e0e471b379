import BlockLang.Proofs.Program.Arranged
import BlockLang.Proofs.Tree.Edit

/-!
# What reading leaves in place

Reading adds nodes, declarations, scopes and names, one at a time. Whatever it adds, nodes stay
as they were written, scopes stand where they stood, and names go on standing for the same
declarations.
-/

namespace BlockLang

namespace Arena

/-- The node is the same in both arenas, but for its parent and what is known of it. -/
structure KeepsNode (a b : Arena) (id : NodeId) : Prop where
  kind : b.kind id = a.kind id
  span : b.span id = a.span id
  scope : b.scope id = a.scope id
  children : b.children id = a.children id

variable {a b c : Arena} {id p child : NodeId}

theorem KeepsNode.refl (a : Arena) (id : NodeId) : a.KeepsNode a id := ⟨rfl, rfl, rfl, rfl⟩

theorem KeepsNode.trans (h : a.KeepsNode b id) (h' : b.KeepsNode c id) : a.KeepsNode c id :=
  ⟨h'.kind.trans h.kind, h'.span.trans h.span, h'.scope.trans h.scope,
    h'.children.trans h.children⟩

theorem keepsNode_setParent (q : Option NodeId) : a.KeepsNode (a.setParent child q) id := by
  refine ⟨?_, ?_, ?_, ?_⟩ <;>
    simp only [setParent, kind, span, scope, children, get_modify] <;> split <;> rfl

theorem keepsNode_setChildren (h : id ≠ p) (cs : List NodeId) :
    a.KeepsNode (a.setChildren p cs) id := by
  refine ⟨?_, ?_, ?_, ?_⟩ <;>
    simp [setChildren, kind, span, scope, children, get_modify, h]

theorem keepsNode_annotate (f : Facts → Facts) : a.KeepsNode (a.annotate p f) id := by
  refine ⟨?_, ?_, ?_, ?_⟩ <;>
    simp only [annotate, kind, span, scope, children, get_modify] <;> split <;> rfl

theorem keepsNode_add (h : id.index < a.size) (kind : NodeKind) (span : Span) (scope : ScopeId) :
    a.KeepsNode (a.add kind span scope).2 id := by
  have hget : (a.add kind span scope).2.get id = a.get id := by
    simp [get, add, Table.getElem?_push, Nat.ne_of_lt (show id.index < a.nodes.size from h)]
  refine ⟨?_, ?_, ?_, ?_⟩ <;> simp only [Arena.kind, Arena.span, Arena.scope, children, hget]

/-- A node has its label still and is followed by more children. -/
structure Takes (a b : Arena) (p : NodeId) (cs : List NodeId) : Prop where
  size : b.size = a.size
  others : ∀ id, id ≠ p → a.KeepsNode b id
  kind : b.kind p = a.kind p
  span : b.span p = a.span p
  scope : b.scope p = a.scope p
  children : b.children p = a.children p ++ cs

theorem takes_pushChild (h : a.pushChild p child = .ok b) : a.Takes b p [child] := by
  obtain ⟨_, -, h⟩ := bind_eq_ok.mp h
  obtain ⟨n, hn, h⟩ := bind_eq_ok.mp h
  obtain rfl := Except.ok.inj h
  obtain ⟨hp, -, hchildren⟩ := find_eq_ok hn
  have hparent : a.KeepsNode (a.setParent child (some p)) p := keepsNode_setParent _
  rw [hparent.children] at hchildren
  refine ⟨by simp, fun id hid => (keepsNode_setParent _).trans (keepsNode_setChildren hid _),
    ?_, ?_, ?_, ?_⟩
  · rw [← hparent.kind]
    simp only [setChildren, kind, get_modify]
    split <;> rfl
  · rw [← hparent.span]
    simp only [setChildren, span, get_modify]
    split <;> rfl
  · rw [← hparent.scope]
    simp only [setChildren, scope, get_modify]
    split <;> rfl
  · rw [children_setChildren hp, if_pos rfl, hchildren]

theorem takes_pushChildren {cs : List NodeId} (h : a.pushChildren p cs = .ok b) :
    a.Takes b p cs := by
  induction cs generalizing a with
  | nil =>
    obtain rfl := Except.ok.inj h
    exact ⟨rfl, fun id _ => .refl a id, rfl, rfl, rfl, by simp⟩
  | cons c cs ih =>
    rw [pushChildren, List.foldlM_cons] at h
    obtain ⟨a', hpush, h⟩ := bind_eq_ok.mp h
    have h₁ := takes_pushChild hpush
    have h₂ := ih h
    exact ⟨h₂.size.trans h₁.size, fun id hid => (h₁.others id hid).trans (h₂.others id hid),
      h₂.kind.trans h₁.kind, h₂.span.trans h₁.span, h₂.scope.trans h₁.scope,
      by rw [h₂.children, h₁.children, List.append_assoc]; rfl⟩

end Arena

-- ---------------------------------------------------------------------------
-- Tables that stay
-- ---------------------------------------------------------------------------

namespace ScopeTable

variable {t t' : ScopeTable} {place scope : ScopeId}

theorem has_of_addVar {name : String} {decl : DeclId} {overloadable : Bool}
    (h : t.addVar scope name decl overloadable = .ok t') : t.Has scope := by
  obtain ⟨old, vars, hold, -, -⟩ := addVar_eq_ok h
  exact (Array.getElem?_eq_some_iff.mp hold).1

/-- A declaration takes none of the others away. -/
theorem mem_declsOf_addVar_of_mem {name other : String} {decl : DeclId} {overloadable : Bool}
    (h : t.addVar scope name decl overloadable = .ok t') (hx : x ∈ (t.get place).declsOf other) :
    x ∈ (t'.get place).declsOf other := by
  by_cases hother : place = scope ∧ other = name
  · obtain ⟨rfl, rfl⟩ := hother
    have hhas := has_of_addVar h
    obtain ⟨old, vars, hold, hdeclare, rfl⟩ := addVar_eq_ok h
    have hget : t.get place = old := by simp [get, hold]
    rw [hget, Scope.declsOf] at hx
    rw [get_modify_self hhas, hget, Scope.declsOf]
    unfold declare at hdeclare
    split at hdeclare
    · next hnone => simp [hnone] at hx
    · next group hgroup =>
      split at hdeclare
      · obtain rfl := Except.ok.inj hdeclare
        rw [lookup_map_self _ hgroup]
        rw [hgroup] at hx
        simp only [Option.map_some, VarDef.decls, Option.getD_some] at hx ⊢
        exact List.mem_append_left _ hx
      · cases hdeclare
    · cases hdeclare
  · have hsame := lookup_addVar h (not_and_or.mp hother)
    rwa [Scope.declsOf, hsame]

/-- The declaration itself is found under its name. -/
theorem mem_declsOf_addVar_self {name : String} {decl : DeclId} {overloadable : Bool}
    (h : t.addVar scope name decl overloadable = .ok t') : decl ∈ (t'.get scope).declsOf name := by
  have hhas := has_of_addVar h
  obtain ⟨old, vars, hold, hdeclare, rfl⟩ := addVar_eq_ok h
  rw [get_modify_self hhas, Scope.declsOf]
  unfold declare at hdeclare
  split at hdeclare
  · obtain rfl := Except.ok.inj hdeclare
    cases overloadable <;> simp [VarDef.decls]
  · next group hgroup =>
    split at hdeclare
    · obtain rfl := Except.ok.inj hdeclare
      simp [lookup_map_self _ hgroup, VarDef.decls]
    · cases hdeclare
  · cases hdeclare

theorem keeps_addVar {name : String} {decl : DeclId} {overloadable : Bool}
    (h : t.addVar scope name decl overloadable = .ok t') : t.Keeps t' := by
  have hget : ∀ id, (t'.get id).kind = (t.get id).kind ∧
      (t'.get id).parent = (t.get id).parent := by
    intro id
    rcases get_addVar h id with hget | ⟨-, vars, hget⟩ <;> simp [hget]
  exact keeps_of_get (size_addVar h) (fun id => (hget id).1) fun id => (hget id).2

theorem types_addVar {name : String} {decl : DeclId} {overloadable : Bool}
    (h : t.addVar scope name decl overloadable = .ok t') (place : ScopeId) :
    (t'.get place).types = (t.get place).types := by
  rcases get_addVar h place with hget | ⟨-, vars, hget⟩ <;> simp [hget]

/-- Names that were there stay, and a new one stands for something. -/
theorem named_addVar {name other : String} {decl : DeclId} {overloadable : Bool} {var : VarDef}
    (h : t.addVar scope name decl overloadable = .ok t')
    (hvar : (t'.get place).vars.lookup other = some var) :
    (t.get place).vars.lookup other = some var ∨ var.decls ≠ [] := by
  by_cases hother : place = scope ∧ other = name
  · obtain ⟨rfl, rfl⟩ := hother
    have hhas := has_of_addVar h
    obtain ⟨old, vars, -, hdeclare, rfl⟩ := addVar_eq_ok h
    rw [get_modify_self hhas] at hvar
    exact .inr (decls_ne_nil_of_declare hdeclare hvar)
  · rw [lookup_addVar h (not_and_or.mp hother)] at hvar
    exact .inl hvar

theorem keeps_addType {d : TypeDef} {typeDef : TypeDefId}
    (h : t.addType scope d = .ok (typeDef, t')) : t.Keeps t' := by
  have hget : ∀ id, (t'.get id).kind = (t.get id).kind ∧
      (t'.get id).parent = (t.get id).parent := by
    intro id
    obtain ⟨types, hget⟩ := get_addType h id
    simp [hget]
  exact keeps_of_get (size_addType h) (fun id => (hget id).1) fun id => (hget id).2

theorem vars_addType {d : TypeDef} {typeDef : TypeDefId}
    (h : t.addType scope d = .ok (typeDef, t')) (place : ScopeId) :
    (t'.get place).vars = (t.get place).vars := by
  obtain ⟨types, hget⟩ := get_addType h place
  rw [hget]

/-- A definition is found under its name, which was free, and nothing else has changed. -/
theorem lookup_addType {d : TypeDef} {typeDef : TypeDefId}
    (h : t.addType scope d = .ok (typeDef, t')) (place : ScopeId) (name : String) :
    (place = scope ∧ name = d.name ∧ (t.get place).types.lookup name = none ∧
      (t'.get place).types.lookup name = some typeDef) ∨
    (¬ (place = scope ∧ name = d.name) ∧
      (t'.get place).types.lookup name = (t.get place).types.lookup name) := by
  obtain ⟨old, hfind, h⟩ := bind_mapError_eq_ok h
  have hold := entry_eq_ok_iff.mp hfind
  have hget : t.get scope = old := by simp [get, hold]
  dsimp only at h
  split at h
  · cases h
  · next hfree =>
    obtain ⟨rfl, rfl⟩ := Prod.mk.inj (Except.ok.inj h)
    have hhas : ScopeTable.Has { t with typeDefs := t.typeDefs.push d } scope :=
      (Array.getElem?_eq_some_iff.mp hold).1
    by_cases hplace : place = scope
    · subst hplace
      rw [get_modify_self hhas]
      by_cases hname : name = d.name
      · subst hname
        exact .inl ⟨rfl, rfl, hget ▸ hfree, by simp⟩
      · refine .inr ⟨fun hboth => hname hboth.2, ?_⟩
        rw [hget, List.lookup_cons, beq_false_of_ne hname]
    · refine .inr ⟨fun hboth => hplace hboth.1, ?_⟩
      rcases get_modify_cases { t with typeDefs := t.typeDefs.push d } scope place
        ({ · with types := (d.name, ⟨t.typeDefs.size⟩) :: old.types }) with hsame | ⟨hscope, -⟩
      · rw [hsame]
        rfl
      · exact absurd hscope hplace

/-- What is no scope has no names. -/
theorem empty_of_not_has (h : ¬ t.Has scope) :
    (t.get scope).vars = [] ∧ (t.get scope).types = [] := by
  have hnone : t.scopes[scope.index]? = none := Array.getElem?_eq_none (Nat.le_of_not_lt h)
  simp [get, hnone, default, instInhabitedScope.default]

theorem has_of_mem_declsOf {d : DeclId} (h : d ∈ (t.get scope).declsOf name) : t.Has scope := by
  by_contra hnot
  simp [Scope.declsOf, (empty_of_not_has hnot).1] at h

end ScopeTable

namespace Session

/-- The declaration is registered in the scope under its name. -/
structure Registers (s : Session) (scope : ScopeId) (d : DeclId) : Prop where
  known : d.index < s.decls.size
  place : (s.decl d).scope = scope
  listed : d ∈ (s.scopes.get scope).declsOf (s.decl d).name

/-- Modules, declarations, scopes and names are still there. A name that has come since stands
for something. -/
structure Retains (s s' : Session) : Prop where
  modules : s'.modules = s.modules
  decls : ∀ (i : Nat) d, s.decls[i]? = some d → s'.decls[i]? = some d
  size : s.scopes.scopes.size ≤ s'.scopes.scopes.size
  scopes : s.scopes.Keeps s'.scopes
  vars : ∀ scope name d, d ∈ (s.scopes.get scope).declsOf name →
    d ∈ (s'.scopes.get scope).declsOf name
  types : ∀ scope name t, (s.scopes.get scope).types.lookup name = some t →
    (s'.scopes.get scope).types.lookup name = some t
  named : ∀ scope name var, (s'.scopes.get scope).vars.lookup name = some var →
    (s.scopes.get scope).vars.lookup name = some var ∨ var.decls ≠ []

variable {s s' s'' : Session} {scope : ScopeId} {d : DeclId}

theorem Retains.of_eq (hs : s'.scopes = s.scopes) (hd : s'.decls = s.decls)
    (hm : s'.modules = s.modules) : s.Retains s' := by
  refine ⟨hm, fun i d h => hd ▸ h, by rw [hs], ?_, ?_, ?_, ?_⟩ <;> rw [hs]
  · exact fun _ _ _ h => h
  · exact fun _ _ _ h => h
  · exact fun _ _ _ h => h
  · exact fun _ _ _ h => .inl h

theorem Retains.trans (h : s.Retains s') (h' : s'.Retains s'') : s.Retains s'' where
  modules := h'.modules.trans h.modules
  decls := fun i d hd => h'.decls i d (h.decls i d hd)
  size := Nat.le_trans h.size h'.size
  scopes := fun _ _ _ hs => h'.scopes (h.scopes hs)
  vars := fun scope name d hd => h'.vars scope name d (h.vars scope name d hd)
  types := fun scope name t ht => h'.types scope name t (h.types scope name t ht)
  named := fun scope name var hvar =>
    (h'.named scope name var hvar).elim (h.named scope name var) .inr

theorem Retains.decl (h : s.Retains s') (hd : d.index < s.decls.size) : s'.decl d = s.decl d := by
  have hold : s.decls[d.index]? = some s.decls[d.index] := Array.getElem?_eq_getElem hd
  rw [Session.decl, Session.decl, hold, h.decls _ _ hold]

theorem Registers.retain (h : s.Registers scope d) (hr : s.Retains s') : s'.Registers scope d := by
  have hd := hr.decl h.known
  have hknown := h.known
  have hold : s.decls[d.index]? = some s.decls[d.index] := Array.getElem?_eq_getElem hknown
  refine ⟨(Array.getElem?_eq_some_iff.mp (hr.decls _ _ hold)).1, hd ▸ h.place, ?_⟩
  rw [hd]
  exact hr.vars _ _ _ h.listed

theorem retains_addScope (s : Session) (kind : ScopeKind) (parent : Option ScopeId) :
    s.Retains { s with scopes := (s.scopes.addScope kind parent).2 } := by
  have hget : ∀ scope, (s.scopes.addScope kind parent).2.get scope = s.scopes.get scope ∨
      ¬ s.scopes.Has scope ∧ (s.scopes.addScope kind parent).2.get scope =
        ⟨kind, parent, [], [], []⟩ := by
    intro scope
    rw [ScopeTable.get_addScope]
    split
    · next hi => exact .inr ⟨fun hlt => Nat.ne_of_lt hlt hi, rfl⟩
    · exact .inl rfl
  refine ⟨rfl, fun _ _ hd => hd, by simp, s.scopes.keeps_addScope kind parent,
    fun scope name d hd => ?_, fun scope name t ht => ?_, fun scope name var hvar => ?_⟩
  · rw [ScopeTable.get_addScope_of_has (ScopeTable.has_of_mem_declsOf hd)]
    exact hd
  · rcases hget scope with hsame | ⟨hnot, -⟩
    · rwa [hsame]
    · simp [(ScopeTable.empty_of_not_has hnot).2] at ht
  · rcases hget scope with hsame | ⟨-, hnew⟩
    · exact .inl (hsame ▸ hvar)
    · simp [hnew] at hvar

/-- `id` has been declared as `d` says. -/
structure Declared (s s' : Session) (d : Decl) (id : DeclId) : Prop extends s.Retains s' where
  tree : s'.tree = s.tree
  registers : s'.Registers d.scope id
  decl_eq : s'.decl id = d
  origin : ∀ scope name x, x ∈ (s'.scopes.get scope).declsOf name →
    x ∈ (s.scopes.get scope).declsOf name ∨ scope = d.scope ∧ name = d.name ∧ x = id
  types_eq : ∀ scope, (s'.scopes.get scope).types = (s.scopes.get scope).types

theorem declared_of_addVar {d : Decl} {overloadable : Bool} {scopes : ScopeTable}
    (h : s.scopes.addVar d.scope d.name (s.addDecl d).1 overloadable = .ok scopes) :
    s.Declared { (s.addDecl d).2 with scopes } d (s.addDecl d).1 := by
  have hdecl : Session.decl { (s.addDecl d).2 with scopes } (s.addDecl d).1 = d := by
    simp [Session.decl, addDecl]
  refine ⟨⟨rfl, fun i e he => ?_, Nat.le_of_eq (ScopeTable.size_addVar h).symm,
    ScopeTable.keeps_addVar h, fun _ _ _ hx => ScopeTable.mem_declsOf_addVar_of_mem h hx,
    fun scope name t ht => ?_, fun _ _ _ hvar => ScopeTable.named_addVar h hvar⟩, rfl,
    ⟨by simp [addDecl], by rw [hdecl], ?_⟩, hdecl,
    fun _ _ _ hx => ScopeTable.mem_declsOf_addVar h hx, ScopeTable.types_addVar h⟩
  · have hlt : i < s.decls.size := (Array.getElem?_eq_some_iff.mp he).1
    simp only [Session.addDecl, Array.getElem?_push, Nat.ne_of_lt hlt, ↓reduceIte, he]
  · rwa [ScopeTable.types_addVar h]
  · rw [hdecl]
    exact ScopeTable.mem_declsOf_addVar_self h

/-- The name of a type has been defined in the scope. -/
structure Defined (s s' : Session) (scope : ScopeId) (name : String) : Prop
    extends s.Retains s' where
  tree : s'.tree = s.tree
  found : ∃ t, (s'.scopes.get scope).types.lookup name = some t
  origin : ∀ place other t, (s'.scopes.get place).types.lookup other = some t →
    (s.scopes.get place).types.lookup other = some t ∨ place = scope ∧ other = name
  vars_eq : ∀ scope, (s'.scopes.get scope).vars = (s.scopes.get scope).vars

theorem defined_of_addType {d : TypeDef} {id : TypeDefId} {scopes : ScopeTable}
    (h : s.scopes.addType scope d = .ok (id, scopes)) :
    s.Defined { s with scopes } scope d.name := by
  refine ⟨⟨rfl, fun _ _ hd => hd, Nat.le_of_eq (ScopeTable.size_addType h).symm,
    ScopeTable.keeps_addType h, fun scope name d hd => ?_, fun scope name t ht => ?_,
    fun scope name var hvar => .inl ?_⟩, rfl, ⟨id, ?_⟩, fun place other t ht => ?_,
    ScopeTable.vars_addType h⟩
  · rwa [Scope.declsOf, ScopeTable.vars_addType h]
  · rcases ScopeTable.lookup_addType h scope name with ⟨-, -, hnone, -⟩ | ⟨-, hsame⟩
    · simp [hnone] at ht
    · rwa [hsame]
  · rwa [← ScopeTable.vars_addType h]
  · rcases ScopeTable.lookup_addType h scope d.name with ⟨-, -, -, hnew⟩ | ⟨hother, -⟩
    · exact hnew
    · exact absurd ⟨rfl, rfl⟩ hother
  · rcases ScopeTable.lookup_addType h place other with ⟨hplace, hother, -, -⟩ | ⟨-, hsame⟩
    · exact .inr ⟨hplace, hother⟩
    · exact .inl (hsame ▸ ht)

/-- A node has been added with its children. -/
structure AddsNode (s s' : Session) (id : NodeId) (kind : NodeKind) (span : Span) (scope : ScopeId)
    (children : List NodeId) : Prop where
  fresh : id = ⟨s.tree.size⟩
  size : s'.tree.size = s.tree.size + 1
  others : ∀ other, other.index < s.tree.size → s.tree.KeepsNode s'.tree other
  kind : s'.tree.kind id = kind
  span : s'.tree.span id = span
  scope : s'.tree.scope id = scope
  children : s'.tree.children id = children
  rest : s' = { s with tree := s'.tree }

theorem AddsNode.retains {id : NodeId} {kind : NodeKind} {span : Span} {children : List NodeId}
    (h : s.AddsNode s' id kind span scope children) : s.Retains s' :=
  .of_eq (by rw [h.rest]) (by rw [h.rest]) (by rw [h.rest])

theorem ifReturns_addNode (s : Session) (kind : NodeKind) (span : Span) (scope : ScopeId)
    (children : List NodeId) : IfReturns (Pass.addNode kind span scope children) s
      fun id s' => s.AddsNode s' id kind span scope children := by
  unfold Pass.addNode
  refine triple_bind.mpr (triple_get.mpr (triple_bind.mpr (triple_modify.mpr (triple_bind.mpr ?_))))
  refine Pass.triple_tryTree.mpr ?_
  split
  · next tree hpush =>
    have htakes := Arena.takes_pushChildren hpush
    have hget : (s.tree.add kind span scope).2.get ⟨s.tree.size⟩ =
        ⟨kind, span, scope, .none, none, []⟩ := by simp [Arena.get, Arena.add, Arena.size]
    refine ⟨rfl, htakes.size.trans (Arena.size_add ..), fun other hlt => ?_, ?_, ?_, ?_, ?_, rfl⟩
    · refine (Arena.keepsNode_add hlt kind span scope).trans (htakes.others other ?_)
      rintro rfl
      exact Nat.lt_irrefl _ hlt
    · exact htakes.kind.trans (congrArg Node.kind hget)
    · exact htakes.span.trans (congrArg Node.span hget)
    · exact htakes.scope.trans (congrArg Node.scope hget)
    · have hnone : (s.tree.add kind span scope).2.children ⟨s.tree.size⟩ = [] :=
        congrArg Node.children hget
      exact htakes.children.trans (congrArg (· ++ children) hnone)
  · trivial

end Session
end BlockLang
