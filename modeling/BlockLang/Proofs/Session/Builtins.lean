import BlockLang.Proofs.Scope.Found
import BlockLang.Proofs.Session.Operators
import BlockLang.Proofs.Types.Built

/-!
# The built-in operators

A new session declares every built-in operator once, in the outermost scope and with its
signature, so that each scope sees them all. What modules declare are words, which changes
nothing about that.
-/

namespace BlockLang

namespace Session

/-- The declaration `id` is that of the built-in `op`, which takes its operands through the
tuple `parameters`. -/
structure HasBuiltin (s : Session) (id : DeclId) (op : Builtin) (signature parameters : TypeId) :
    Prop where
  kind : (s.decl id).kind = .builtin op
  type : (s.decl id).type = some signature
  func : s.types.kind signature = .func parameters op.result.typeId
  parameters : s.types.kind parameters =
    .tuple (.replicate op.kind.arity ⟨none, op.operand.typeId⟩)

/-- The operators `ops` are declared in their order, before anything else, and no operator is
declared besides. -/
structure HasBuiltins (s : Session) (ops : List Builtin) : Prop where
  scopes : s.scopes.Sound
  /-- Scopes stand in scopes, up to the universal one. -/
  inner : ∀ scope, s.scopes.Has scope → scope ≠ s.universal →
    ∃ parent, (s.scopes.get scope).parent = some parent
  declared : ∀ scope name id, IsOperator name → (id ∈ (s.scopes.get scope).declsOf name ↔
    scope = s.universal ∧ ∃ op, ops[id.index]? = some op ∧ op.kind.symbol = name)
  builtin : ∀ (i : Nat) op, ops[i]? = some op →
    ∃ signature parameters, s.HasBuiltin ⟨i⟩ op signature parameters

/-- The built-in operators are declared, as in a new session. -/
abbrev Builtins (s : Session) : Prop := s.HasBuiltins Builtin.all

variable {s s' : Session} {ops : List Builtin} {op : Builtin} {id : DeclId}
  {signature parameters : TypeId}

/-- Declarations and types that were there stay. -/
theorem HasBuiltin.mono (h : s.HasBuiltin id op signature parameters)
    (hd : s'.decl id = s.decl id) (ht : s.types.Extends s'.types) :
    s'.HasBuiltin id op signature parameters where
  kind := hd ▸ h.kind
  type := hd ▸ h.type
  func := (ht.kind (TypeTable.has_of_kind_ne_error (by simp [h.func]))).trans h.func
  parameters :=
    (ht.kind (TypeTable.has_of_kind_ne_error (by simp [h.parameters]))).trans h.parameters

theorem HasBuiltins.mono (h : s.HasBuiltins ops) (hs : s'.scopes.Sound)
    (hu : s'.universal = s.universal)
    (hi : ∀ scope, s'.scopes.Has scope → scope ≠ s.universal →
      ∃ parent, (s'.scopes.get scope).parent = some parent)
    (hdecls : ∀ scope name, IsOperator name →
      (s'.scopes.get scope).declsOf name = (s.scopes.get scope).declsOf name)
    (hd : ∀ (i : Nat) op, ops[i]? = some op → s'.decl ⟨i⟩ = s.decl ⟨i⟩)
    (ht : s.types.Extends s'.types) : s'.HasBuiltins ops := by
  refine ⟨hs, hu ▸ hi, fun scope name id hname => ?_, fun i op hop => ?_⟩
  · rw [hdecls scope name hname, hu, h.declared scope name id hname]
  · obtain ⟨signature, parameters, hbuiltin⟩ := h.builtin i op hop
    exact ⟨signature, parameters, hbuiltin.mono (hd i op hop) ht⟩

/-- Nodes, values and diagnostics come and go, and types are added. -/
theorem HasBuiltins.congr (h : s.HasBuiltins ops) (hs : s'.scopes = s.scopes)
    (hu : s'.universal = s.universal) (hd : s'.decls = s.decls)
    (ht : s.types.Extends s'.types) : s'.HasBuiltins ops := by
  refine h.mono (hs ▸ h.scopes) hu (hs ▸ h.inner) (fun _ _ _ => by rw [hs]) (fun i op _ => ?_) ht
  simp only [Session.decl, hd]

/-- Scopes may declare and import more, as long as no operator is among it. -/
theorem HasBuiltins.withScopes (h : s.HasBuiltins ops) {scopes : ScopeTable} (hs : scopes.Sound)
    (hsize : scopes.scopes.size = s.scopes.scopes.size)
    (hp : ∀ scope, (scopes.get scope).parent = (s.scopes.get scope).parent)
    (hdecls : ∀ scope name, IsOperator name →
      (scopes.get scope).declsOf name = (s.scopes.get scope).declsOf name) :
    HasBuiltins { s with scopes } ops := by
  refine h.mono hs rfl (fun scope hscope hne => ?_) hdecls (fun _ _ _ => rfl) (.refl _)
  dsimp only at hscope ⊢
  rw [hp]
  exact h.inner scope (hscope.mono (Nat.le_of_eq hsize)) hne

theorem HasBuiltins.addType (h : s.HasBuiltins ops) {scope : ScopeId} {d : TypeDef}
    {id : TypeDefId} {scopes : ScopeTable} (ha : s.scopes.addType scope d = .ok (id, scopes)) :
    HasBuiltins { s with scopes } ops := by
  refine h.withScopes (h.scopes.addType ha) (ScopeTable.size_addType ha) (fun place => ?_)
    fun place name _ => ?_ <;>
  · obtain ⟨types, hget⟩ := ScopeTable.get_addType ha place
    simp [hget, Scope.declsOf]

/-- From every scope the universal one is seen. -/
theorem HasBuiltins.sees (h : s.HasBuiltins ops) {root : ScopeId} (hs : s.scopes.Has root) :
    s.scopes.Sees root s.universal :=
  ⟨false, climb root hs .here⟩
where
  climb (scope : ScopeId) (hs : s.scopes.Has scope) (hr : s.scopes.Reaches root false scope) :
      s.scopes.Reaches root false s.universal := by
    by_cases huniversal : scope = s.universal
    · exact huniversal ▸ hr
    · obtain ⟨parent, hparent⟩ := h.inner scope hs huniversal
      have : parent.index < scope.index := h.scopes.ordered.parents scope parent hparent
      exact climb parent (h.scopes.linked.parent hparent) (hr.parent hparent nofun)
  termination_by scope.index

/-- Wherever an operator is looked up, all its built-ins are found, each once, and nothing
else. -/
theorem HasBuiltins.exists_findVars (h : s.HasBuiltins ops) {scope : ScopeId}
    (hs : s.scopes.Has scope) {name : String} (hname : IsOperator name) :
    ∃ found, s.scopes.findVars scope name = .ok found ∧ found.Nodup ∧
      ∀ id : DeclId, id ∈ found ↔ ∃ op, ops[id.index]? = some op ∧ op.kind.symbol = name := by
  obtain ⟨found, hfound, hnodup, hmem⟩ := h.scopes.exists_findVars hs name
  refine ⟨found, hfound, hnodup, fun id => (hmem id).trans ⟨?_, fun hop => ?_⟩⟩
  · rintro ⟨place, -, hid⟩
    exact ((h.declared place name id hname).mp hid).2
  · exact ⟨s.universal, h.sees hs, (h.declared _ name id hname).mpr ⟨rfl, hop⟩⟩

-- ---------------------------------------------------------------------------
-- New sessions
-- ---------------------------------------------------------------------------

/-- A session in which nothing but the operators `ops` is declared so far. -/
structure Declaring (ops : List Builtin) (s : Session) : Prop where
  builtins : s.HasBuiltins ops
  types : s.types.Built
  universal : s.scopes.Has s.universal
  count : s.decls.size = ops.length
  groups : ∀ name var, (s.scopes.get s.universal).vars.lookup name = some var →
    ∃ group, var = .overloads group

theorem Declaring.definePrimitive (h : s.Declaring ops) (p : Primitive) :
    (s.definePrimitive p).Declaring ops := by
  unfold Session.definePrimitive
  dsimp only
  split
  · next hadd =>
    refine ⟨h.builtins.addType hadd, h.types,
      h.universal.mono (Nat.le_of_eq (ScopeTable.size_addType hadd).symm), h.count, ?_⟩
    obtain ⟨types, hget⟩ := ScopeTable.get_addType hadd s.universal
    intro name var hvar
    rw [hget] at hvar
    exact h.groups name var hvar
  · exact h

theorem decl_addDecl (s : Session) (d : Decl) (id : DeclId) :
    (s.addDecl d).2.decl id = if id.index = s.decls.size then d else s.decl id := by
  simp only [Session.decl, Session.addDecl, Array.getElem?_push]
  split <;> rfl

/-- The next operator gets the next declaration. -/
theorem HasBuiltins.declare (h : s.HasBuiltins ops) (hcount : s.decls.size = ops.length)
    {d : Decl} (hnew : (s.addDecl d).2.HasBuiltin ⟨s.decls.size⟩ op signature parameters)
    {scopes : ScopeTable}
    (ha : s.scopes.addVar s.universal op.kind.symbol ⟨s.decls.size⟩ true = .ok scopes)
    (hl : (scopes.get s.universal).vars.lookup op.kind.symbol = some (.overloads
      ((s.scopes.get s.universal).declsOf op.kind.symbol ++ [⟨s.decls.size⟩]))) :
    HasBuiltins { (s.addDecl d).2 with scopes } (ops ++ [op]) := by
  have hnext : ∀ {i : Nat} {op'}, (ops ++ [op])[i]? = some op' ↔
      ops[i]? = some op' ∨ i = ops.length ∧ op = op' := by
    intro i op'
    rcases Nat.lt_trichotomy i ops.length with hlt | rfl | hgt
    · simp [List.getElem?_append_left hlt, Nat.ne_of_lt hlt]
    · simp
    · have hne := Nat.ne_of_gt hgt
      have hpast : (ops ++ [op]).length ≤ i := by simpa using Nat.succ_le_of_lt hgt
      rw [List.getElem?_eq_none hpast, List.getElem?_eq_none (Nat.le_of_lt hgt)]
      simp [hne]
  refine ⟨h.scopes.addVar ha, fun scope hscope hne => ?_, fun scope name id hname => ?_,
    fun i op' hop => ?_⟩
  · have hparent : (scopes.get scope).parent = (s.scopes.get scope).parent := by
      rcases ScopeTable.get_addVar ha scope with hget | ⟨-, vars, hget⟩ <;> rw [hget]
    have hsize := Nat.le_of_eq (ScopeTable.size_addVar ha)
    exact hparent ▸ h.inner scope (hscope.mono hsize) hne
  · simp only [hnext]
    by_cases hplace : scope = s.universal ∧ name = op.kind.symbol
    · obtain ⟨rfl, rfl⟩ := hplace
      obtain ⟨i⟩ := id
      rw [Scope.declsOf, hl, Option.map_some, Option.getD_some, VarDef.decls, List.mem_append,
        h.declared _ _ _ hname, List.mem_singleton, DeclId.mk.injEq, hcount]
      simp only [true_and, or_and_right, exists_or]
      have hlast : i = ops.length ↔ ∃ op', (i = ops.length ∧ op = op') ∧
          op'.kind.symbol = op.kind.symbol := by
        refine ⟨fun hi => ⟨op, ⟨hi, rfl⟩, rfl⟩, ?_⟩
        rintro ⟨op', ⟨hi, -⟩, -⟩
        exact hi
      rw [← hlast]
      exact (and_iff_right rfl).symm
    · have hsame : (scopes.get scope).declsOf name = (s.scopes.get scope).declsOf name := by
        rw [Scope.declsOf, Scope.declsOf, ScopeTable.lookup_addVar ha (not_and_or.mp hplace)]
      rw [hsame, h.declared scope name id hname]
      refine and_congr_right fun hscope => exists_congr fun op' => and_congr_left fun hsymbol => ?_
      refine (or_iff_left ?_).symm
      rintro ⟨-, rfl⟩
      exact hplace ⟨hscope, hsymbol.symm⟩
  · rcases hnext.mp hop with hop | ⟨rfl, rfl⟩
    · obtain ⟨signature, parameters, hbuiltin⟩ := h.builtin i op' hop
      have hne : i ≠ s.decls.size := by
        rintro rfl
        simp [hcount] at hop
      have hdecl : (s.addDecl d).2.decl ⟨i⟩ = s.decl ⟨i⟩ :=
        (decl_addDecl s d _).trans (if_neg hne)
      exact ⟨signature, parameters, hbuiltin.mono hdecl (.refl _)⟩
    · exact ⟨signature, parameters, hcount ▸ hnew.mono rfl (.refl _)⟩

theorem Declaring.declareBuiltin (h : s.Declaring ops) (op : Builtin) :
    (s.declareBuiltin op).Declaring (ops ++ [op]) := by
  obtain ⟨u, hadd, hlookup⟩ := ScopeTable.exists_addVar h.universal ⟨s.decls.size⟩
    (h.groups op.kind.symbol)
  unfold Session.declareBuiltin
  dsimp only
  split
  · next scopes hscopes =>
    obtain rfl : u = scopes := Except.ok.inj (hadd.symm.trans hscopes)
    let parameters := s.types.makePlainTuple (.replicate op.kind.arity op.operand.typeId)
    let signature := parameters.2.makeFunc parameters.1 op.result.typeId
    have hparameters : parameters.2.kind parameters.1 =
        .tuple (.replicate op.kind.arity ⟨none, op.operand.typeId⟩) := by
      refine (TypeTable.kind_intern _ _).trans ?_
      rw [List.map_replicate]
    have hfunc : signature.2.kind signature.1 = .func parameters.1 op.result.typeId :=
      TypeTable.kind_intern _ _
    have hgrown : parameters.2.Extends signature.2 := parameters.2.extends_intern _
    have hhas : parameters.2.Has parameters.1 :=
      TypeTable.has_of_kind_ne_error (by simp [hparameters])
    have hbuilt : signature.2.Built := by
      have hoperands : ∀ id ∈ List.replicate op.kind.arity op.operand.typeId, s.types.Has id :=
        fun id hid => List.eq_of_mem_replicate hid ▸ h.types.has_typeId op.operand
      have hrequest : parameters.2.Built := h.types.request (.plainTuple _) hoperands
      refine hrequest.request (.func parameters.1 op.result.typeId) ?_
      simpa [TypeRequest.handles] using ⟨hhas, hrequest.has_typeId op.result⟩
    have htyped : HasBuiltins { s with types := signature.2 } ops :=
      h.builtins.congr rfl rfl rfl ((s.types.extends_intern _).trans hgrown)
    have hdecl := decl_addDecl { s with types := signature.2 } { Decl.new op.kind.symbol
      (.builtin op) s.universal .null with type := some signature.1, ready := true } ⟨s.decls.size⟩
    rw [if_pos rfl] at hdecl
    have hnew : Session.HasBuiltin _ _ op signature.1 parameters.1 :=
      ⟨congrArg Decl.kind hdecl, congrArg Decl.type hdecl, hfunc,
        (hgrown.kind hhas).trans hparameters⟩
    refine ⟨htyped.declare h.count hnew hadd hlookup, hbuilt,
      h.universal.mono (Nat.le_of_eq (ScopeTable.size_addVar hadd).symm), ?_,
      fun name var hvar => ?_⟩
    · simp [Session.addDecl, h.count]
    · by_cases hname : name = op.kind.symbol
      · subst hname
        exact ⟨_, Option.some.inj (hvar.symm.trans hlookup)⟩
      · refine h.groups name var ?_
        rw [← ScopeTable.lookup_addVar hadd (.inr hname)]
        exact hvar
  · next hscopes => cases hadd.symm.trans hscopes

theorem Declaring.declareBuiltins (h : s.Declaring ops) (more : List Builtin) :
    (more.foldl Session.declareBuiltin s).Declaring (ops ++ more) := by
  induction more generalizing s ops with
  | nil => rwa [List.append_nil]
  | cons op more ih => simpa using ih (h.declareBuiltin op)

/-- A session of the universal scope only. -/
theorem Declaring.of_scopes (hs : s.scopes = (ScopeTable.empty.addScope .universal none).2)
    (hu : s.universal = ⟨0⟩) (hd : s.decls = #[]) (ht : s.types.Built) : s.Declaring [] := by
  have hget : ∀ id, ((ScopeTable.empty.addScope .universal none).2.get id).vars = [] := by
    intro id
    rw [ScopeTable.get_addScope]
    split <;> rfl
  have hsound : (ScopeTable.empty.addScope .universal none).2.Sound :=
    ScopeTable.sound_empty.addScope .universal nofun
  refine ⟨⟨hs ▸ hsound, fun scope hscope hne => ?_, fun scope name id _ => ?_, nofun⟩, ht, ?_, ?_,
    fun name var hvar => ?_⟩
  · rw [hs] at hscope
    rw [hu] at hne
    obtain ⟨i⟩ := scope
    obtain rfl : i = 0 := Nat.lt_one_iff.mp hscope
    exact absurd rfl hne
  · simp [hs, Scope.declsOf, hget]
  · rw [hs, hu]
    exact Nat.zero_lt_one
  · rw [hd]
    rfl
  · simp [hs, hget] at hvar

theorem declaring_new (entrySymbol : String) :
    (Session.new entrySymbol).Declaring Builtin.all := by
  have hprimitives : ∀ s : Session, s.Declaring [] →
      (Primitive.all.foldl definePrimitive s).Declaring [] := fun s hs =>
    List.foldlRecOn (motive := (Declaring [] ·)) _ _ hs fun s h p _ => h.definePrimitive p
  let bare : Session := ⟨.empty, .initial, (ScopeTable.empty.addScope .universal none).2, #[],
    .empty, #[], [], #[], ⟨0⟩, entrySymbol⟩
  have hbare : bare.Declaring [] := .of_scopes rfl rfl rfl (.new TypeKind.hash)
  exact (hprimitives bare hbare).declareBuiltins Builtin.all

theorem builtins_new (entrySymbol : String) : (Session.new entrySymbol).Builtins :=
  (declaring_new entrySymbol).builtins

end Session
end BlockLang
