import BlockLang.Proofs.Program.Sound
import BlockLang.Proofs.Session.Equipped
import BlockLang.Proofs.Typing.Candid

/-!
# Clean sessions before inference

A new session is clean. Reading a module, connecting it, bringing it into normal form and
lowering it leave a clean session clean: nothing is found out there but the types of literals.
-/

namespace BlockLang

variable {busy : DeclId → Prop} {s s' : Session} {t : TypeTable}

theorem Decl.clean_new (name : String) {kind : DeclKind} (scope : ScopeId) (position : Position)
    (hk : ∀ op, kind ≠ .builtin op) : (Decl.new name kind scope position).Clean t :=
  ⟨nofun, nofun, fun op h => absurd h (hk op)⟩

theorem TypeDef.clean_new (name : String) (params : List String) {body : TypeDefBody}
    (scope : ScopeId) (position : Position) (hb : ∀ type, body = .builtin type → t.Clean type) :
    (TypeDef.new name params body scope position).Clean t :=
  ⟨hb, nofun, by simp [TypeDef.new]⟩

theorem Gains.untouched {scope : ScopeId} (h : Gains scope s s') : s.Untouched s' where
  types := by rw [h.rest]
  tree := h.tree
  decls := by rw [h.rest]
  scopes := by rw [h.rest]
  report := by rw [h.rest]

theorem Builds.untouched (h : Builds s s') : s.Untouched s' where
  types := by rw [h.rest]
  tree := h.tree
  decls := by rw [h.rest]
  scopes := by rw [h.rest]
  report := by rw [h.rest]

namespace Session.Clean

/-- Scopes may change as long as they know the same definitions. -/
theorem withScopes {scopes : ScopeTable} (h : s.Clean busy)
    (hs : scopes.typeDefs = s.scopes.typeDefs) (hl : scopes.Listed) :
    Session.Clean busy { s with scopes } where
  built := h.built
  nodes := h.nodes
  decls := h.decls
  resolving := h.resolving
  listed := hl
  typeDefs := by
    intro id hid
    have hdef : scopes.typeDef id = s.scopes.typeDef id := by
      rw [ScopeTable.typeDef, ScopeTable.typeDef, hs]
    rw [hdef]
    exact h.typeDefs id (hs ▸ hid)

theorem addDecl {d : Decl} (h : s.Clean busy) (hd : d.Clean s.types)
    (hr : d.resolving = false) : (s.addDecl d).2.Clean busy where
  built := h.built
  nodes := h.nodes
  decls := by
    intro id
    rw [decl_addDecl]
    split
    · exact hd
    · exact h.decls id
  resolving := by
    intro id
    rw [decl_addDecl]
    split
    · simp [hr]
    · exact h.resolving id
  listed := h.listed
  typeDefs := h.typeDefs

theorem addType {scope : ScopeId} {d : TypeDef} {id : TypeDefId} {scopes : ScopeTable}
    (h : s.Clean busy) (hd : d.Clean s.types)
    (ha : s.scopes.addType scope d = .ok (id, scopes)) : Session.Clean busy { s with scopes } where
  built := h.built
  nodes := h.nodes
  decls := h.decls
  resolving := h.resolving
  listed := h.listed.addType ha
  typeDefs := by
    obtain ⟨types, rfl⟩ := ScopeTable.addType_eq_ok ha
    intro other hother
    have hget : (s.scopes.typeDefs.push d)[other.index]?.getD default =
        if other.index = s.scopes.typeDefs.size then d else s.scopes.typeDef other := by
      rw [Array.getElem?_push]
      split <;> rfl
    change ((s.scopes.typeDefs.push d)[other.index]?.getD default).Clean s.types
    rw [hget]
    split
    · exact hd
    · next hne =>
      have hlt : other.index < s.scopes.typeDefs.size + 1 := by
        simpa [ScopeTable.modify] using hother
      exact h.typeDefs other (Nat.lt_of_le_of_ne (Nat.le_of_lt_succ hlt) hne)

theorem addVar {scope : ScopeId} {name : String} {id : DeclId} {overloadable : Bool}
    {scopes : ScopeTable} (h : s.Clean busy)
    (ha : s.scopes.addVar scope name id overloadable = .ok scopes) :
    Session.Clean busy { s with scopes } := by
  have hlisted := h.listed.addVar ha
  obtain ⟨_, _, -, -, rfl⟩ := ScopeTable.addVar_eq_ok ha
  exact h.withScopes rfl hlisted

theorem addScope (h : s.Clean busy) (kind : ScopeKind) (parent : Option ScopeId) :
    Session.Clean busy { s with scopes := (s.scopes.addScope kind parent).2 } :=
  h.withScopes rfl (h.listed.addScope kind parent)

/-- What is made of clean types is clean. -/
theorem request {r : TypeRequest} (h : s.Clean busy) (hr : r.CleanIn s.types) :
    Session.Clean busy { s with types := (r.answer s.types).2 } ∧
      (r.answer s.types).2.Clean (r.answer s.types).1 :=
  ⟨h.withTypes (h.built.request r hr.has) (h.built.settled.extends_answer r hr.has),
    h.built.clean_answer hr⟩

theorem definePrimitive (h : s.Clean busy) (p : Primitive) : (s.definePrimitive p).Clean busy := by
  unfold Session.definePrimitive
  dsimp only
  split
  · next hadd =>
    exact h.addType (TypeDef.clean_new _ _ _ _ fun type htype =>
      TypeDefBody.builtin.inj htype ▸ h.built.clean_typeId p) hadd
  · exact h

theorem declareBuiltin (h : s.Clean busy) (op : Builtin) : (s.declareBuiltin op).Clean busy := by
  have hoperands : (TypeRequest.plainTuple (.replicate op.kind.arity op.operand.typeId)).CleanIn
      s.types := by
    refine TypeRequest.cleanIn_plainTuple.mpr fun type htype => ?_
    exact List.eq_of_mem_replicate htype ▸ h.built.clean_typeId op.operand
  obtain ⟨h₁, hparameters⟩ := h.request hoperands
  obtain ⟨h₂, hsignature⟩ := h₁.request (r := .func _ op.result.typeId)
    (TypeRequest.cleanIn_func.mpr ⟨hparameters, h₁.built.clean_typeId op.result⟩)
  have h₃ := h₂.addDecl (d := { Decl.new op.kind.symbol (.builtin op) s.universal .null with
    type := some _, ready := true }) ⟨fun _ htype => Option.some.inj htype ▸ hsignature,
      fun _ => rfl, fun _ _ => rfl⟩ rfl
  unfold Session.declareBuiltin
  dsimp only
  split
  · next hadd =>
    exact h₃.addVar hadd
  · exact h₃

end Session.Clean

theorem Session.clean_new (entrySymbol : String) : (Session.new entrySymbol).Clean busy := by
  let bare : Session := ⟨.empty, .initial, (ScopeTable.empty.addScope .universal none).2, #[],
    .empty, #[], [], #[], ⟨0⟩, entrySymbol⟩
  have hbare : bare.Clean busy := by
    have hnode : ∀ id, (bare.tree.facts id).type = none := fun _ => rfl
    have hdecl : ∀ id, bare.decl id = default := fun _ => rfl
    have hscopes : bare.scopes.Listed := ScopeTable.Listed.addScope (by simp [ScopeTable.Listed,
      ScopeTable.empty]) .universal none
    refine ⟨.new TypeKind.hash, fun id type htype => ?_, fun id => ?_, fun id hid => ?_, hscopes,
      fun id hid => ?_⟩
    · rw [hnode] at htype
      cases htype
    · rw [hdecl]
      exact ⟨nofun, nofun, nofun⟩
    · rw [hdecl] at hid
      cases hid
    · exact absurd hid (Nat.not_lt_zero _)
  have hprimitives : (Primitive.all.foldl definePrimitive bare).Clean busy :=
    List.foldlRecOn (motive := (Session.Clean busy ·)) _ _ hbare fun s h p _ => h.definePrimitive p
  exact List.foldlRecOn (motive := (Session.Clean busy ·)) _ _ hprimitives
    fun s h op _ => h.declareBuiltin op

-- ---------------------------------------------------------------------------
-- Reading
-- ---------------------------------------------------------------------------

theorem LiteralValue.clean {type : TypeId} {value : Heap → ValueId × Heap}
    (h : LiteralValue t type value) (ht : t.Built) : t.Clean type := by
  cases h with
  | scalar p _ => exact ht.clean_typeId p
  | string _ hk =>
    refine .intro (by simp [hk]) fun p hp => ?_
    obtain rfl : p = Primitive.int8.typeId := by simpa [hk, TypeKind.inner, TypeKind.parts] using hp
    exact ht.clean_typeId .int8

theorem DeclKind.WellDeclared.ne_builtin {kind : DeclKind} (h : kind.WellDeclared s) :
    ∀ op, kind ≠ .builtin op := by
  rintro op rfl
  exact h

/-- Reading has a place to stand in a clean session. -/
structure ReadingClean (busy : DeclId → Prop) (depth : Nat) (c : Cursor) (s : Session) : Prop where
  reading : Reading depth c s
  clean : s.Clean busy

/-- Reading keeps a session clean. -/
theorem keeps_clean : Adds.Keeps IsWord (ReadingClean busy) where
  depth := fun n c s h => h.reading.depth
  name := fun n c s h => keeps_reading.name n c s h.reading
  cursor := fun n c c' s h hc => ⟨keeps_reading.cursor n c c' s h.reading hc, h.clean⟩
  leave := fun n c s h => ⟨keeps_reading.leave n c s h.reading, h.clean⟩
  enter := fun n c s kind h =>
    ⟨keeps_reading.enter n c s kind h.reading, h.clean.addScope kind _⟩
  tree := fun n c s s' h hg =>
    ⟨keeps_reading.tree n c s s' h.reading hg, hg.untouched.clean h.clean⟩
  decl := fun n c s name kind scope position h hw hk =>
    ⟨keeps_reading.decl n c s name kind scope position h.reading hw hk,
      h.clean.addDecl (Decl.clean_new name scope position hk.ne_builtin) rfl⟩
  declare := fun n c s name kind scope position overloadable scopes h hw hk ha =>
    ⟨keeps_reading.declare n c s name kind scope position overloadable scopes h.reading hw hk ha,
      (h.clean.addDecl (Decl.clean_new name scope position hk.ne_builtin) rfl).addVar ha⟩
  typeDef := fun n c s scope name params body position id scopes h ha =>
    ⟨keeps_reading.typeDef n c s scope name params body position id scopes h.reading ha,
      h.clean.addType (TypeDef.clean_new name params _ position fun _ hb => by cases hb) ha⟩
  listType := fun n c s length h => by
    have hint : (TypeRequest.list Primitive.int8.typeId length).CleanIn s.types := by
      simpa using h.clean.built.clean_typeId .int8
    exact ⟨keeps_reading.listType n c s length h.reading, (h.clean.request hint).1⟩
  literal := fun n c s id type value h hid hv => by
    refine ⟨keeps_reading.literal n c s id type value h.reading hid hv, ?_⟩
    have hvalues : s.Untouched { s with values := (value s.values).2 } :=
      ⟨rfl, .refl _, rfl, rfl, rfl⟩
    exact (hvalues.clean h.clean).annotate fun _ ht =>
      Option.some.inj ht ▸ hv.clean h.clean.built

namespace Session.Clean

/-- A new module is empty. -/
theorem addModule (h : s.Clean busy) (name path source : String) :
    (s.addModule name path source).2.Clean busy := by
  have hlisted : (s.addModule name path source).2.scopes.Listed :=
    (((h.listed.addScope .publicImport _).addScope .publicLayer _).addScope
      .privateImport _).addScope .privateLayer _
  have hscopes : Session.Clean busy { s with scopes := (s.addModule name path source).2.scopes } :=
    h.withScopes rfl hlisted
  let layered : Session := { s with scopes := (s.addModule name path source).2.scopes }
  exact Untouched.clean (s := layered) ⟨rfl, Arena.grows_add _ _ _ _, rfl, rfl, rfl⟩ hscopes

/-- However reading a module ends, the session is clean then. -/
theorem parseText (h : s.Clean busy) (hs : s.Sound) (name path text : String) :
    Triple (BlockLang.parseText name path text) s (fun _ s' => s'.Clean busy)
      fun _ s' => s'.Clean busy := by
  have hadd := h.addModule name path text
  unfold BlockLang.parseText
  refine triple_bind.mpr (triple_get.mpr (triple_bind.mpr (triple_set.mpr ?_)))
  split
  · exact hadd
  · next tokens htokens =>
    have hreading : ReadingClean busy 0 _ (s.addModule name path text).2 :=
      ⟨hs.reading name path text path (isWord_of_tokenize htokens), hadd⟩
    refine triple_bind.mpr (triple_adapt.mpr ?_)
    refine (triple_read keeps_clean tokens name path text path s.tree.forest_nil hreading).mono
      ?_ ?_
    all_goals
      rintro - s' ⟨d, c, ts, -, h', -⟩
      exact h'.clean

theorem loadModule (h : s.Clean busy) (hs : s.Sound) (library : Library) (name : String)
    (position : Position) :
    Triple (BlockLang.loadModule library name position) s (fun _ s' => s'.Clean busy)
      fun _ s' => s'.Clean busy := by
  unfold BlockLang.loadModule
  refine triple_bind.mpr (triple_get.mpr ?_)
  split
  · exact h
  · split
    · exact h.parseText hs name _ _
    · exact h
    · exact h

theorem connect (h : s.Clean busy) (module : ModuleId) (i : Import) (imported : ModuleId) :
    IfReturns (BlockLang.connect module i imported) s fun _ s' => s'.Clean busy := by
  unfold BlockLang.connect Pass.editScopes IfReturns
  simp only [triple_bind, triple_get, Pass.triple_lookUp]
  split
  · next scopes hadd =>
    have hlisted := h.listed.addImport hadd
    obtain ⟨-, ⟨-, rfl⟩ | rfl⟩ := ScopeTable.addImport_eq_ok hadd
    · exact h
    · exact h.withScopes rfl hlisted
  · trivial

end Session.Clean

/-- Bringing a module into normal form marks places, and nothing else. -/
theorem Marks.clean (h : Marks s s') (hs : s.Clean busy) : s'.Clean busy := by
  rw [h.rest]
  refine ⟨hs.built, fun id type htype => ?_, hs.decls, hs.resolving, hs.listed, hs.typeDefs⟩
  by_cases hlt : id.index < s.tree.size
  · obtain ⟨l, hl⟩ := Arena.exists_label hlt
    obtain ⟨lvalue, hl'⟩ := h.labels id l hl
    refine hs.nodes id type ?_
    rw [Arena.facts_of_label hl]
    exact (congrArg Facts.type (Arena.facts_of_label hl')).symm.trans htype
  · have hnone : s'.tree.facts id = .none := by
      rw [Arena.facts, Arena.get, Table.getElem?_eq_none]
      · rfl
      · exact Nat.le_trans (Nat.le_of_eq h.size) (Nat.le_of_not_lt hlt)
    rw [hnone] at htype
    cases htype

end BlockLang
