import BlockLang.Scope.Basic

/-!
# Closed scope tables

A table is closed if every scope that one of its entries names is in it. Every change of
the table keeps it closed.
-/

namespace BlockLang

namespace ScopeTable

variable (t : ScopeTable)

/-- The table has the scope. -/
def Has (id : ScopeId) : Prop := id.index < t.scopes.size

instance (id : ScopeId) : Decidable (t.Has id) :=
  inferInstanceAs (Decidable (id.index < t.scopes.size))

/-- Every scope that an entry of the table names is in it. -/
structure Closed : Prop where
  parent : ∀ (i : Nat) scope, t.scopes[i]? = some scope → ∀ p, scope.parent = some p → t.Has p
  imports : ∀ (i : Nat) scope, t.scopes[i]? = some scope → ∀ e ∈ scope.imports, t.Has e
  typeDefs : ∀ (i : Nat) d, t.typeDefs[i]? = some d → t.Has d.scope

variable {t} {start : ScopeId}

theorem find_eq_ok (h : t.Has start) :
    ∃ scope, t.scopes[start.index]? = some scope ∧ t.find start = .ok scope := by
  have hget : t.scopes[start.index]? = some t.scopes[start.index] := Array.getElem?_eq_getElem h
  exact ⟨_, hget, entry_eq_ok_iff.mpr hget⟩

-- ---------------------------------------------------------------------------
-- Changes
-- ---------------------------------------------------------------------------

/-- A step that succeeded, whatever its failures would have been called. -/
theorem bind_mapError_eq_ok {x : Except ε α} {g : ε → ε'} {f : α → Except ε' β} {b : β}
    (h : (x.mapError g >>= f) = .ok b) : ∃ a, x = .ok a ∧ f a = .ok b := by
  cases x with
  | error e => cases h
  | ok a => exact ⟨a, rfl, h⟩

theorem bind_mapError_ok (a : α) (g : ε → ε') (f : α → Except ε' β) :
    ((.ok a : Except ε α).mapError g >>= f) = f a := rfl

/-- A scope that takes a name has one more declaration of it. -/
theorem addVar_eq_ok {t' : ScopeTable} (h : t.addVar scope name decl ov = .ok t') :
    ∃ old vars, t.scopes[scope.index]? = some old ∧
      declare old.vars name decl ov = .ok vars ∧ t' = t.modify scope ({ · with vars }) := by
  obtain ⟨old, hf, h⟩ := bind_mapError_eq_ok h
  obtain ⟨vars, hd, h⟩ := bind_mapError_eq_ok h
  exact ⟨old, vars, entry_eq_ok_iff.mp hf, hd, (Except.ok.inj h).symm⟩

theorem addType_eq_ok {t' : ScopeTable} {id : TypeDefId}
    (h : t.addType scope d = .ok (id, t')) :
    ∃ types, t' = ({ t with typeDefs := t.typeDefs.push d } : ScopeTable).modify scope
      ({ · with types }) := by
  obtain ⟨old, -, h⟩ := bind_mapError_eq_ok h
  dsimp only at h
  split at h
  · cases h
  · exact ⟨_, (congrArg Prod.snd (Except.ok.inj h)).symm⟩

/-- A layer has the import after it was added, as its last one unless it had it before. -/
theorem addImport_eq_ok {t' : ScopeTable} (h : t.addImport layer exported = .ok t') :
    t.Has layer ∧ (exported ∈ (t.get layer).imports ∧ t' = t ∨
      t' = t.modify layer ({ · with imports := (t.get layer).imports ++ [exported] })) := by
  unfold addImport at h
  cases hfind : t.find layer with
  | error e =>
    rw [hfind] at h
    cases h
  | ok scope =>
    have hscope := entry_eq_ok_iff.mp hfind
    have hget : t.get layer = scope := by simp [get, hscope]
    rw [hfind] at h
    simp only [bind, Except.bind, pure, Except.pure] at h
    refine ⟨(Array.getElem?_eq_some_iff.mp hscope).1, ?_⟩
    rw [hget]
    split at h
    · exact .inl ⟨‹_›, (Except.ok.inj h).symm⟩
    · exact .inr (Except.ok.inj h).symm

@[simp] theorem size_modify (t : ScopeTable) (id : ScopeId) (f : Scope → Scope) :
    (t.modify id f).scopes.size = t.scopes.size := by
  simp [modify]

theorem size_addVar {t' : ScopeTable} (h : t.addVar scope name decl ov = .ok t') :
    t'.scopes.size = t.scopes.size := by
  obtain ⟨old, vars, -, -, rfl⟩ := addVar_eq_ok h
  exact size_modify ..

theorem size_addType {t' : ScopeTable} {id : TypeDefId}
    (h : t.addType scope d = .ok (id, t')) : t'.scopes.size = t.scopes.size := by
  obtain ⟨types, rfl⟩ := addType_eq_ok h
  exact size_modify ..

@[simp] theorem size_addScope (t : ScopeTable) (kind : ScopeKind) (parent : Option ScopeId) :
    (t.addScope kind parent).2.scopes.size = t.scopes.size + 1 := Array.size_push _

theorem Has.mono {t' : ScopeTable} (h : t.Has start) (hs : t.scopes.size ≤ t'.scopes.size) :
    t'.Has start := Nat.lt_of_lt_of_le h hs

/-- A scope that goes on naming the same scopes may change otherwise. -/
theorem Closed.modify (h : t.Closed) (id : ScopeId) {f : Scope → Scope}
    (hp : ∀ scope, (f scope).parent = scope.parent)
    (hi : ∀ scope, t.scopes[id.index]? = some scope → ∀ e ∈ (f scope).imports, t.Has e) :
    (t.modify id f).Closed := by
  have hhas : ∀ {e}, t.Has e → (t.modify id f).Has e := fun he =>
    he.mono (Nat.le_of_eq (size_modify ..).symm)
  have hentry : ∀ (i : Nat) scope, (t.modify id f).scopes[i]? = some scope →
      t.scopes[i]? = some scope ∨
        ∃ old, i = id.index ∧ t.scopes[i]? = some old ∧ scope = f old := by
    intro i scope hs
    simp only [ScopeTable.modify, Array.getElem?_modify] at hs
    split at hs
    · obtain ⟨old, ho, rfl⟩ := Option.map_eq_some_iff.mp hs
      exact .inr ⟨old, by omega, ho, rfl⟩
    · exact .inl hs
  refine ⟨fun i scope hs p hp' => hhas ?_, fun i scope hs e he => hhas ?_,
    fun i d hd => hhas (h.typeDefs i d hd)⟩
  · rcases hentry i scope hs with hs | ⟨old, -, ho, rfl⟩
    · exact h.parent i scope hs p hp'
    · exact h.parent i old ho p (hp old ▸ hp')
  · rcases hentry i scope hs with hs | ⟨old, rfl, ho, rfl⟩
    · exact h.imports i scope hs e he
    · exact hi old ho e he

theorem Closed.addVar {t' : ScopeTable} (h : t.Closed)
    (ha : t.addVar scope name decl ov = .ok t') : t'.Closed := by
  obtain ⟨old, vars, -, -, rfl⟩ := addVar_eq_ok ha
  exact h.modify scope (fun _ => rfl) fun s hs => h.imports _ s hs

theorem Closed.addType {t' : ScopeTable} {id : TypeDefId} (h : t.Closed) (hd : t.Has d.scope)
    (ha : t.addType scope d = .ok (id, t')) : t'.Closed := by
  obtain ⟨types, rfl⟩ := addType_eq_ok ha
  have hpush : ({ t with typeDefs := t.typeDefs.push d } : ScopeTable).Closed := by
    refine ⟨h.parent, h.imports, fun i e he => ?_⟩
    rw [Array.getElem?_push] at he
    split at he
    · exact Option.some.inj he ▸ hd
    · exact h.typeDefs i e he
  exact hpush.modify scope (fun _ => rfl) fun s hs => hpush.imports _ s hs

theorem Closed.modifyTypeDef (h : t.Closed) (id : TypeDefId) {f : TypeDef → TypeDef}
    (hf : ∀ d, (f d).scope = d.scope) : (t.modifyTypeDef id f).Closed := by
  refine ⟨h.parent, h.imports, fun i d hd => ?_⟩
  simp only [ScopeTable.modifyTypeDef, Array.getElem?_modify] at hd
  split at hd
  · obtain ⟨old, ho, rfl⟩ := Option.map_eq_some_iff.mp hd
    exact hf old ▸ h.typeDefs i old ho
  · exact h.typeDefs i d hd

theorem Closed.addScope (h : t.Closed) (kind : ScopeKind) {parent : Option ScopeId}
    (hp : ∀ p, parent = some p → t.Has p) : (t.addScope kind parent).2.Closed := by
  have hhas : ∀ {e}, t.Has e → (t.addScope kind parent).2.Has e :=
    fun he => he.mono (by simp)
  have hentry : ∀ (i : Nat) scope, (t.addScope kind parent).2.scopes[i]? = some scope →
      t.scopes[i]? = some scope ∨ scope = ⟨kind, parent, [], [], []⟩ := by
    intro i scope hs
    simp only [ScopeTable.addScope, Array.getElem?_push] at hs
    split at hs
    · exact .inr (Option.some.inj hs).symm
    · exact .inl hs
  refine ⟨fun i scope hs p hp' => hhas ?_, fun i scope hs e he => hhas ?_,
    fun i d hd => hhas (h.typeDefs i d hd)⟩
  · rcases hentry i scope hs with hs | rfl
    · exact h.parent i scope hs p hp'
    · exact hp p hp'
  · rcases hentry i scope hs with hs | rfl
    · exact h.imports i scope hs e he
    · simp at he

theorem exists_addImport_eq_ok {layer : ScopeId} (h : t.Has layer) (exported : ScopeId) :
    ∃ t', t.addImport layer exported = .ok t' := by
  obtain ⟨scope, -, hf⟩ := find_eq_ok h
  simp only [addImport, hf, bind, Except.bind, pure, Except.pure]
  split
  · exact ⟨_, rfl⟩
  · exact ⟨_, rfl⟩

theorem exists_addImport (h : t.Closed) {layer exported : ScopeId} (hl : t.Has layer)
    (he : t.Has exported) : ∃ t', t.addImport layer exported = .ok t' ∧ t'.Closed ∧
      t'.scopes.size = t.scopes.size ∧ t'.typeDefs = t.typeDefs := by
  obtain ⟨t', ha⟩ := exists_addImport_eq_ok hl exported
  refine ⟨t', ha, ?_⟩
  obtain ⟨-, ⟨-, rfl⟩ | rfl⟩ := addImport_eq_ok ha
  · exact ⟨h, rfl, rfl⟩
  · refine ⟨h.modify layer (fun _ => rfl) ?_, size_modify .., rfl⟩
    intro old ho e hm
    rw [get, ho] at hm
    rcases List.mem_append.mp hm with hm | hm
    · exact h.imports _ old ho e hm
    · exact List.mem_singleton.mp hm ▸ he

end ScopeTable
end BlockLang
