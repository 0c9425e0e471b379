import BlockLang.Proofs.Session.Builtins
import BlockLang.Proofs.Session.Scoped

/-!
# Equipped sessions

In an equipped session every scope that is named is there, the types belong together and the
operators are those of a new session. Reading a module keeps a session equipped, whatever the
module declares.
-/

namespace BlockLang

namespace Session

variable {s s' : Session} {ops : List Builtin}

/-- Built-ins are declared before anything else. -/
theorem HasBuiltins.lt_size (h : s.HasBuiltins ops) {i : Nat} {op : Builtin}
    (hop : ops[i]? = some op) : i < s.decls.size := by
  obtain ⟨signature, parameters, hbuiltin⟩ := h.builtin i op hop
  by_contra hge
  have hkind := hbuiltin.kind
  simp only [decl, Array.getElem?_eq_none (Nat.not_lt.mp hge)] at hkind
  cases hkind

theorem HasBuiltins.addDecl (h : s.HasBuiltins ops) (d : Decl) :
    (s.addDecl d).2.HasBuiltins ops := by
  refine h.mono h.scopes rfl h.inner (fun _ _ _ => rfl) (fun i op hop => ?_) (.refl _)
  exact (decl_addDecl s d ⟨i⟩).trans (if_neg (Nat.ne_of_lt (h.lt_size hop)))

/-- A word is declared. -/
theorem HasBuiltins.addVar (h : s.HasBuiltins ops) {scope : ScopeId} {name : String}
    {id : DeclId} {overloadable : Bool} {scopes : ScopeTable} (hw : IsWord name)
    (ha : s.scopes.addVar scope name id overloadable = .ok scopes) :
    HasBuiltins { s with scopes } ops := by
  refine h.withScopes (h.scopes.addVar ha) (ScopeTable.size_addVar ha) (fun place => ?_)
    fun place other hother => ?_
  · rcases ScopeTable.get_addVar ha place with hget | ⟨-, vars, hget⟩ <;> rw [hget]
  · have hne : other ≠ name := by
      rintro rfl
      exact hw.not_isOperator hother
    rw [Scope.declsOf, Scope.declsOf, ScopeTable.lookup_addVar ha (.inr hne)]

theorem HasBuiltins.addScope (h : s.HasBuiltins ops) (kind : ScopeKind) {parent : ScopeId}
    (hp : s.scopes.Has parent) :
    HasBuiltins { s with scopes := (s.scopes.addScope kind (some parent)).2 } ops := by
  have hget := s.scopes.get_addScope kind (some parent)
  refine h.mono (h.scopes.addScope kind fun p hp' => Option.some.inj hp' ▸ hp) rfl
    (fun scope hscope hne => ?_) (fun scope name _ => ?_) (fun _ _ _ => rfl) (.refl _)
  · dsimp only at hscope ⊢
    rw [hget]
    split
    · exact ⟨parent, rfl⟩
    · next hold =>
      refine h.inner scope (Nat.lt_of_le_of_ne (Nat.le_of_lt_succ ?_) hold) hne
      simpa [ScopeTable.Has] using hscope
  · dsimp only
    rw [hget]
    split
    · next hnew =>
      have hnone : s.scopes.scopes[scope.index]? = none :=
        Array.getElem?_eq_none (Nat.le_of_eq hnew.symm)
      rw [ScopeTable.get_eq_default hnone]
      rfl
    · rfl

theorem HasBuiltins.addModule (h : s.HasBuiltins ops) (hu : s.scopes.Has s.universal)
    (name path source : String) : (s.addModule name path source).2.HasBuiltins ops := by
  have hhas (t : ScopeTable) (kind : ScopeKind) (parent : Option ScopeId) :
      (t.addScope kind parent).2.Has ⟨t.scopes.size⟩ := by simp [ScopeTable.Has]
  have h₁ := h.addScope .publicImport hu
  have h₂ := h₁.addScope .publicLayer (hhas s.scopes _ _)
  have h₃ := h₂.addScope .privateImport (hhas _ _ _)
  exact (h₃.addScope .privateLayer (hhas _ _ _)).congr rfl rfl rfl (.refl _)

/-- What every session has that starts new and reads modules. -/
structure Equipped (s : Session) : Prop where
  inScope : s.Scoped
  types : s.types.Built
  builtins : s.Builtins

theorem equipped_new (entrySymbol : String) : (Session.new entrySymbol).Equipped :=
  ⟨scoped_new entrySymbol, (declaring_new entrySymbol).types, builtins_new entrySymbol⟩

end Session

/-- Reading has a place to stand in an equipped session. -/
structure ReadingEquipped (depth : Nat) (c : Cursor) (s : Session) : Prop where
  reading : Reading depth c s
  types : s.types.Built
  builtins : s.Builtins

/-- Reading keeps a session equipped. -/
theorem keeps_equipped : Adds.Keeps IsWord ReadingEquipped where
  depth := fun n c s h => h.reading.depth
  name := fun n c s h => keeps_reading.name n c s h.reading
  cursor := fun n c c' s h hc => ⟨keeps_reading.cursor n c c' s h.reading hc, h.types, h.builtins⟩
  leave := fun n c s h => ⟨keeps_reading.leave n c s h.reading, h.types, h.builtins⟩
  enter := fun n c s kind h => ⟨keeps_reading.enter n c s kind h.reading, h.types,
    h.builtins.addScope kind h.reading.scope⟩
  tree := by
    intro n c s s' h hg
    have hreading := keeps_reading.tree n c s s' h.reading hg
    rw [hg.rest] at hreading ⊢
    exact ⟨hreading, h.types, h.builtins.congr rfl rfl rfl (.refl _)⟩
  decl := fun n c s name kind scope position h hw hk =>
    ⟨keeps_reading.decl n c s name kind scope position h.reading hw hk, h.types,
      h.builtins.addDecl _⟩
  declare := fun n c s name kind scope position overloadable scopes h hw hk ha =>
    ⟨keeps_reading.declare n c s name kind scope position overloadable scopes h.reading hw hk ha,
      h.types, (h.builtins.addDecl _).addVar hw ha⟩
  typeDef := fun n c s scope name params body position id scopes h ha =>
    ⟨keeps_reading.typeDef n c s scope name params body position id scopes h.reading ha, h.types,
      h.builtins.addType ha⟩
  listType := fun n c s length h => by
    have hint : ∀ id ∈ [Primitive.int8.typeId], s.types.Has id := by
      simpa using h.types.has_typeId .int8
    exact ⟨keeps_reading.listType n c s length h.reading,
      h.types.request (.list Primitive.int8.typeId length) hint,
      h.builtins.congr rfl rfl rfl (s.types.extends_intern _)⟩
  literal := fun n c s id type value h hid hv =>
    ⟨keeps_reading.literal n c s id type value h.reading hid hv, h.types,
      h.builtins.congr rfl rfl rfl (.refl _)⟩

end BlockLang
