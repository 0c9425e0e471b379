import BlockLang.Proofs.Scope.Declare
import BlockLang.Proofs.Token.Word
import BlockLang.Session.Basic

/-!
# Operators mean built-ins

In a new session the symbol of an operator stands for built-ins only. It stays so, since
what a module declares has a word for a name.
-/

namespace BlockLang

/-- Every declaration of an operator is that of a built-in. -/
def Session.Operators (s : Session) : Prop :=
  ∀ scope id name, IsOperator name → id ∈ (s.scopes.get scope).declsOf name →
    ∃ op, (s.decl id).kind = .builtin op

namespace Session.Operators

variable {s s' : Session}

theorem mono (h : s.Operators)
    (hs : ∀ scope name, IsOperator name →
      (s'.scopes.get scope).declsOf name ⊆ (s.scopes.get scope).declsOf name)
    (hd : ∀ id op, (s.decl id).kind = .builtin op → (s'.decl id).kind = .builtin op) :
    s'.Operators := by
  intro scope id name hname hid
  obtain ⟨op, hop⟩ := h scope id name hname (hs scope name hname hid)
  exact ⟨op, hd id op hop⟩

theorem congr (h : s.Operators) (hs : s'.scopes.scopes = s.scopes.scopes)
    (hd : ∀ id, (s'.decl id).kind = (s.decl id).kind) : s'.Operators := by
  refine h.mono (fun scope name _ => ?_) fun id op hop => (hd id).trans hop
  simp only [ScopeTable.get, hs]
  exact List.Subset.refl _

/-- A new declaration is none of the old ones. -/
theorem kind_addDecl {id : DeclId} {op : Builtin} (d : Decl)
    (h : (s.decl id).kind = .builtin op) : ((s.addDecl d).2.decl id).kind = .builtin op := by
  have hlt : id.index < s.decls.size := by
    rcases Nat.lt_or_ge id.index s.decls.size with hlt | hge
    · exact hlt
    · have hdefault : s.decl id = default := by
        simp [Session.decl, Array.getElem?_eq_none hge]
      rw [hdefault] at h
      cases h
  simp only [Session.decl, Session.addDecl, Array.getElem?_push_lt hlt]
  simpa only [Session.decl, Array.getElem?_eq_getElem hlt] using h

theorem addDecl (h : s.Operators) (d : Decl) : (s.addDecl d).2.Operators :=
  h.mono (fun _ _ _ => List.Subset.refl _) fun _ _ hop => kind_addDecl d hop

/-- A word is declared, or else a built-in. -/
theorem addVar {name : String} {scopes : ScopeTable} {id : DeclId} (h : s.Operators)
    (hw : IsWord name ∨ ∃ op, (s.decl id).kind = .builtin op)
    (ha : s.scopes.addVar scope name id ov = .ok scopes) : Operators { s with scopes } := by
  intro place other symbol hs hother
  rcases ScopeTable.mem_declsOf_addVar ha hother with hold | ⟨-, rfl, rfl⟩
  · exact h place other symbol hs hold
  · exact hw.elim (fun hw => absurd hs hw.not_isOperator) fun hop => hop

theorem addScope (h : s.Operators) (kind : ScopeKind) (parent : Option ScopeId) :
    Operators { s with scopes := (s.scopes.addScope kind parent).2 } := by
  refine h.mono (fun scope name _ id hid => ?_) fun _ _ hop => hop
  simp only [ScopeTable.get, ScopeTable.addScope, Array.getElem?_push] at hid
  split at hid
  · simp [Scope.declsOf] at hid
  · exact hid

/-- A scope may change, but not in what it declares. -/
theorem modify (h : s.Operators) (id : ScopeId) {f : Scope → Scope}
    (hf : ∀ scope, (f scope).vars = scope.vars) (scopes : ScopeTable)
    (hs : scopes.scopes = (s.scopes.modify id f).scopes) : Operators { s with scopes } := by
  refine h.mono (fun scope name _ => ?_) fun _ _ hop => hop
  have hget : scopes.get scope = (s.scopes.modify id f).get scope := by simp [ScopeTable.get, hs]
  simp only [hget]
  rcases ScopeTable.get_modify_cases s.scopes id scope f with he | ⟨-, he⟩
  · rw [he]
    exact List.Subset.refl _
  · rw [he, Scope.declsOf, hf]
    exact List.Subset.refl _

theorem addType {d : TypeDef} {id : TypeDefId} {scopes : ScopeTable} (h : s.Operators)
    (ha : s.scopes.addType scope d = .ok (id, scopes)) : Operators { s with scopes } := by
  obtain ⟨types, rfl⟩ := ScopeTable.addType_eq_ok ha
  exact h.modify scope (f := ({ · with types })) (fun _ => rfl) _ rfl

theorem addImport {layer exported : ScopeId} {scopes : ScopeTable} (h : s.Operators)
    (ha : s.scopes.addImport layer exported = .ok scopes) : Operators { s with scopes } := by
  obtain ⟨-, ⟨-, rfl⟩ | rfl⟩ := ScopeTable.addImport_eq_ok ha
  · exact h
  · exact h.modify layer
      (f := fun scope => { scope with imports := (s.scopes.get layer).imports ++ [exported] })
      (fun _ => rfl) _ rfl

theorem definePrimitive (h : s.Operators) (p : Primitive) : (s.definePrimitive p).Operators := by
  unfold Session.definePrimitive
  dsimp only
  split
  · rename_i hadd
    exact h.addType hadd
  · exact h

theorem declareBuiltin (h : s.Operators) (op : Builtin) : (s.declareBuiltin op).Operators := by
  have h' : ∀ types d, (({ s with types }).addDecl d).2.Operators := fun types d =>
    addDecl (s := { s with types }) h d
  unfold Session.declareBuiltin
  dsimp only
  split
  · rename_i hadd
    refine (h' _ _).addVar (.inr ⟨op, ?_⟩) hadd
    simp [Session.decl, Session.addDecl, Decl.new]
  · exact h' _ _

end Session.Operators

theorem Session.operators_new (entrySymbol : String) : (Session.new entrySymbol).Operators := by
  refine List.foldlRecOn _ _ (List.foldlRecOn _ _ ?_ fun s h p _ => h.definePrimitive p)
    fun s h op _ => h.declareBuiltin op
  have hvars : ∀ scope, ((ScopeTable.empty.addScope .universal none).2.get scope).vars = [] := by
    rintro ⟨_ | i⟩
    · rfl
    · simp only [ScopeTable.get, ScopeTable.addScope, Array.getElem?_push]
      rfl
  intro scope id name _ hid
  have hnone : ((ScopeTable.empty.addScope .universal none).2.get scope).declsOf name = [] := by
    simp [Scope.declsOf, hvars]
  exact absurd (hnone ▸ hid : id ∈ []) List.not_mem_nil

end BlockLang
