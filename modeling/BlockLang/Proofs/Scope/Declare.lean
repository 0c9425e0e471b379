import BlockLang.Proofs.Scope.Closed

/-!
# Declaring names

A scope that takes a declaration has it under its name, and leaves other names and other
scopes alone.
-/

namespace BlockLang

namespace ScopeTable

variable {t t' : ScopeTable}

theorem get_modify_cases (t : ScopeTable) (id scope : ScopeId) (f : Scope → Scope) :
    (t.modify id f).get scope = t.get scope ∨
      scope = id ∧ (t.modify id f).get scope = f (t.get scope) := by
  simp only [ScopeTable.get, ScopeTable.modify, Array.getElem?_modify]
  split
  · next hi =>
    cases hs : t.scopes[scope.index]? with
    | none => exact .inl rfl
    | some old =>
      obtain ⟨i⟩ := id
      obtain ⟨j⟩ := scope
      obtain rfl : i = j := hi
      exact .inr ⟨rfl, rfl⟩
  · exact .inl rfl

theorem get_modify_self {id : ScopeId} (h : t.Has id) (f : Scope → Scope) :
    (t.modify id f).get id = f (t.get id) := by
  obtain ⟨scope, hscope, -⟩ := find_eq_ok h
  simp [ScopeTable.get, ScopeTable.modify, Array.getElem?_modify, hscope]

theorem get_addVar {scope : ScopeId} {decl : DeclId}
    (h : t.addVar scope name decl ov = .ok t') (id : ScopeId) :
    t'.get id = t.get id ∨ id = scope ∧ ∃ vars, t'.get id = { t.get id with vars } := by
  obtain ⟨old, vars, -, -, rfl⟩ := addVar_eq_ok h
  exact (get_modify_cases t scope id _).imp_right fun ⟨hid, hget⟩ => ⟨hid, vars, hget⟩

theorem get_addType {scope : ScopeId} {d : TypeDef} {typeDef : TypeDefId}
    (h : t.addType scope d = .ok (typeDef, t')) (id : ScopeId) :
    ∃ types, t'.get id = { t.get id with types } := by
  obtain ⟨types, rfl⟩ := addType_eq_ok h
  rcases get_modify_cases { t with typeDefs := t.typeDefs.push d } scope id
    ({ · with types }) with hget | ⟨-, hget⟩
  · exact ⟨_, hget⟩
  · exact ⟨_, hget⟩

theorem get_addImport {layer exported : ScopeId} (h : t.addImport layer exported = .ok t')
    (id : ScopeId) : ∃ imports, t'.get id = { t.get id with imports } := by
  obtain ⟨-, ⟨-, rfl⟩ | rfl⟩ := addImport_eq_ok h
  · exact ⟨_, rfl⟩
  · rcases get_modify_cases t layer id
      ({ · with imports := (t.get layer).imports ++ [exported] }) with hget | ⟨-, hget⟩
    · exact ⟨_, hget⟩
    · exact ⟨_, hget⟩

/-- A layer has one import more, and no other scope has. -/
theorem mem_imports_addImport {layer exported place e : ScopeId}
    (h : t.addImport layer exported = .ok t') :
    e ∈ (t'.get place).imports ↔ e ∈ (t.get place).imports ∨ place = layer ∧ e = exported := by
  obtain ⟨hlayer, ⟨hmem, rfl⟩ | rfl⟩ := addImport_eq_ok h
  · refine ⟨.inl, ?_⟩
    rintro (he | ⟨rfl, rfl⟩)
    · exact he
    · exact hmem
  · by_cases hplace : place = layer
    · subst hplace
      rw [get_modify_self hlayer]
      simp
    · rcases get_modify_cases t layer place
        ({ · with imports := (t.get layer).imports ++ [exported] }) with hget | ⟨hget, -⟩
      · simp [hget, hplace]
      · contradiction

/-- The entry of `name` gets another meaning, wherever it is. -/
theorem lookup_map_of_ne {vars : List (String × VarDef)} (new : VarDef) (hne : other ≠ name) :
    (vars.map fun (key, old) => if key = name then (key, new) else (key, old)).lookup other =
      vars.lookup other := by
  have hne' : (other == name) = false := beq_false_of_ne hne
  induction vars with
  | nil => rfl
  | cons entry vars ih =>
    obtain ⟨key, old⟩ := entry
    by_cases hk : key = name
    · subst hk
      simp only [List.map_cons, if_true, List.lookup_cons, hne', ih]
    · simp only [List.map_cons, hk, if_false, List.lookup_cons, ih]

theorem lookup_declare_of_ne {vars vars' : List (String × VarDef)}
    (h : declare vars name decl ov = .ok vars') (hne : other ≠ name) :
    vars'.lookup other = vars.lookup other := by
  unfold declare at h
  split at h
  · obtain rfl := Except.ok.inj h
    rw [List.lookup_cons, beq_false_of_ne hne]
  · split at h
    · obtain rfl := Except.ok.inj h
      exact lookup_map_of_ne _ hne
    · cases h
  · cases h

theorem lookup_map_self {vars : List (String × VarDef)} {old : VarDef} (new : VarDef)
    (h : vars.lookup name = some old) : (vars.map fun (key, old) =>
      if key = name then (key, new) else (key, old)).lookup name = some new := by
  induction vars with
  | nil => cases h
  | cons entry vars ih =>
    obtain ⟨key, first⟩ := entry
    by_cases hk : key = name
    · subst hk
      simp
    · have hk' : (name == key) = false := beq_false_of_ne (Ne.symm hk)
      rw [List.lookup_cons, hk'] at h
      simp only [List.map_cons, hk, if_false, List.lookup_cons, hk']
      exact ih h

theorem mem_declare {vars vars' : List (String × VarDef)}
    (h : declare vars name decl ov = .ok vars')
    (hx : x ∈ ((vars'.lookup name).map VarDef.decls).getD []) :
    x ∈ ((vars.lookup name).map VarDef.decls).getD [] ∨ x = decl := by
  unfold declare at h
  split at h
  · obtain rfl := Except.ok.inj h
    rw [List.lookup_cons, beq_self_eq_true] at hx
    cases ov <;> exact .inr (by simpa [VarDef.decls] using hx)
  · next group hgroup =>
    split at h
    · obtain rfl := Except.ok.inj h
      rw [lookup_map_self _ hgroup] at hx
      rw [hgroup]
      simpa [VarDef.decls] using hx
    · cases h
  · cases h

/-- A name that was declared stands for something. -/
theorem decls_ne_nil_of_declare {vars vars' : List (String × VarDef)} {var : VarDef}
    (h : declare vars name decl ov = .ok vars') (hvar : vars'.lookup name = some var) :
    var.decls ≠ [] := by
  unfold declare at h
  split at h
  · obtain rfl := Except.ok.inj h
    rw [List.lookup_cons, beq_self_eq_true] at hvar
    obtain rfl := Option.some.inj hvar
    cases ov <;> simp [VarDef.decls]
  · next group hgroup =>
    split at h
    · obtain rfl := Except.ok.inj h
      rw [lookup_map_self _ hgroup] at hvar
      obtain rfl := Option.some.inj hvar
      simp [VarDef.decls]
    · cases h
  · cases h

/-- A name that is free or stands for a group takes one function more. -/
theorem declare_overloadable {vars : List (String × VarDef)} (decl : DeclId)
    (h : ∀ var, vars.lookup name = some var → ∃ group, var = .overloads group) :
    ∃ vars', declare vars name decl true = .ok vars' ∧ vars'.lookup name =
      some (.overloads (((vars.lookup name).map VarDef.decls).getD [] ++ [decl])) := by
  unfold declare
  cases hvar : vars.lookup name with
  | none => exact ⟨_, rfl, by simp⟩
  | some var =>
    obtain ⟨group, rfl⟩ := h var hvar
    exact ⟨_, rfl, lookup_map_self _ hvar⟩

theorem exists_addVar {scope : ScopeId} (hs : t.Has scope) (decl : DeclId)
    (h : ∀ var, (t.get scope).vars.lookup name = some var → ∃ group, var = .overloads group) :
    ∃ t', t.addVar scope name decl true = .ok t' ∧ (t'.get scope).vars.lookup name =
      some (.overloads ((t.get scope).declsOf name ++ [decl])) := by
  obtain ⟨old, hold, hfind⟩ := find_eq_ok hs
  have hget : t.get scope = old := by simp [ScopeTable.get, hold]
  rw [hget] at h ⊢
  obtain ⟨vars, hdeclare, hlookup⟩ := declare_overloadable decl h
  refine ⟨t.modify scope ({ · with vars }), ?_, ?_⟩
  · rw [addVar, hfind, bind_mapError_ok, hdeclare, bind_mapError_ok]
    rfl
  · rw [get_modify_self hs]
    exact hlookup

/-- A declaration leaves the meaning of other names and other scopes alone. -/
theorem lookup_addVar {place : ScopeId} (h : t.addVar scope name decl ov = .ok t')
    (hne : place ≠ scope ∨ other ≠ name) :
    (t'.get place).vars.lookup other = (t.get place).vars.lookup other := by
  obtain ⟨old, vars, hold, hd, rfl⟩ := addVar_eq_ok h
  rcases get_modify_cases t scope place ({ · with vars }) with hs | ⟨rfl, hs⟩
  · rw [hs]
  · have hget : t.get place = old := by simp [ScopeTable.get, hold]
    rw [hs, hget]
    exact lookup_declare_of_ne hd (hne.resolve_left fun hp => hp rfl)

/-- A declaration leaves other names and other scopes alone. -/
theorem mem_declsOf_addVar {place : ScopeId} (h : t.addVar scope name decl ov = .ok t')
    (hx : x ∈ (t'.get place).declsOf other) :
    x ∈ (t.get place).declsOf other ∨ place = scope ∧ other = name ∧ x = decl := by
  obtain ⟨old, vars, hold, hd, rfl⟩ := addVar_eq_ok h
  rcases get_modify_cases t scope place ({ · with vars }) with hs | ⟨rfl, hs⟩
  · exact .inl (hs ▸ hx)
  · have hget : t.get place = old := by simp [ScopeTable.get, hold]
    rw [hs] at hx
    rw [hget]
    by_cases hne : other = name
    · subst hne
      exact (mem_declare hd hx).imp_right fun hx => ⟨rfl, rfl, hx⟩
    · rw [Scope.declsOf, lookup_declare_of_ne hd hne] at hx
      exact .inl hx

end ScopeTable

end BlockLang
