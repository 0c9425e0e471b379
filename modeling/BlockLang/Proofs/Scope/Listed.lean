import BlockLang.Proofs.Scope.Look

/-!
# Definitions that names stand for

In a listed table every name of a type stands for a definition of the table. A lookup finds
what some scope of the table says (`Yields`), and so a definition that is there.
-/

namespace BlockLang

namespace Look

variable {scopes : Array Scope} {I : β → Prop}

/-- Over the scopes `scopes`, what `m` has found in the end is as `I` says if it was so at first. -/
def Yields (scopes : Array Scope) (I : β → Prop) (m : Look β α) : Prop :=
  ∀ sight r, sight.table.scopes = scopes → I sight.found → m.run sight = .ok r →
    r.2.table.scopes = scopes ∧ I r.2.found

theorem Yields.pure (a : α) : Yields scopes I (Pure.pure a : Look β α) := by
  rintro sight r hscopes hi hr
  obtain rfl : (a, sight) = r := Except.ok.inj hr
  exact ⟨hscopes, hi⟩

theorem Yields.bind {m : Look β α} {f : α → Look β γ} (h : Yields scopes I m)
    (hf : ∀ a, Yields scopes I (f a)) : Yields scopes I (m >>= f) := by
  intro sight r hscopes hi hr
  rw [StateT.run_bind] at hr
  cases hm : m.run sight with
  | error fault =>
    rw [hm] at hr
    cases hr
  | ok r' =>
    rw [hm] at hr
    obtain ⟨hscopes', hi'⟩ := h sight r' hscopes hi hm
    exact hf r'.1 r'.2 r hscopes' hi' hr

theorem Yields.get {f : Sight β → Look β α} (h : ∀ sight, Yields scopes I (f sight)) :
    Yields scopes I (MonadState.get >>= f) :=
  .bind (fun sight r hscopes hi hr => by
    obtain rfl : (sight, sight) = r := Except.ok.inj hr
    exact ⟨hscopes, hi⟩) h

theorem Yields.orElse {m m' : Look β Bool} (h : Yields scopes I m) (h' : Yields scopes I m') :
    Yields scopes I (m <||> m') := by
  refine h.bind fun enough => ?_
  cases enough with
  | true => exact .pure true
  | false => exact h'

theorem Yields.anyM {f : α → Look β Bool} (h : ∀ a, Yields scopes I (f a)) (as : List α) :
    Yields scopes I (as.anyM f) := by
  induction as with
  | nil => exact .pure false
  | cons a as ih =>
    rw [anyM_cons]
    exact (h a).orElse ih

/-- A scope that is looked at is one of the table. -/
theorem Yields.scopeOf {f : Scope → Look β α} (id : ScopeId)
    (h : ∀ scope ∈ scopes, Yields scopes I (f scope)) :
    Yields scopes I (Look.scopeOf id >>= f) := by
  intro sight r hscopes hi hr
  have hscope : (Look.scopeOf id : Look β Scope).run sight =
      (sight.table.find id).map (·, sight) := by
    cases hfind : sight.table.find id <;> simp [Look.scopeOf, hfind] <;> rfl
  rw [StateT.run_bind, hscope] at hr
  cases hfind : sight.table.find id with
  | error fault =>
    rw [hfind] at hr
    cases hr
  | ok scope =>
    rw [hfind] at hr
    have hmem := Array.mem_of_getElem? (entry_eq_ok_iff.mp hfind)
    exact h scope (hscopes ▸ hmem) sight r hscopes hi hr

theorem yields_enter {look : ScopeId → Look β Bool} (h : ∀ id, Yields scopes I (look id))
    (id : ScopeId) : Yields scopes I (enter look id) := by
  have hmark : ∀ visiting, Yields scopes I (mark id visiting : Look β Unit) := by
    intro visiting sight r hscopes hi hr
    obtain rfl := Except.ok.inj hr
    exact ⟨hscopes, hi⟩
  refine .scopeOf id fun _ _ => .get fun sight => ?_
  split
  · exact .pure false
  · exact (hmark true).bind fun _ => (h id).bind fun enough =>
      (hmark false).bind fun _ => .pure enough

theorem yields_within {visit : Visit β}
    (hv : ∀ scope ∈ scopes, ∀ found, I found → I (visit scope found).1) (depth : Nat)
    (universal : Bool) (start : ScopeId) :
    Yields scopes I (within visit depth universal start) := by
  induction depth generalizing universal start with
  | zero => exact .pure false
  | succ depth ih =>
    have hfinish : Yields scopes I (finish start : Look β Bool) := by
      intro sight r hscopes hi hr
      obtain rfl := Except.ok.inj hr
      exact ⟨hscopes, hi⟩
    refine .scopeOf start fun scope hscope => ?_
    have hoffer : Yields scopes I (offer visit scope) := by
      intro sight r hscopes hi hr
      obtain rfl := Except.ok.inj hr
      exact ⟨hscopes, hv scope hscope sight.found hi⟩
    have hlook : Yields scopes I (offer visit scope
        <||> scope.imports.anyM (enter (within visit depth false))
        <||> scope.parent.elim (Pure.pure false) (within visit depth universal)
        <||> if universal then Pure.pure false else finish start) := by
      refine hoffer.orElse ((Yields.anyM (yields_enter (ih false)) _).orElse (Yields.orElse ?_ ?_))
      · cases scope.parent with
        | none => exact .pure false
        | some parent => exact ih universal parent
      · cases universal with
        | true => exact .pure false
        | false => exact hfinish
    cases universal with
    | true => exact hlook
    | false =>
      have hpassed : Yields scopes I (isPassed scope start : Look β Bool) := .get fun _ => .pure _
      refine hpassed.bind fun passed => ?_
      cases passed with
      | true => exact .pure false
      | false => exact hlook

end Look

namespace ScopeTable

variable {t : ScopeTable} {start : ScopeId} {name : String} {id : TypeDefId}

/-- A definition that is found is what some scope says. -/
theorem exists_scope_of_findType? (h : t.findType? start name = .ok (some id)) :
    ∃ scope ∈ t.scopes, scope.types.lookup name = some id := by
  let I : Option TypeDefId → Prop := fun found =>
    ∀ id, found = some id → ∃ scope ∈ t.scopes, scope.types.lookup name = some id
  have hyields : Look.Yields t.scopes I
      (Look.within (takeFirst (·.types.lookup name)) t.depth true start) :=
    Look.yields_within (fun scope hscope _ _ id hid => ⟨scope, hscope, hid⟩) _ _ _
  unfold findType? first? look at h
  cases hrun : (Look.within (takeFirst (·.types.lookup name)) t.depth true start).run
      ⟨t, [], none⟩ with
  | error fault =>
    simp only [hrun] at h
    cases h
  | ok r =>
    simp only [hrun] at h
    obtain ⟨-, hi⟩ := hyields _ r rfl (fun _ hnone => by cases hnone) hrun
    exact hi id (Except.ok.inj h)

/-- Every name of a type stands for a definition of the table. -/
def Listed (t : ScopeTable) : Prop :=
  ∀ scope ∈ t.scopes, ∀ name id, scope.types.lookup name = some id → id.index < t.typeDefs.size

theorem Listed.findType? (h : t.Listed) (hf : t.findType? start name = .ok (some id)) :
    id.index < t.typeDefs.size := by
  obtain ⟨scope, hscope, hid⟩ := exists_scope_of_findType? hf
  exact h scope hscope name id hid

/-- A scope may change as long as its names of types stand for definitions. -/
theorem Listed.modify (h : t.Listed) (id : ScopeId) {f : Scope → Scope}
    (hf : ∀ scope ∈ t.scopes, ∀ name d, (f scope).types.lookup name = some d →
      d.index < t.typeDefs.size) : (t.modify id f).Listed := by
  intro scope hscope
  obtain ⟨i, hi⟩ := Array.getElem?_of_mem hscope
  simp only [ScopeTable.modify, Array.getElem?_modify] at hi
  split at hi
  · obtain ⟨old, hold, rfl⟩ := Option.map_eq_some_iff.mp hi
    exact hf old (Array.mem_of_getElem? hold)
  · exact h scope (Array.mem_of_getElem? hi)

theorem Listed.addScope (h : t.Listed) (kind : ScopeKind) (parent : Option ScopeId) :
    (t.addScope kind parent).2.Listed := by
  intro scope hscope name id hid
  rcases Array.mem_push.mp hscope with hscope | rfl
  · exact h scope hscope name id hid
  · cases hid

theorem Listed.addVar {u : ScopeTable} {scope : ScopeId} {decl : DeclId} {overloadable : Bool}
    (h : t.Listed) (ha : t.addVar scope name decl overloadable = .ok u) : u.Listed := by
  obtain ⟨_, _, -, -, rfl⟩ := addVar_eq_ok ha
  exact h.modify scope h

theorem Listed.addImport {u : ScopeTable} {layer exported : ScopeId} (h : t.Listed)
    (ha : t.addImport layer exported = .ok u) : u.Listed := by
  obtain ⟨-, ⟨-, rfl⟩ | rfl⟩ := addImport_eq_ok ha
  · exact h
  · exact h.modify layer h

/-- The name of a new definition stands for it. -/
theorem Listed.addType {u : ScopeTable} {scope : ScopeId} {d : TypeDef} (h : t.Listed)
    (ha : t.addType scope d = .ok (id, u)) : u.Listed := by
  obtain ⟨old, hold, ha⟩ := bind_mapError_eq_ok ha
  dsimp only at ha
  split at ha
  · cases ha
  · obtain rfl := congrArg Prod.snd (Except.ok.inj ha)
    have hpush : Listed { t with typeDefs := t.typeDefs.push d } := by
      intro scope hscope name id hid
      exact Nat.lt_of_lt_of_le (h scope hscope name id hid) (by simp)
    refine hpush.modify scope fun _ _ name other hother => ?_
    rw [List.lookup_cons] at hother
    split at hother
    · obtain rfl := Option.some.inj hother
      simp
    · exact hpush old (Array.mem_of_getElem? (entry_eq_ok_iff.mp hold)) name other hother

theorem Listed.modifyTypeDef (h : t.Listed) (id : TypeDefId) (f : TypeDef → TypeDef) :
    (t.modifyTypeDef id f).Listed := by
  intro scope hscope name other hother
  simpa [ScopeTable.modifyTypeDef] using h scope hscope name other hother

end ScopeTable
end BlockLang
