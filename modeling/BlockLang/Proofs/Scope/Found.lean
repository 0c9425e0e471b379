import BlockLang.Proofs.Scope.Declare
import BlockLang.Proofs.Scope.Visible

/-!
# What lookups find

A lookup for declarations goes through the scopes it shows and keeps each declaration
once; a lookup for the nearest meaning stops at the first scope that has one. In a table
built from nothing, the declarations found are exactly those in sight, the nearest meaning
stands in front of them, and no scope is left marked (`Built.findVars_and_findVar?`).
-/

namespace BlockLang

namespace ScopeTable

/-! ## Keeping each declaration once -/

section Distinct

variable {α : Type} [DecidableEq α] {before before' xs ys : List α} {x : α}

theorem distinct_cons_of_mem (h : x ∈ before) :
    distinct before (x :: xs) = distinct before xs := by
  rw [distinct, if_pos (by simpa using h)]

theorem distinct_cons_of_not_mem (h : x ∉ before) :
    distinct before (x :: xs) = x :: distinct (x :: before) xs := by
  rw [distinct, if_neg (by simpa using h)]

theorem mem_distinct : x ∈ distinct before xs ↔ x ∈ xs ∧ x ∉ before := by
  induction xs generalizing before with
  | nil => simp [distinct]
  | cons y ys ih =>
    by_cases hy : y ∈ before
    · rw [distinct_cons_of_mem hy, ih, List.mem_cons]
      constructor
      · rintro ⟨hx, hb⟩
        exact ⟨.inr hx, hb⟩
      · rintro ⟨rfl | hx, hb⟩
        · contradiction
        · exact ⟨hx, hb⟩
    · rw [distinct_cons_of_not_mem hy, List.mem_cons, ih, List.mem_cons, List.mem_cons]
      constructor
      · rintro (rfl | ⟨hx, hb⟩)
        · exact ⟨.inl rfl, hy⟩
        · exact ⟨.inr hx, fun h => hb (.inr h)⟩
      · rintro ⟨hx, hb⟩
        by_cases hxy : x = y
        · exact .inl hxy
        · exact .inr ⟨hx.resolve_left hxy, fun h => h.elim hxy hb⟩

theorem nodup_distinct : (distinct before xs).Nodup := by
  induction xs generalizing before with
  | nil => exact .nil
  | cons y ys ih =>
    by_cases hy : y ∈ before
    · rw [distinct_cons_of_mem hy]
      exact ih
    · rw [distinct_cons_of_not_mem hy]
      exact List.nodup_cons.mpr ⟨fun h => (mem_distinct.mp h).2 List.mem_cons_self, ih⟩

theorem distinct_eq_nil : distinct [] xs = [] ↔ xs = [] := by
  simp only [List.eq_nil_iff_forall_not_mem, mem_distinct, List.not_mem_nil, not_false_eq_true,
    and_true]

theorem distinct_congr (h : ∀ x, x ∈ before ↔ x ∈ before') :
    distinct before xs = distinct before' xs := by
  induction xs generalizing before before' with
  | nil => rfl
  | cons y ys ih =>
    by_cases hy : y ∈ before
    · rw [distinct_cons_of_mem hy, distinct_cons_of_mem ((h y).mp hy), ih h]
    · have hcons : ∀ x, x ∈ y :: before ↔ x ∈ y :: before' := fun x => by
        simp only [List.mem_cons, h]
      rw [distinct_cons_of_not_mem hy, distinct_cons_of_not_mem (mt (h y).mpr hy), ih hcons]

theorem distinct_append : distinct before (xs ++ ys) =
    distinct before xs ++ distinct (before ++ distinct before xs) ys := by
  induction xs generalizing before with
  | nil => simp [distinct]
  | cons x xs ih =>
    rw [List.cons_append]
    by_cases hx : x ∈ before
    · rw [distinct_cons_of_mem hx, distinct_cons_of_mem hx, ih]
    · rw [distinct_cons_of_not_mem hx, distinct_cons_of_not_mem hx, ih, List.cons_append]
      congr 2
      exact distinct_congr fun y => by simp [or_left_comm]

end Distinct

/-! ## The two visitors -/

theorem offerAll_gather (name : String) (scopes : List Scope) (found : List DeclId) :
    offerAll (gather name) scopes found =
      (found ++ distinct found (scopes.flatMap (·.declsOf name)), false) := by
  induction scopes generalizing found with
  | nil => simp [offerAll, distinct]
  | cons scope scopes ih =>
    rw [List.flatMap_cons, distinct_append, ← List.append_assoc]
    exact ih _

theorem offerAll_takeFirst (f : Scope → Option α) (scopes : List Scope) :
    (offerAll (takeFirst f) scopes none).1 = scopes.findSome? f := by
  induction scopes with
  | nil => rfl
  | cons scope scopes ih =>
    cases hf : f scope with
    | none => simpa [offerAll, takeFirst, hf] using ih
    | some a => simp [offerAll, takeFirst, hf]

variable {t u : ScopeTable} {start : ScopeId} {seen : List ScopeId} {name : String}

theorem Shown.findVars (h : t.Shown start seen) (name : String) :
    t.findVars start name = .ok (distinct [] (seen.flatMap fun id => (t.get id).declsOf name)) := by
  rw [ScopeTable.findVars, h, offerAll_gather, List.flatMap_map]
  rfl

theorem Shown.first? (h : t.Shown start seen) (f : Scope → Option α) :
    t.first? f start = .ok (seen.findSome? fun id => f (t.get id)) := by
  rw [ScopeTable.first?, h, offerAll_takeFirst, List.findSome?_map]
  rfl

/-- A name stands for what the scope that is asked says first. -/
theorem findVar?_self {var : VarDef} (hs : t.Has start)
    (h : (t.get start).vars.lookup name = some var) : t.findVar? start name = .ok (some var) := by
  obtain ⟨d, hd⟩ : ∃ d, t.depth = d + 1 :=
    Nat.exists_eq_succ_of_ne_zero (Nat.mul_ne_zero (Nat.succ_ne_zero _) (Nat.succ_ne_zero _))
  obtain ⟨passed, hpassed⟩ : ∃ passed,
      (Look.isPassed (t.get start) start).run ⟨t, [], (none : Option VarDef)⟩ =
        .ok (passed, ⟨t, [], none⟩) := ⟨_, rfl⟩
  have hoffer : (Look.offer (takeFirst (·.vars.lookup name)) (t.get start)).run ⟨t, [], none⟩ =
      .ok (true, ⟨t, [], some var⟩) := by
    simp only [Look.offer, takeFirst, h, StateT.run_bind, StateT.run_get, pure_bind]
    rfl
  unfold findVar? first? look
  rw [hd, Look.within, Look.run_bind_ok (Look.scopeOf_run hs none)]
  simp only [Bool.not_true, Bool.false_and, Bool.false_eq_true, ↓reduceIte, orM]
  rw [Look.run_bind_ok hpassed, Look.run_bind_ok hoffer]
  rfl

theorem exists_findType? (ht : t.Closed) (hs : t.Has start) (name : String) :
    ∃ found, t.findType? start name = .ok found := by
  obtain ⟨seen, -, hshown, -⟩ := ht.linked.exists_shown hs
  exact ⟨_, hshown.first? _⟩

/-- Whatever is found has been declared under that name in some scope. -/
theorem exists_findVars (ht : t.Closed) (hs : t.Has start) (name : String) :
    ∃ found, t.findVars start name = .ok found ∧
      ∀ id ∈ found, ∃ scope, id ∈ (t.get scope).declsOf name := by
  obtain ⟨seen, -, hshown, -⟩ := ht.linked.exists_shown hs
  refine ⟨_, hshown.findVars name, fun id hid => ?_⟩
  obtain ⟨scope, -, hscope⟩ := List.mem_flatMap.mp (mem_distinct.mp hid).1
  exact ⟨scope, hscope⟩

/-! ## Tables built from nothing -/

/-- Built by changes with scopes that were handed out before; those that are refused change
nothing. -/
inductive Built : ScopeTable → Prop
  | empty : Built .empty
  | addScope {t : ScopeTable} (h : Built t) (kind : ScopeKind) (parent : Option ScopeId)
    (hp : ∀ p, parent = some p → t.Has p) : Built (t.addScope kind parent).2
  | addImport {t u : ScopeTable} (h : Built t) (layer exported : ScopeId)
    (he : t.Has exported) (ha : t.addImport layer exported = .ok u) : Built u
  | addVar {t u : ScopeTable} (h : Built t) (scope : ScopeId) (name : String) (decl : DeclId)
    (overloadable : Bool) (ha : t.addVar scope name decl overloadable = .ok u) : Built u
  | addType {t u : ScopeTable} (h : Built t) (scope : ScopeId) (typeDef : TypeDef)
    (id : TypeDefId) (ha : t.addType scope typeDef = .ok (id, u)) : Built u

/-- What holds of every table that was built. -/
structure Sound (t : ScopeTable) : Prop where
  linked : t.Linked
  ordered : t.Ordered
  /-- A name that stands for something has a declaration. -/
  declared : ∀ id name var, (t.get id).vars.lookup name = some var → var.decls ≠ []

theorem sound_empty : ScopeTable.empty.Sound := by
  have hget : ∀ id, ScopeTable.empty.get id = default := fun id => rfl
  refine ⟨⟨fun h => ?_, fun h => ?_⟩, ⟨fun id p h => ?_, rfl, fun _ => rfl⟩,
    fun id name var h => ?_⟩
  all_goals
    rw [hget] at h
    cases h

theorem get_addScope (t : ScopeTable) (kind : ScopeKind) (parent : Option ScopeId) (id : ScopeId) :
    (t.addScope kind parent).2.get id =
      if id.index = t.scopes.size then ⟨kind, parent, [], [], []⟩ else t.get id := by
  simp only [get, addScope, Array.getElem?_push]
  split <;> simp

theorem Sound.addScope (h : t.Sound) (kind : ScopeKind) {parent : Option ScopeId}
    (hp : ∀ p, parent = some p → t.Has p) : (t.addScope kind parent).2.Sound := by
  have hhas : ∀ {id}, t.Has id → (t.addScope kind parent).2.Has id := fun hid =>
    hid.mono (by simp)
  refine ⟨⟨fun {id p} hparent => hhas ?_, fun {id e} he => hhas ?_⟩,
    ⟨fun id p hparent => ?_, ?_, fun id => ?_⟩, fun id name var hvar => ?_⟩
  · rw [get_addScope] at hparent
    split at hparent
    · exact hp p hparent
    · exact h.linked.parent hparent
  · rw [get_addScope] at he
    split at he
    · cases he
    · exact h.linked.imports he
  · rw [get_addScope] at hparent
    split at hparent
    · rename_i hid
      exact hid ▸ hp p hparent
    · exact h.ordered.parents id p hparent
  · simp [ScopeTable.addScope, h.ordered.size]
  · have hidle := h.ordered.idle id
    simp only [isVisiting, ScopeTable.addScope, Array.getElem?_push] at hidle ⊢
    split
    · rfl
    · exact hidle
  · rw [get_addScope] at hvar
    split at hvar
    · cases hvar
    · exact h.declared id name var hvar

/-- A scope may change in what it imports and declares. -/
theorem Sound.modify (h : t.Sound) (place : ScopeId) {f : Scope → Scope}
    (hp : ∀ scope, (f scope).parent = scope.parent)
    (hi : ∀ e ∈ (f (t.get place)).imports, t.Has e)
    (hv : ∀ name var, (f (t.get place)).vars.lookup name = some var → var.decls ≠ []) :
    (t.modify place f).Sound := by
  have hhas : ∀ {id}, t.Has id → (t.modify place f).Has id := fun hid => hid.mono (by simp)
  have hparent : ∀ id, ((t.modify place f).get id).parent = (t.get id).parent := fun id => by
    rcases get_modify_cases t place id f with hget | ⟨-, hget⟩ <;> rw [hget]
    exact hp _
  refine ⟨⟨fun {id p} hedge => hhas ?_, fun {id e} he => hhas ?_⟩,
    ⟨fun id p hedge => ?_, ?_, h.ordered.idle⟩, fun id name var hvar => ?_⟩
  · exact h.linked.parent (hparent id ▸ hedge)
  · rcases get_modify_cases t place id f with hget | ⟨rfl, hget⟩ <;> rw [hget] at he
    · exact h.linked.imports he
    · exact hi e he
  · exact h.ordered.parents id p (hparent id ▸ hedge)
  · rw [size_modify]
    exact h.ordered.size
  · rcases get_modify_cases t place id f with hget | ⟨rfl, hget⟩ <;> rw [hget] at hvar
    · exact h.declared id name var hvar
    · exact hv name var hvar

theorem Sound.addImport {layer exported : ScopeId} (h : t.Sound) (he : t.Has exported)
    (ha : t.addImport layer exported = .ok u) : u.Sound := by
  obtain ⟨-, ⟨-, rfl⟩ | rfl⟩ := addImport_eq_ok ha
  · exact h
  · refine h.modify layer (fun _ => rfl) (fun e hmem => ?_) (h.declared layer)
    rcases List.mem_append.mp hmem with hmem | hmem
    · exact h.linked.imports hmem
    · exact List.mem_singleton.mp hmem ▸ he

theorem Sound.addVar {scope : ScopeId} {decl : DeclId} {overloadable : Bool} (h : t.Sound)
    (ha : t.addVar scope name decl overloadable = .ok u) : u.Sound := by
  obtain ⟨old, vars, hold, hdeclare, rfl⟩ := addVar_eq_ok ha
  refine h.modify scope (fun _ => rfl) (fun e => h.linked.imports) fun other var hvar => ?_
  by_cases hname : other = name
  · exact decls_ne_nil_of_declare hdeclare (hname ▸ hvar)
  · rw [lookup_declare_of_ne hdeclare hname, ← get_eq hold] at hvar
    exact h.declared scope other var hvar

theorem Sound.addType {scope : ScopeId} {typeDef : TypeDef} {id : TypeDefId} (h : t.Sound)
    (ha : t.addType scope typeDef = .ok (id, u)) : u.Sound := by
  obtain ⟨types, rfl⟩ := addType_eq_ok ha
  have hpush : ({ t with typeDefs := t.typeDefs.push typeDef } : ScopeTable).Sound :=
    ⟨⟨h.linked.parent, h.linked.imports⟩, ⟨h.ordered.parents, h.ordered.size, h.ordered.idle⟩,
      h.declared⟩
  exact hpush.modify scope (fun _ => rfl) (fun e => h.linked.imports) (h.declared scope)

theorem Built.sound (h : t.Built) : t.Sound := by
  induction h with
  | empty => exact sound_empty
  | addScope _ kind parent hp ih => exact ih.addScope kind hp
  | addImport _ layer exported he ha ih => exact ih.addImport he ha
  | addVar _ scope name decl overloadable ha ih => exact ih.addVar ha
  | addType _ scope typeDef id ha ih => exact ih.addType ha

theorem Sound.declsOf_ne_nil (h : t.Sound) {id : ScopeId} :
    (t.get id).declsOf name ≠ [] ↔ ((t.get id).vars.lookup name).isSome := by
  rw [Scope.declsOf]
  cases hvar : (t.get id).vars.lookup name with
  | none => simp
  | some var => simpa using h.declared id name var hvar

/-- What a lookup finds in the scopes it shows. -/
theorem mem_distinct_shown (hseen : ∀ id, id ∈ seen ↔ t.Sees start id) (decl : DeclId) :
    decl ∈ distinct [] (seen.flatMap fun id => (t.get id).declsOf name) ↔
      ∃ id, t.Sees start id ∧ decl ∈ (t.get id).declsOf name := by
  simp only [mem_distinct, List.mem_flatMap, hseen, List.not_mem_nil, not_false_eq_true, and_true]

/-- A lookup finds each declaration that is in sight, once and no other. -/
theorem Sound.exists_findVars (h : t.Sound) (hs : t.Has start) (name : String) :
    ∃ found, t.findVars start name = .ok found ∧ found.Nodup ∧
      ∀ decl, decl ∈ found ↔ ∃ id, t.Sees start id ∧ decl ∈ (t.get id).declsOf name := by
  obtain ⟨seen, hshown, hseen⟩ := h.ordered.exists_shown h.linked hs
  exact ⟨_, hshown.findVars name, nodup_distinct, mem_distinct_shown hseen⟩

/-- The nearest meaning of a name stands in front of all its declarations. -/
theorem distinct_decls_prefix {scopes : List Scope} {var : VarDef}
    (h : scopes.findSome? (·.vars.lookup name) = some var) :
    distinct [] var.decls <+: distinct [] (scopes.flatMap (·.declsOf name)) := by
  induction scopes with
  | nil => cases h
  | cons scope scopes ih =>
    rw [List.findSome?_cons] at h
    rw [List.flatMap_cons, Scope.declsOf]
    cases hvar : scope.vars.lookup name with
    | none =>
      rw [hvar] at h
      simpa [hvar] using ih h
    | some var' =>
      rw [hvar] at h
      obtain rfl := Option.some.inj h
      rw [Option.map_some, Option.getD_some, distinct_append]
      exact List.prefix_append _ _

/-- A lookup finds each declaration that is in sight, once and no other; the nearest meaning
is found when there is any, and its declarations come first; and whatever a lookup is for and
wherever it stops, no scope is marked after it. -/
theorem Built.findVars_and_findVar? (h : t.Built) (hs : t.Has start) (name : String) :
    (∃ found, t.findVars start name = .ok found ∧ found.Nodup ∧
      (∀ decl, decl ∈ found ↔ ∃ id, t.Sees start id ∧ decl ∈ (t.get id).declsOf name) ∧
      ∃ nearest, t.findVar? start name = .ok nearest ∧ (nearest.isSome ↔ found ≠ []) ∧
        ∀ var, nearest = some var → distinct [] var.decls <+: found) ∧
    ∀ (β : Type) (visit : Visit β) (found : β), ∃ found' u,
      t.look visit start found = .ok (found', u) ∧ ∀ id, u.isVisiting id = false := by
  have hsound := h.sound
  obtain ⟨seen, hshown, hseen⟩ := hsound.ordered.exists_shown hsound.linked hs
  refine ⟨⟨_, hshown.findVars name, nodup_distinct, mem_distinct_shown hseen, _, hshown.first? _,
    ?_, ?_⟩, fun β visit found => ⟨_, t, hshown β visit found, hsound.ordered.idle⟩⟩
  · rw [Ne, distinct_eq_nil, List.flatMap_eq_nil_iff, List.findSome?_isSome_iff]
    simp only [← hsound.declsOf_ne_nil, not_forall, exists_prop, Ne]
  · intro var hvar
    have hfirst : (seen.map t.get).findSome? (·.vars.lookup name) = some var := by
      rw [List.findSome?_map]
      exact hvar
    simpa only [List.flatMap_map] using distinct_decls_prefix hfirst

/-- Two layers that import each other and declare `f`. -/
def ringTable : ScopeTable where
  scopes := #[⟨.universal, none, [], [], []⟩,
    ⟨.publicLayer, some ⟨0⟩, [("f", .single ⟨0⟩)], [], [⟨2⟩]⟩,
    ⟨.publicLayer, some ⟨0⟩, [("f", .single ⟨1⟩)], [], [⟨1⟩]⟩]
  visiting := #[false, false, false]
  typeDefs := #[]

theorem built_ringTable : ringTable.Built := by
  have hscopes := ((Built.empty.addScope .universal none nofun).addScope .publicLayer (some ⟨0⟩)
    (by rintro _ ⟨⟩; decide)).addScope .publicLayer (some ⟨0⟩) (by rintro _ ⟨⟩; decide)
  have hring := (hscopes.addImport ⟨1⟩ ⟨2⟩ (by decide) rfl).addImport ⟨2⟩ ⟨1⟩ (by decide) rfl
  exact (hring.addVar ⟨1⟩ "f" ⟨0⟩ false rfl).addVar ⟨2⟩ "f" ⟨1⟩ false rfl

/-- Both declarations are found, though the layers import each other. -/
theorem findVars_and_findVar?_ringTable :
    (ringTable.Built ∧ ringTable.Has ⟨1⟩) ∧
    ∃ found, ringTable.findVars ⟨1⟩ "f" = .ok found ∧ found.Nodup ∧ ⟨0⟩ ∈ found ∧ ⟨1⟩ ∈ found := by
  have hhas : ringTable.Has ⟨1⟩ := by decide
  obtain ⟨⟨found, hfound, hnodup, hmem, -⟩, -⟩ := built_ringTable.findVars_and_findVar? hhas "f"
  have hsees : ringTable.Sees ⟨1⟩ ⟨2⟩ := ⟨_, Reaches.here.imported (by decide) (by decide)⟩
  refine ⟨⟨built_ringTable, hhas⟩, found, hfound, hnodup, (hmem _).mpr ⟨⟨1⟩, ⟨_, .here⟩, ?_⟩,
    (hmem _).mpr ⟨⟨2⟩, hsees, ?_⟩⟩
  · decide
  · decide

end ScopeTable
end BlockLang
