import BlockLang.Types.Shape

/-!
# The table of types

The table only grows, and a kind that can be shared is found whenever the table has
it, whatever the hash.
-/

namespace BlockLang.TypeTable

/-- `id` is a handle of the table. -/
def Has (t : TypeTable) (id : TypeId) : Prop := id.index < t.size

instance (t : TypeTable) (id : TypeId) : Decidable (t.Has id) :=
  inferInstanceAs (Decidable (id.index < t.size))

variable {t u v : TypeTable} {k : TypeKind} {id : TypeId}

/-! ## Adding a kind -/

@[simp] theorem size_register (t : TypeTable) (kind : TypeKind) :
    (t.register kind).2.size = t.size + 1 :=
  Array.size_push _

theorem kind_register (t : TypeTable) (kind : TypeKind) (id : TypeId) :
    (t.register kind).2.kind id = if id.index = t.size then kind else t.kind id := by
  simp only [TypeTable.kind, register, size, Array.getElem?_push]
  split <;> simp_all

theorem replacement_register (t : TypeTable) (kind : TypeKind) (id : TypeId) :
    (t.register kind).2.replacement id = t.replacement id := by
  simp only [replacement, register, Array.getElem?_push]
  split
  · rename_i h
    rw [Array.getElem?_eq_none (Nat.le_of_eq h.symm)]
    rfl
  · rfl

theorem find?_eq_some (h : t.find? k = some id) :
    t.Has id ∧ t.kind id = k ∧ k.isParam = false := by
  unfold find? at h
  split at h
  · cases h
  · rename_i hparam
    have hequal := List.find?_some h
    exact ⟨t.inTable _ _ (List.mem_of_find?_eq_some h), eq_of_beq hequal,
      Bool.eq_false_iff.mpr hparam⟩

theorem kind_ne_of_find?_eq_none (h : t.find? k = none) (hparam : k.isParam = false)
    (hid : t.Has id) : t.kind id ≠ k := by
  intro hkind
  have hentry : t.entries[id.index]? = some t.entries[id.index] := Array.getElem?_eq_getElem hid
  have hfiled := t.filed id.index _ hentry
  rw [TypeTable.kind, hentry, Option.map_some, Option.getD_some] at hkind
  rw [hkind] at hfiled
  rw [find?, hparam, if_neg (by simp), List.find?_eq_none] at h
  exact h _ (hfiled hparam) (by simp [TypeTable.kind, hentry, hkind])

/-- Interning hands out the handle of an equal kind, or adds the kind. -/
theorem intern_cases (t : TypeTable) (kind : TypeKind) :
    (∃ id, t.Has id ∧ t.kind id = kind ∧ kind.isParam = false ∧ t.intern kind = (id, t)) ∨
      (kind.isParam = false → ∀ id, t.Has id → t.kind id ≠ kind) ∧
        t.intern kind = t.register kind := by
  unfold intern
  cases h : t.find? kind with
  | some id =>
    obtain ⟨hid, hkind, hparam⟩ := find?_eq_some h
    exact .inl ⟨id, hid, hkind, hparam, rfl⟩
  | none => exact .inr ⟨fun hparam _ hid => kind_ne_of_find?_eq_none h hparam hid, rfl⟩

theorem kind_intern (t : TypeTable) (kind : TypeKind) :
    (t.intern kind).2.kind (t.intern kind).1 = kind := by
  obtain ⟨id, -, hkind, -, h⟩ | ⟨-, h⟩ := intern_cases t kind
  · rw [h, hkind]
  · rw [h, kind_register]
    exact if_pos rfl

theorem has_intern (t : TypeTable) (kind : TypeKind) :
    (t.intern kind).2.Has (t.intern kind).1 := by
  obtain ⟨id, hid, -, -, h⟩ | ⟨-, h⟩ := intern_cases t kind
  · rw [h]
    exact hid
  · rw [h, Has, size_register]
    exact Nat.lt_succ_self _

theorem replacement_intern (t : TypeTable) (kind : TypeKind) :
    (t.intern kind).2.replacement = t.replacement := by
  obtain ⟨id, -, -, -, h⟩ | ⟨-, h⟩ := intern_cases t kind
  · rw [h]
  · rw [h]
    exact funext (replacement_register t kind)

/-! ## Growing tables -/

/-- Every type of the first table is the same in the second. -/
def Extends (t u : TypeTable) : Prop :=
  ∀ id, t.Has id → u.Has id ∧ u.kind id = t.kind id

theorem Extends.refl (t : TypeTable) : t.Extends t := fun _ h => ⟨h, rfl⟩

theorem Extends.trans (h : t.Extends u) (h' : u.Extends v) : t.Extends v := by
  intro id hid
  obtain ⟨hu, hk⟩ := h id hid
  obtain ⟨hv, hk'⟩ := h' id hu
  exact ⟨hv, hk'.trans hk⟩

theorem Extends.has (h : t.Extends u) (hid : t.Has id) : u.Has id := (h id hid).1

theorem Extends.kind (h : t.Extends u) (hid : t.Has id) : u.kind id = t.kind id := (h id hid).2

theorem extends_intern (t : TypeTable) (kind : TypeKind) : t.Extends (t.intern kind).2 := by
  obtain ⟨id, -, -, -, h⟩ | ⟨-, h⟩ := intern_cases t kind
  · rw [h]
    exact .refl t
  · intro id hid
    rw [h, Has, size_register, kind_register, if_neg (Nat.ne_of_lt hid)]
    exact ⟨Nat.lt_succ_of_lt hid, rfl⟩

/-! ## Standing for a type -/

@[simp] theorem size_setReplacement (t : TypeTable) (p : TypeId) (r : Option TypeId) :
    (t.setReplacement p r).size = t.size := by
  simp [setReplacement, size]

@[simp] theorem kind_setReplacement (t : TypeTable) (p : TypeId) (r : Option TypeId) :
    (t.setReplacement p r).kind = t.kind := by
  funext id
  simp only [TypeTable.kind, setReplacement, Array.getElem?_modify]
  split <;> simp [Function.comp_def]

theorem replacement_setReplacement (t : TypeTable) (p : TypeId) (r : Option TypeId)
    (hp : t.Has p) :
    (t.setReplacement p r).replacement id = if id = p then r else t.replacement id := by
  by_cases h : id = p
  · have hentry : t.entries[p.index]? = some t.entries[p.index] := Array.getElem?_eq_getElem hp
    simp [replacement, setReplacement, Array.getElem?_modify, h, hentry]
  · have hne : ¬p.index = id.index := fun hi => h (by cases id; cases p; simp_all)
    simp [replacement, setReplacement, Array.getElem?_modify, h, hne]

/-! ## The types of every table -/

/-- The kinds of a table in the order of their handles. -/
def kinds (t : TypeTable) : List TypeKind := t.entries.toList.map (·.kind)

theorem kind_eq_kinds (t : TypeTable) (id : TypeId) :
    t.kind id = t.kinds[id.index]?.getD .error := by
  simp [TypeTable.kind, kinds]

theorem kinds_register (t : TypeTable) (kind : TypeKind) :
    (t.register kind).2.kinds = t.kinds ++ [kind] := by
  simp [kinds, register]

theorem kind_mem_kinds (hid : t.Has id) : t.kind id ∈ t.kinds := by
  have hentry : t.entries[id.index]? = some t.entries[id.index] := Array.getElem?_eq_getElem hid
  rw [TypeTable.kind, hentry]
  exact List.mem_map.mpr ⟨_, Array.mem_toList_iff.mpr (Array.getElem_mem hid), rfl⟩

theorem has_of_kind_ne_error (h : t.kind id ≠ .error) : t.Has id := by
  refine Decidable.byContradiction fun hid => ?_
  have hentry : t.entries[id.index]? = none := Array.getElem?_eq_none (Nat.not_lt.mp hid)
  exact h (by rw [TypeTable.kind, hentry]; rfl)

theorem kinds_foldl_intern (kinds : List TypeKind) (t : TypeTable)
    (hnew : (t.kinds ++ kinds).Nodup) :
    (kinds.foldl (fun t kind => (t.intern kind).2) t).kinds = t.kinds ++ kinds := by
  induction kinds generalizing t with
  | nil => simp
  | cons kind kinds ih =>
    have hstep : (t.intern kind).2.kinds = t.kinds ++ [kind] := by
      obtain ⟨id, hid, hkind, -, -⟩ | ⟨-, h⟩ := intern_cases t kind
      · have hmem := kind_mem_kinds hid
        rw [hkind] at hmem
        exact absurd rfl ((List.nodup_append.mp hnew).2.2 kind hmem kind List.mem_cons_self)
      · rw [h, kinds_register]
    rw [List.foldl_cons, ih, hstep]
    · simp
    · rw [hstep]
      simpa using hnew

/-- The types that need no declaration have the same handles under every hash. -/
theorem kinds_new (hash : TypeKind → UInt64) : (new hash).kinds = initialKinds :=
  kinds_foldl_intern initialKinds (empty hash) (by
    show initialKinds.Nodup
    decide)

/-- The handles with names of their own mean what they say. -/
theorem kind_new (hash : TypeKind → UInt64) :
    (new hash).kind .error = .error ∧ (new hash).kind .unit = .tuple [] ∧
      ∀ p : Primitive, (new hash).kind p.typeId = .primitive p := by
  simp only [kind_eq_kinds, kinds_new]
  exact ⟨rfl, rfl, fun p => by cases p <;> rfl⟩

end BlockLang.TypeTable
