import BlockLang.Proofs.Types.Built

/-!
# Types that contain the error type

A type that contains the error type goes on to do so while the table grows, and so does
every type that is made of it. Making a type only ever adds to the table, whether or not
what it is made of is there.
-/

namespace BlockLang

/-- The parts in which an error counts. The arguments of an instance are not among them; they
count where the body has them. -/
def TypeKind.inner : TypeKind → List TypeId
  | .named _ _ expanded => [expanded]
  | kind => kind.parts

theorem TypeKind.mem_parts_of_inner {k : TypeKind} {p : TypeId} (h : p ∈ k.inner) :
    p ∈ k.parts := by
  cases k with
  | named name args expanded =>
    obtain rfl := List.mem_singleton.mp h
    simp [parts]
  | _ => exact h

namespace TypeTable

variable {t u : TypeTable} {id p : TypeId} {m n : Nat}

theorem containsErrorWithin_succ (t : TypeTable) (n : Nat) (id : TypeId) :
    t.containsErrorWithin (n + 1) id = true ↔
      t.kind id = .error ∨ ∃ p ∈ (t.kind id).inner, t.containsErrorWithin n p = true := by
  rw [containsErrorWithin]
  cases t.kind id <;> simp [TypeKind.inner, TypeKind.parts]

/-- The way down to the error leads to smaller handles, all of them in the old table, so it is
found again in any number of levels that lets it go that far. -/
theorem Canonical.containsErrorWithin_extends (ht : t.Canonical) (hext : t.Extends u)
    (h : t.containsErrorWithin n id = true) (hid : t.Has id) (hm : id.index < m) :
    u.containsErrorWithin m id = true := by
  induction n generalizing id m with
  | zero => exact absurd h Bool.false_ne_true
  | succ n ih =>
    obtain ⟨m, rfl⟩ : ∃ k, m = k + 1 := Nat.exists_eq_succ_of_ne_zero (by omega)
    rw [containsErrorWithin_succ] at h
    rw [containsErrorWithin_succ, hext.kind hid]
    refine h.imp_right fun ⟨p, hp, h⟩ => ⟨p, hp, ?_⟩
    have hparts := TypeKind.mem_parts_of_inner hp
    have hlt := ht.ordered id p hparts
    exact ih h (ht.has_part hid hparts) (by omega)

theorem Canonical.containsError_extends (ht : t.Canonical) (hext : t.Extends u)
    (h : t.containsError id = true) (hid : t.Has id) : u.containsError id = true :=
  ht.containsErrorWithin_extends hext h hid (Nat.lt_succ_self _)

/-- A type with a part that contained the error type before contains it too. -/
theorem Canonical.containsError_of_inner (ht : t.Canonical) (hext : t.Extends u)
    (h : t.containsError p = true) (hp : t.Has p) (hmem : p ∈ (u.kind id).inner) :
    u.containsError id = true := by
  have hlt : p.index < id.index := by
    by_cases hid : t.Has id
    · rw [hext.kind hid] at hmem
      exact ht.ordered id p (TypeKind.mem_parts_of_inner hmem)
    · exact Nat.lt_of_lt_of_le hp (Nat.not_lt.mp hid)
  exact (containsErrorWithin_succ u id.index id).mpr
    (.inr ⟨p, hmem, ht.containsErrorWithin_extends hext h hp hlt⟩)

theorem has_error_of_unit (h : t.kind .unit = .tuple []) : t.Has .error := by
  have hunit : t.Has .unit := has_of_kind_ne_error (by simp [h])
  exact Nat.lt_trans (by decide) hunit

/-- The error type and the empty tuple keep their handles. -/
theorem Built.kind_error_unit (h : t.Built) :
    t.kind .error = .error ∧ t.kind .unit = .tuple [] := by
  induction h with
  | new hash => exact ⟨(kind_new hash).1, (kind_new hash).2.1⟩
  | request h r hr ih =>
    have hgrown := h.settled.extends_answer r hr
    exact ⟨(hgrown.kind (has_error_of_unit ih.2)).trans ih.1,
      (hgrown.kind (has_of_kind_ne_error (by simp [ih.2]))).trans ih.2⟩

theorem Built.has_error (h : t.Built) : t.Has .error := has_error_of_unit h.kind_error_unit.2

theorem Built.containsError_error (h : t.Built) : t.containsError .error = true :=
  (containsErrorWithin_succ t _ _).mpr (.inl h.kind_error_unit.1)

-- ---------------------------------------------------------------------------
-- Making types
-- ---------------------------------------------------------------------------

theorem extends_setReplacement (t : TypeTable) (id : TypeId) (r : Option TypeId) :
    t.Extends (t.setReplacement id r) := fun id hid => by simpa [Has] using hid

theorem extends_foldl {α : Type} {f : TypeTable → α → TypeTable}
    (h : ∀ (t : TypeTable) x, t.Extends (f t x)) (xs : List α) (t : TypeTable) :
    t.Extends (xs.foldl f t) := by
  induction xs generalizing t with
  | nil => exact .refl t
  | cons x xs ih => exact (h t x).trans (ih (f t x))

theorem extends_mapTable {f : TypeTable → α → β × TypeTable}
    (h : ∀ (t : TypeTable) x, t.Extends (f t x).2) (xs : List α) (t : TypeTable) :
    t.Extends (mapTable f t xs).2 := by
  induction xs generalizing t with
  | nil => exact .refl t
  | cons x xs ih => exact (h t x).trans (ih (f t x).2)

end TypeTable

namespace Rebuild

/-- The table only grows. -/
def Growing (task : StateM Rebuild α) : Prop := ∀ r : Rebuild, r.table.Extends (task.run r).2.table

variable {task : StateM Rebuild α} {f : α → StateM Rebuild β}

theorem Growing.pure (a : α) : Growing (Pure.pure a) := fun r => .refl r.table

theorem Growing.bind (h : Growing task) (hf : ∀ a, Growing (f a)) : Growing (task >>= f) :=
  fun r => (h r).trans (hf (task.run r).1 (task.run r).2)

theorem Growing.mapM (h : ∀ a, Growing (f a)) (xs : List α) : Growing (xs.mapM f) := by
  induction xs with
  | nil => exact .pure []
  | cons x xs ih =>
    rw [List.mapM_cons]
    exact (h x).bind fun _ => ih.bind fun _ => .pure _

theorem growing_make {f : TypeTable → TypeId × TypeTable} (h : ∀ t : TypeTable, t.Extends (f t).2) :
    Growing (make f) := fun r => h r.table

theorem growing_rebuild {visit : TypeId → StateM Rebuild TypeId} (h : ∀ id, Growing (visit id))
    (id : TypeId) (kind : TypeKind) : Growing (rebuild visit id kind) := by
  have hmake : ∀ kind : TypeKind, Growing (make (·.intern kind)) :=
    fun kind => growing_make fun t => t.extends_intern kind
  cases kind with
  | param name => exact fun r => .refl r.table
  | primitive p => exact .pure id
  | error => exact .pure id
  | list element length => exact (h element).bind fun _ => hmake _
  | tuple fields =>
    exact .bind (.mapM (fun field => (h field.type).bind fun _ => .pure _) fields) fun _ => hmake _
  | reference target => exact (h target).bind fun _ => hmake _
  | named name args expanded =>
    exact .bind (.mapM h args) fun _ => (h expanded).bind fun _ => hmake _
  | func arguments result => exact (h arguments).bind fun _ => (h result).bind fun _ => hmake _

theorem growing_substituteWithin (depth : Nat) (id : TypeId) :
    Growing (substituteWithin depth id) := by
  induction depth generalizing id with
  | zero => exact .pure id
  | succ depth ih =>
    refine .bind (fun r => .refl r.table) fun r => ?_
    split
    · exact .pure _
    · exact .bind (fun r => .refl r.table) fun r => .bind (growing_rebuild ih id _) fun _ =>
        .bind (fun r => .refl r.table) fun _ => .pure _

end Rebuild

namespace TypeTable

theorem extends_replaceAll (t : TypeTable) (params args : List TypeId) :
    t.Extends (t.replaceAll params args) :=
  extends_foldl (fun t _ => t.extends_setReplacement _ _) _ t

theorem extends_restoreAll (t : TypeTable) (params : List TypeId) :
    t.Extends (t.restoreAll params) :=
  extends_foldl (fun t _ => t.extends_setReplacement _ _) params t

theorem extends_makeMissing (t : TypeTable) (name : String) (params : List TypeId) :
    t.Extends (t.makeMissing name params).2 :=
  extends_mapTable (fun t _ => t.extends_intern _) params t

theorem extends_substitute (t : TypeTable) (id : TypeId) : t.Extends (t.substitute id).2 :=
  Rebuild.growing_substituteWithin (id.index + 1) id ⟨t, .empty⟩

theorem extends_makeNamed (t : TypeTable) (base : TypeId) (name : String)
    (params args : List TypeId) : t.Extends (t.makeNamed base name params args).2 :=
  (t.extends_makeMissing name _).trans <| (extends_replaceAll _ params _).trans <|
    (extends_substitute _ base).trans <| (extends_restoreAll _ params).trans (extends_intern _ _)

end TypeTable
end BlockLang
