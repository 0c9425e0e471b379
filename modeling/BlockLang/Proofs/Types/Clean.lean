import BlockLang.Proofs.Types.Nested
import BlockLang.Proofs.Types.Wrong

/-!
# Clean types

A type is clean if the error type does not occur in it. Whatever is made of clean types is
clean, an instance of a generic definition too, and so is what can be seen of a clean type.
-/

namespace BlockLang

namespace TypeTree

mutual

/-- Whether the error type occurs in the tree. The arguments of an instance count where the
body has them. -/
def wrong : TypeTree → Bool
  | error => true
  | primitive _ | param _ => false
  | list element _ => wrong element
  | tuple fields => wrongFields fields
  | reference target => wrong target
  | named _ _ expanded => wrong expanded
  | func arguments result => wrong arguments || wrong result

def wrongFields : List (Option String × TypeTree) → Bool
  | [] => false
  | (_, tree) :: rest => wrong tree || wrongFields rest

end

theorem wrongFields_eq_any (fields : List (Option String × TypeTree)) :
    wrongFields fields = fields.any (·.2.wrong) := by
  induction fields with
  | nil => rfl
  | cons field rest ih => rw [wrongFields, ih, List.any_cons]

mutual

/-- Where nothing wrong is put in, nothing wrong comes out. -/
theorem wrong_subst {σ : TypeId → TypeTree} (hσ : ∀ p, (σ p).wrong = false) :
    ∀ tree : TypeTree, tree.wrong = false → (tree.subst σ).wrong = false
  | error, h => h
  | primitive _, _ => rfl
  | param id, _ => hσ id
  | list element _, h => wrong_subst hσ element h
  | tuple fields, h => wrongFields_subst hσ fields h
  | reference target, h => wrong_subst hσ target h
  | named _ _ expanded, h => wrong_subst hσ expanded h
  | func arguments result, h => by
    obtain ⟨ha, hr⟩ := Bool.or_eq_false_iff.mp h
    exact Bool.or_eq_false_iff.mpr ⟨wrong_subst hσ arguments ha, wrong_subst hσ result hr⟩

theorem wrongFields_subst {σ : TypeId → TypeTree} (hσ : ∀ p, (σ p).wrong = false) :
    ∀ fields : List (Option String × TypeTree), wrongFields fields = false →
      wrongFields (substFields σ fields) = false
  | [], _ => rfl
  | (_, tree) :: rest, h => by
    obtain ⟨htree, hrest⟩ := Bool.or_eq_false_iff.mp h
    exact Bool.or_eq_false_iff.mpr ⟨wrong_subst hσ tree htree, wrongFields_subst hσ rest hrest⟩

end
end TypeTree

theorem TypeKind.wrong_tree (k : TypeKind) (id : TypeId) (f : TypeId → TypeTree) :
    (k.tree id f).wrong = true ↔ k = .error ∨ ∃ p ∈ k.inner, (f p).wrong = true := by
  cases k <;>
    simp [tree, TypeTree.wrong, TypeTree.wrongFields_eq_any, inner, parts]

namespace TypeTable

/-- The error type does not occur in the type. -/
inductive Clean (t : TypeTable) : TypeId → Prop
  | intro {id : TypeId} (valid : t.kind id ≠ .error) (inner : ∀ p ∈ (t.kind id).inner, Clean t p) :
    Clean t id

variable {t u : TypeTable} {id p : TypeId} {k : TypeKind}

theorem Clean.valid (h : t.Clean id) : t.kind id ≠ .error := by
  cases h with
  | intro valid _ => exact valid

theorem Clean.inner (h : t.Clean id) (hp : p ∈ (t.kind id).inner) : t.Clean p := by
  cases h with
  | intro _ inner => exact inner p hp

theorem Clean.has (h : t.Clean id) : t.Has id := has_of_kind_ne_error h.valid

theorem Clean.extends (h : t.Clean id) (hu : t.Extends u) : u.Clean id := by
  induction h with
  | @intro id valid _ ih =>
    have hkind := hu.kind (has_of_kind_ne_error valid)
    exact .intro (hkind ▸ valid) fun p hp => ih p (hkind ▸ hp)

theorem Clean.containsErrorWithin (h : t.Clean id) (depth : Nat) :
    t.containsErrorWithin depth id = false := by
  induction h generalizing depth with
  | @intro id valid _ ih =>
    cases depth with
    | zero => rfl
    | succ depth =>
      refine Bool.eq_false_iff.mpr fun herror => ?_
      rcases (containsErrorWithin_succ t depth id).mp herror with hk | ⟨p, hp, he⟩
      · exact valid hk
      · rw [ih p hp depth] at he
        exact Bool.false_ne_true he

theorem Clean.containsError (h : t.Clean id) : t.containsError id = false :=
  h.containsErrorWithin _

/-- A type is clean as its tree is. -/
theorem Canonical.clean_iff (ht : t.Canonical) : t.Clean id ↔ (t.unfold id).wrong = false := by
  constructor
  · intro h
    induction h with
    | @intro id valid _ ih =>
      refine Bool.eq_false_iff.mpr fun hw => ?_
      rw [ht.unfold_eq, TypeKind.wrong_tree] at hw
      rcases hw with hk | ⟨p, hp, hw⟩
      · exact valid hk
      · rw [ih p hp] at hw
        exact Bool.false_ne_true hw
  · intro h
    exact below id h
where
  below (id : TypeId) (h : (t.unfold id).wrong = false) : t.Clean id := by
    rw [ht.unfold_eq, Bool.eq_false_iff, ne_eq, TypeKind.wrong_tree, not_or] at h
    refine .intro h.1 fun p hp => ?_
    have hlt := ht.ordered id p (TypeKind.mem_parts_of_inner hp)
    exact below p (Bool.eq_false_iff.mpr fun hw => h.2 ⟨p, hp, hw⟩)
  termination_by id.index

-- ---------------------------------------------------------------------------
-- Making types
-- ---------------------------------------------------------------------------

theorem clean_intern (hk : k ≠ .error) (h : ∀ p ∈ k.inner, t.Clean p) :
    (t.intern k).2.Clean (t.intern k).1 := by
  refine .intro (by rwa [kind_intern]) fun p hp => ?_
  rw [kind_intern] at hp
  exact (h p hp).extends (t.extends_intern k)

theorem Built.clean_typeId (h : t.Built) (p : Primitive) : t.Clean p.typeId := by
  refine .intro (by simp [h.kind_typeId]) fun part hp => ?_
  simp [h.kind_typeId, TypeKind.inner, TypeKind.parts] at hp

theorem Built.clean_unit (h : t.Built) : t.Clean .unit := by
  refine .intro (by simp [h.kind_error_unit.2]) fun part hp => ?_
  simp [h.kind_error_unit.2, TypeKind.inner, TypeKind.parts] at hp

/-- An instance of a clean body at clean arguments is clean. -/
theorem Built.clean_makeNamed (h : t.Built) (name : String) {params args : List TypeId}
    (hbase : t.Clean id) (hparams : ∀ p ∈ params, t.Has p) (hdistinct : params.Nodup)
    (hargs : ∀ a ∈ args, t.Clean a) :
    (t.makeNamed id name params args).2.Clean (t.makeNamed id name params args).1 := by
  have hcanonical := h.settled.canonical
  obtain ⟨missing, expanded, u, hmake, hu⟩ := exists_instantiated name hcanonical h.settled.clear
    hbase.has hparams fun a ha => (hargs a ha).has
  obtain ⟨v, hfresh, hv⟩ := hu.fresh
  obtain ⟨σ, htree, hother, hparam⟩ := hu.tree
  have hlength : (args.take params.length ++ missing).length = params.length := by
    have hnamed := congrArg List.length hfresh.named
    simp only [List.length_map, List.length_drop] at hnamed
    simp only [List.length_append, List.length_take, hnamed]
    omega
  -- the arguments are clean, and those that are filled in are parameters
  have hclean : ∀ a ∈ args.take params.length ++ missing, u.Clean a := by
    intro a ha
    rcases List.mem_append.mp ha with ha | ha
    · exact (hargs a (List.mem_of_mem_take ha)).extends hu.grown
    · have hkind : v.kind a ∈ missing.map v.kind := List.mem_map_of_mem ha
      rw [hfresh.named] at hkind
      obtain ⟨_, -, hk⟩ := List.mem_map.mp hkind
      refine Clean.extends (.intro (by simp [← hk]) ?_) hv
      simp [← hk, TypeKind.inner, TypeKind.parts]
  have hσ : ∀ p, (σ p).wrong = false := by
    intro p
    by_cases hp : p ∈ params
    · obtain ⟨a, ha⟩ := exists_mem_zip hlength hp
      rw [hparam hdistinct p a ha]
      exact hu.canonical.clean_iff.mp (hclean a (List.of_mem_zip ha).2)
    · rw [hother p hp]
      rfl
  rw [hmake]
  refine clean_intern (by simp) fun p hp => ?_
  obtain rfl : p = expanded := by simpa [TypeKind.inner] using hp
  rw [hu.canonical.clean_iff, htree]
  exact TypeTree.wrong_subst hσ _ (hcanonical.clean_iff.mp hbase)

end TypeTable

/-- A request of clean types. The parameters of a definition need only be there, each once. -/
def TypeRequest.CleanIn (t : TypeTable) : TypeRequest → Prop
  | named base _ params args =>
    t.Clean base ∧ ((∀ p ∈ params, t.Has p) ∧ params.Nodup) ∧ ∀ a ∈ args, t.Clean a
  | request => ∀ id ∈ request.handles, t.Clean id

theorem TypeRequest.CleanIn.has {r : TypeRequest} {t : TypeTable} (h : r.CleanIn t) :
    ∀ id ∈ r.handles, t.Has id := by
  cases r with
  | named base name params args =>
    obtain ⟨hbase, ⟨hparams, -⟩, hargs⟩ := h
    exact forall_mem_handles_named.mpr ⟨hbase.has, hparams, fun a ha => (hargs a ha).has⟩
  | _ => exact fun id hid => TypeTable.Clean.has (h id hid)

namespace TypeRequest

variable {t : TypeTable}

@[simp] theorem cleanIn_list {element : TypeId} {length : Option UInt64} :
    (list element length).CleanIn t ↔ t.Clean element := by simp [CleanIn, handles]

@[simp] theorem cleanIn_tuple {fields : List TypeField} :
    (tuple fields).CleanIn t ↔ ∀ f ∈ fields, t.Clean f.type := by simp [CleanIn, handles]

@[simp] theorem cleanIn_plainTuple {types : List TypeId} :
    (plainTuple types).CleanIn t ↔ ∀ type ∈ types, t.Clean type := by simp [CleanIn, handles]

@[simp] theorem cleanIn_reference {target : TypeId} :
    (reference target).CleanIn t ↔ t.Clean target := by simp [CleanIn, handles]

@[simp] theorem cleanIn_func {arguments result : TypeId} :
    (func arguments result).CleanIn t ↔ t.Clean arguments ∧ t.Clean result := by
  simp [CleanIn, handles]

@[simp] theorem cleanIn_param {name : String} : (param name).CleanIn t := by
  simp [CleanIn, handles]

end TypeRequest

namespace TypeTable

variable {t u : TypeTable} {id p : TypeId} {k : TypeKind}

/-- What is made of clean types is clean. -/
theorem Built.clean_answer (h : t.Built) {r : TypeRequest} (hr : r.CleanIn t) :
    (r.answer t).2.Clean (r.answer t).1 := by
  cases r with
  | named base name params args =>
    obtain ⟨hbase, ⟨hparams, hdistinct⟩, hargs⟩ := hr
    exact h.clean_makeNamed name hbase hparams hdistinct hargs
  | plainTuple types =>
    refine clean_intern (by simp) fun p hp => hr p ?_
    simpa [TypeKind.inner, TypeKind.parts, TypeRequest.handles] using hp
  | param name => exact clean_intern (by simp) (by simp [TypeKind.inner, TypeKind.parts])
  | list _ _ => exact clean_intern (by simp) hr
  | tuple _ => exact clean_intern (by simp) hr
  | reference _ => exact clean_intern (by simp) hr
  | func _ _ => exact clean_intern (by simp) hr

-- ---------------------------------------------------------------------------
-- Looking into types
-- ---------------------------------------------------------------------------

theorem Clean.stripNamedWithin (h : t.Clean id) (depth : Nat) :
    t.Clean (t.stripNamedWithin depth id) := by
  induction depth generalizing id with
  | zero => exact h
  | succ depth ih =>
    rw [TypeTable.stripNamedWithin]
    split
    · next hk => exact ih (h.inner (by simp [hk, TypeKind.inner]))
    · exact h

theorem Clean.stripNamed (h : t.Clean id) : t.Clean (t.stripNamed id) := h.stripNamedWithin _

theorem Clean.stripAll (h : t.Clean id) : t.Clean (t.stripAll id) := by
  have hwithin : ∀ depth id, t.Clean id → t.Clean (t.stripAllWithin depth id) := by
    intro depth
    induction depth with
    | zero => exact fun _ h => h
    | succ depth ih =>
      intro id h
      rw [TypeTable.stripAllWithin]
      split
      · next hk => exact ih _ (h.inner (by simp [hk, TypeKind.inner]))
      · next hk => exact ih _ (h.inner (by simp [hk, TypeKind.inner, TypeKind.parts]))
      · exact h
  exact hwithin _ _ h

theorem Clean.storage (h : t.Clean id) : t.Clean (t.storage id) := by
  unfold TypeTable.storage
  split
  · next hk => exact h.stripNamed.inner (by simp [hk, TypeKind.inner, TypeKind.parts])
  · exact h

theorem Clean.stripNamed_extends (h : t.Clean id) (hu : t.Extends u) :
    u.stripNamed id = t.stripNamed id := by
  have hwithin : ∀ depth id, t.Clean id →
      u.stripNamedWithin depth id = t.stripNamedWithin depth id := by
    intro depth
    induction depth with
    | zero => exact fun _ _ => rfl
    | succ depth ih =>
      intro id h
      rw [TypeTable.stripNamedWithin, TypeTable.stripNamedWithin, hu.kind h.has]
      split
      · next hk => exact ih _ (h.inner (by simp [hk, TypeKind.inner]))
      · rfl
  exact hwithin _ _ h

theorem Clean.func?_extends (h : t.Clean id) (hu : t.Extends u) : u.func? id = t.func? id := by
  rw [func?, func?, h.stripNamed_extends hu, hu.kind h.stripNamed.has]

/-- What a clean function returns is clean. -/
theorem Clean.result (h : t.Clean id) {parameters result : TypeId}
    (hf : t.func? id = some (parameters, result)) : t.Clean result := by
  unfold TypeTable.func? at hf
  split at hf
  · next hk =>
    obtain ⟨-, rfl⟩ := Prod.mk.inj (Option.some.inj hf)
    exact h.stripNamed.inner (by simp [hk, TypeKind.inner, TypeKind.parts])
  · cases hf

theorem Clean.element {length : Option UInt64} (h : t.Clean id) (hk : t.kind id = .list p length) :
    t.Clean p := h.inner (by simp [hk, TypeKind.inner, TypeKind.parts])

theorem Clean.field {fields : List TypeField} {f : TypeField} (h : t.Clean id)
    (hk : t.kind id = .tuple fields) (hf : f ∈ fields) : t.Clean f.type :=
  h.inner (by simpa [hk, TypeKind.inner, TypeKind.parts] using ⟨f, hf, rfl⟩)

end TypeTable
end BlockLang
