import BlockLang.Proofs.Types.Compare

/-!
# Costs without the test for equal handles

`structural` asks the question that `compare` asks when the handles differ, also when they are
the same. On types without parameters it gives the same costs: every rule prices a type at
nothing against itself if it does so for the parts (`priceBy_self`). The rule for parameters is
the one that does not.
-/

namespace BlockLang

namespace TypeTree

theorem paramsOfAll_eq_flatMap (trees : List TypeTree) :
    paramsOfAll trees = trees.flatMap params := by
  induction trees with
  | nil => rfl
  | cons tree rest ih => rw [paramsOfAll, ih, List.flatMap_cons]

theorem paramsOfFields_eq_flatMap (fields : List (Option String × TypeTree)) :
    paramsOfFields fields = fields.flatMap fun field => field.2.params := by
  induction fields with
  | nil => rfl
  | cons field rest ih => rw [paramsOfFields, ih, List.flatMap_cons]

end TypeTree

/-- The parameters of a type are those of its parts, unless it is one itself. -/
theorem TypeKind.params_tree {k : TypeKind} (id : TypeId) (f : TypeId → TypeTree)
    (hk : k.isParam = false) :
    (k.tree id f).params = k.parts.flatMap fun part => (f part).params := by
  cases k with
  | param => simp [isParam] at hk
  | _ => simp [tree, parts, TypeTree.params, TypeTree.paramsOfAll_eq_flatMap,
      TypeTree.paramsOfFields_eq_flatMap, List.flatMap_map]

namespace TypeTable

variable {t : TypeTable} {a b : TypeId}

-- ---------------------------------------------------------------------------
-- Types without parameters
-- ---------------------------------------------------------------------------

/-- No parameter occurs in a type. -/
def ParamFree (t : TypeTable) (id : TypeId) : Prop := (t.unfold id).params = []

instance (t : TypeTable) (id : TypeId) : Decidable (t.ParamFree id) :=
  inferInstanceAs (Decidable (_ = _))

namespace ParamFree

theorem isParam_eq_false (ha : t.ParamFree a) : (t.kind a).isParam = false := by
  cases hk : t.kind a with
  | param name =>
    have hunfold : t.unfold a = .param a := by
      rw [unfold, unfoldWithin, hk, TypeKind.tree]
    simp [ParamFree, hunfold, TypeTree.params] at ha
  | _ => rfl

theorem part (ha : t.ParamFree a) (h : t.Canonical) :
    ∀ x ∈ a :: (t.kind a).parts, t.ParamFree x := by
  have hparts : (t.kind a).parts.flatMap (fun part => (t.unfold part).params) = [] := by
    rw [← TypeKind.params_tree a t.unfold ha.isParam_eq_false, ← h.unfold_eq]
    exact ha
  exact List.forall_mem_cons.mpr ⟨ha, List.flatMap_eq_nil_iff.mp hparts⟩

end ParamFree

-- ---------------------------------------------------------------------------
-- The structural rules alone
-- ---------------------------------------------------------------------------

def structuralWithin (t : TypeTable) : Nat → TypeId → TypeId → Cost
  | 0, _, _ => .invalid
  | depth + 1, a, b => t.priceBy (t.structuralWithin depth) a b

/-- The cost by the structural rules, with no test for equal handles at any depth. -/
def structural (t : TypeTable) (a b : TypeId) : Cost :=
  t.structuralWithin (a.index + b.index + 1) a b

namespace Canonical

theorem structuralWithin_eq (h : t.Canonical) {m n : Nat} (hm : a.index + b.index < m)
    (hn : a.index + b.index < n) : t.structuralWithin m a b = t.structuralWithin n a b := by
  induction m generalizing n a b with
  | zero => exact absurd hm (Nat.not_lt_zero _)
  | succ m ih =>
    cases n with
    | zero => exact absurd hn (Nat.not_lt_zero _)
    | succ n => exact h.priceBy_congr fun x y hxy => ih (by omega) (by omega)

theorem structural_eq (h : t.Canonical) (a b : TypeId) :
    t.structural a b = t.priceBy t.structural a b :=
  h.priceBy_congr fun _ _ hxy => h.structuralWithin_eq hxy (Nat.lt_succ_self _)

end Canonical

/-- What every rule but the one for parameters says about a type and itself, given that the
parts cost nothing against themselves. -/
theorem priceBy_self (ha : (t.kind a).isParam = false) : t.priceBy t.compare a a = .zero := by
  unfold priceBy
  cases hk : t.kind a with
  | param => simp [hk, TypeKind.isParam] at ha
  | tuple fields => simp [fieldsCost_self]
  | primitive p => simp [Cost.primitive]
  | list element length => simp [lengthCost_self, Cost.zero_add_zero]
  | func arguments result => simp [Cost.zero_add_zero]
  | _ => simp

/-- The induction is on both types together: a rule leaves one of them as it is. -/
theorem Canonical.structural_eq_compare (h : t.Canonical) (a b : TypeId) (ha : t.ParamFree a)
    (hb : t.ParamFree b) : t.structural a b = t.compare a b := by
  have hprice : t.structural a b = t.priceBy t.compare a b := by
    rw [h.structural_eq]
    exact h.priceBy_congr_parts fun x hx y hy _ =>
      structural_eq_compare h x y (ha.part h x hx) (hb.part h y hy)
  by_cases hab : a = b
  · subst hab
    rw [hprice, compare_self, priceBy_self ha.isParam_eq_false]
  · rw [hprice, h.compare_of_ne hab]
termination_by a.index + b.index

/-- In a table that was built by requests, the test for equal handles changes no cost between
types without parameters. -/
theorem Built.compare_eq_structural (h : t.Built) (a b : TypeId) (ha : t.ParamFree a)
    (hb : t.ParamFree b) :
    (∀ x y, t.structural x y = t.priceBy t.structural x y) ∧
      t.compare a b = t.structural a b ∧ t.structural a a = .zero := by
  have hcanonical := h.settled.canonical
  refine ⟨hcanonical.structural_eq, (hcanonical.structural_eq_compare a b ha hb).symm, ?_⟩
  rw [hcanonical.structural_eq_compare a a ha ha, compare_self]

/-- An instance of a generic pair has no parameter left. -/
theorem compare_eq_structural_pairTable :
    (pairTable.Built ∧ pairTable.ParamFree ⟨14⟩ ∧ pairTable.ParamFree ⟨13⟩) ∧
    (∀ x y, pairTable.structural x y = pairTable.priceBy pairTable.structural x y) ∧
      pairTable.compare ⟨14⟩ ⟨13⟩ = pairTable.structural ⟨14⟩ ⟨13⟩ ∧
      pairTable.structural ⟨14⟩ ⟨14⟩ = .zero :=
  ⟨⟨built_pairTable, by decide, by decide⟩,
    built_pairTable.compare_eq_structural ⟨14⟩ ⟨13⟩ (by decide) (by decide)⟩

end TypeTable
end BlockLang
