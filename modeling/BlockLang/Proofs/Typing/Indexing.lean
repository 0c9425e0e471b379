import BlockLang.Proofs.Session.Run
import BlockLang.Proofs.Tree.Edit
import BlockLang.Typing.Place

/-!
# Constant indices

A constant index of a list is compared with its length. The index is signed and the length is
not, so a length of `2 ^ 63` or more is below every index.
-/

namespace BlockLang.Typing

open Pass

variable {s : Session} {node base index : NodeId} {E : Fault → Session → Prop}

/-- An index lies beyond a list if it is negative or not less than the length, and beyond every
list that is too long for the indices. -/
theorem beyond_iff {i : Int64} {length : Option UInt64} : beyond i length = true ↔
    i.toInt < 0 ∨
      ∃ n, length = some n ∧ ((n.toNat : Int) ≤ i.toInt ∨ Int64.maxValue.toInt < n.toNat) := by
  have hnegative : i < 0 ↔ i.toInt < 0 := Int64.lt_iff_toInt_lt
  cases length with
  | none => simp [beyond, hnegative]
  | some n =>
    have hle : n.toInt64 ≤ i ↔ n.toInt64.toInt ≤ i.toInt := Int64.le_iff_toInt_le
    have hn : n.toNat < 18446744073709551616 := n.toNat_lt
    have hmax : Int64.maxValue.toInt = 9223372036854775807 := rfl
    -- The length is read as a signed number: from `2 ^ 63` on it wraps to a negative one.
    have hlength : n.toInt64.toInt = if 2 * n.toNat < 18446744073709551616 then (n.toNat : Int)
        else n.toNat - 18446744073709551616 := n.toBitVec.toInt_eq_toNat_cond
    simp only [beyond, hnegative, hle, hlength, hmax, Option.map_some, Option.getD_some,
      Bool.or_eq_true, decide_eq_true_eq, Option.some.injEq, exists_eq_left']
    split <;> omega

theorem triple_constantIndex? {Q : Option Int64 → Session → Prop} :
    Triple (constantIndex? node) s Q E ↔
      Q ((s.tree.facts node).value.bind s.values.int?) s := by
  unfold constantIndex? valueOf?
  simp only [triple_bind, triple_factsOf, triple_pure]
  cases (s.tree.facts node).value with
  | none => exact Iff.rfl
  | some value => exact Iff.rfl

/-- Looking for an element of a value concerns nothing but values. -/
theorem returns_elementOf? (base : NodeId) (i : Nat) (s : Session) :
    Returns (elementOf? base i) s fun _ s' => ∃ values, s' = { s with values } := by
  unfold elementOf? valueOf?
  simp only [Returns, triple_bind, triple_factsOf, triple_pure]
  split
  · exact ⟨_, rfl⟩
  · refine triple_onValues?.mpr ?_
    split
    · exact ⟨_, rfl⟩
    · exact ⟨_, rfl⟩

/-- A constant index is reported if it lies beyond the list. Otherwise nothing is reported, and
the element has its type. -/
theorem returns_analyzeIndex {element : TypeId} {length : Option UInt64} {p : Primitive}
    (hchildren : s.tree.children node = [base, index])
    (hbase : s.types.kind (s.types.stripAll ((s.tree.facts base).type.getD .error)) =
      .list element length)
    (hindex : s.types.underlying? ((s.tree.facts index).type.getD .error) = some p)
    (hp : p.isInteger = true) :
    Returns (analyzeIndex node) s fun _ s' =>
      match ((s.tree.facts index).value.bind s.values.int?).filter (beyond · length) with
      | some i => (s'.tree.facts node).type = some .error ∧ s'.report = s.report ++
          [.error (.indexOutOfBounds i (length.getD 0)) (s.tree.span node).start]
      | none => (s'.tree.facts node).type = some element ∧ s'.report = s.report := by
  have hnode : node.index < s.tree.size := by
    by_contra hnot
    simp [Arena.children_of_not_lt hnot] at hchildren
  have htyped : ∀ {tree : Arena} (f : Facts → Facts), tree = s.tree →
      (tree.annotate node f).facts node = f (tree.facts node) := by
    rintro _ f rfl
    exact Arena.facts_annotate_self hnode f
  unfold analyzeIndex
  simp only [triple_bind, triple_childrenOf, hchildren, triple_types, typeOf, triple_factsOf,
    triple_pure, hbase]
  unfold indexList
  simp only [triple_bind, triple_types, typeOf, triple_factsOf, triple_pure, hindex,
    Option.map_some, hp, Option.getD_some, Bool.not_true, Bool.false_eq_true, ↓reduceIte,
    triple_constantIndex?]
  cases hi : (s.tree.facts index).value.bind s.values.int? with
  | none =>
    simp [setTypeAndValue, htyped]
  | some i =>
    by_cases hbeyond : beyond i length
    · simp [Option.filter_some, hbeyond, reportOutOfBounds, setType, htyped]
    · simp only [hbeyond, Bool.false_eq_true, ↓reduceIte, Option.filter_some, triple_bind]
      refine (returns_elementOf? base i.toNatClampNeg s).imp ?_
      rintro value _ ⟨values, rfl⟩
      simp [setTypeAndValue, htyped]

end BlockLang.Typing
