import BlockLang.Types.Shape
import BlockLang.Proofs.Types.Built
import BlockLang.Proofs.Types.Cost
import Mathlib.Data.Nat.Dist

/-!
# What conversions cost

A cost is the answer to one question about the kinds of both types, and asks for smaller types
only (`Canonical.compare_eq`); `Canonical.priced` says which rule gave it. Names on top count
by how many one type has more than the other (`Canonical.compare_strip`).
-/

namespace BlockLang

namespace TypeKind

def isNamed : TypeKind → Bool
  | named .. => true
  | _ => false

theorem exists_of_isNamed {k : TypeKind} (h : k.isNamed = true) :
    ∃ name args expanded, k = named name args expanded := by
  cases k with
  | named name args expanded => exact ⟨name, args, expanded, rfl⟩
  | _ => cases h

/-- Whether a kind is converted as it is: it is neither looked through nor converts to
anything. -/
def isPlain : TypeKind → Bool
  | primitive _ | list .. | reference _ | func .. => true
  | _ => false

variable {k : TypeKind}

theorem isNamed_eq_false (h : ∀ name args expanded, k = named name args expanded → False) :
    k.isNamed = false := by
  cases k with
  | named name args expanded => exact (h name args expanded rfl).elim
  | _ => rfl

theorem isPlain_eq_true (he : k = error → False)
    (hn : ∀ name args expanded, k = named name args expanded → False)
    (hp : ∀ name, k = param name → False) (ht : ∀ fields, k = tuple fields → False) :
    k.isPlain = true := by
  cases k <;> simp_all [isPlain]

end TypeKind

open TypeKind (isNamed_eq_false isPlain_eq_true)

namespace TypeTable

variable {t u : TypeTable} {a b : TypeId}

/-- What two different types cost, where `cost` prices their parts. -/
def priceBy (t : TypeTable) (cost : TypeId → TypeId → Cost) (a b : TypeId) : Cost :=
  match t.kind a, t.kind b with
  | .error, _ | _, .error => .zero
  | .named _ _ x, .named _ _ y => cost x y
  | .named _ _ x, _ => cost x b + .dename
  | _, .named _ _ y => cost a y + .dename
  | .param _, _ | _, .param _ => .param
  | .tuple xs, .tuple ys =>
    if xs.length = ys.length then fieldsCost cost xs ys else .invalid
  | .tuple [x], _ => cost x.type b
  | _, .tuple [y] => cost a y.type
  | .primitive x, .primitive y => .primitive x y
  | .list x m, .list y n => lengthCost m n + cost x y
  | .reference x, .reference y => if cost x y = .zero then .zero else .invalid
  | .func x r, .func y s => cost x y + cost r s
  | _, _ => .invalid

theorem compareWithin_succ (t : TypeTable) (depth : Nat) (a b : TypeId) :
    t.compareWithin (depth + 1) a b =
      if a = b then .zero else t.priceBy (t.compareWithin depth) a b := rfl

theorem fieldsCost_cons (cost : TypeId → TypeId → Cost) (f g : TypeField)
    (xs ys : List TypeField) :
    fieldsCost cost (f :: xs) (g :: ys) =
      if f.clashes g then .invalid else cost f.type g.type + fieldsCost cost xs ys := by
  simp only [fieldsCost]
  cases cost f.type g.type <;> simp

theorem fieldsCost_congr {f g : TypeId → TypeId → Cost} {xs ys : List TypeField}
    (h : ∀ x ∈ xs, ∀ y ∈ ys, f x.type y.type = g x.type y.type) :
    fieldsCost f xs ys = fieldsCost g xs ys := by
  induction xs generalizing ys with
  | nil => cases ys <;> rfl
  | cons x xs ih =>
    cases ys with
    | nil => rfl
    | cons y ys =>
      have hrest : fieldsCost f xs ys = fieldsCost g xs ys := ih fun x' hx y' hy =>
        h x' (List.mem_cons_of_mem _ hx) y' (List.mem_cons_of_mem _ hy)
      simp only [fieldsCost, h x List.mem_cons_self y List.mem_cons_self, hrest]

/-- Prices are asked for smaller pairs only, and each side is the type itself or a part of it. -/
theorem Canonical.priceBy_congr_parts (h : t.Canonical) {f g : TypeId → TypeId → Cost}
    (hfg : ∀ x ∈ a :: (t.kind a).parts, ∀ y ∈ b :: (t.kind b).parts,
      x.index + y.index < a.index + b.index → f x y = g x y) :
    t.priceBy f a b = t.priceBy g a b := by
  have ha := h.ordered a
  have hb := h.ordered b
  unfold priceBy
  generalize t.kind a = ka at ha hfg ⊢
  generalize t.kind b = kb at hb hfg ⊢
  have hparts : ∀ x ∈ ka.parts, ∀ y ∈ kb.parts, f x y = g x y := fun x hx y hy => by
    have := ha x hx
    have := hb y hy
    exact hfg x (List.mem_cons_of_mem _ hx) y (List.mem_cons_of_mem _ hy) (by omega)
  have hleft : ∀ x ∈ ka.parts, f x b = g x b := fun x hx =>
    hfg x (List.mem_cons_of_mem _ hx) b List.mem_cons_self (by have := ha x hx; omega)
  have hright : ∀ y ∈ kb.parts, f a y = g a y := fun y hy =>
    hfg a List.mem_cons_self y (List.mem_cons_of_mem _ hy) (by have := hb y hy; omega)
  clear ha hb hfg
  split <;> simp_all [TypeKind.parts]
  · rw [fieldsCost_congr]
    exact fun x hx y hy => hparts x hx y hy

theorem Canonical.priceBy_congr (h : t.Canonical) {f g : TypeId → TypeId → Cost}
    (hfg : ∀ x y, x.index + y.index < a.index + b.index → f x y = g x y) :
    t.priceBy f a b = t.priceBy g a b :=
  h.priceBy_congr_parts fun x _ y _ => hfg x y

namespace Canonical

theorem compareWithin_eq (h : t.Canonical) {m n : Nat} (hm : a.index + b.index < m)
    (hn : a.index + b.index < n) : t.compareWithin m a b = t.compareWithin n a b := by
  induction m generalizing n a b with
  | zero => exact absurd hm (Nat.not_lt_zero _)
  | succ m ih =>
    cases n with
    | zero => exact absurd hn (Nat.not_lt_zero _)
    | succ n =>
      have hprice : t.priceBy (t.compareWithin m) a b = t.priceBy (t.compareWithin n) a b :=
        h.priceBy_congr fun x y hxy => ih (by omega) (by omega)
      rw [compareWithin_succ, compareWithin_succ, hprice]

theorem compare_eq (h : t.Canonical) (a b : TypeId) :
    t.compare a b = if a = b then .zero else t.priceBy t.compare a b := by
  have hprice : t.priceBy (t.compareWithin (a.index + b.index)) a b = t.priceBy t.compare a b :=
    h.priceBy_congr fun x y hxy => h.compareWithin_eq hxy (Nat.lt_succ_self _)
  rw [compare, compareWithin_succ, hprice]

theorem compare_of_ne (h : t.Canonical) (hne : a ≠ b) : t.compare a b = t.priceBy t.compare a b :=
  (h.compare_eq a b).trans (if_neg hne)

end Canonical

@[simp] theorem compare_self (t : TypeTable) (a : TypeId) : t.compare a a = .zero := by
  rw [compare, compareWithin_succ, if_pos rfl]

theorem fieldsCost_self (t : TypeTable) (xs : List TypeField) :
    fieldsCost t.compare xs xs = .zero := by
  induction xs with
  | nil => rfl
  | cons x xs ih =>
    have hname : x.clashes x = false := by
      unfold TypeField.clashes
      cases x.name <;> simp
    simp [fieldsCost, hname, ih, Cost.zero]

-- ---------------------------------------------------------------------------
-- One rule at a time
-- ---------------------------------------------------------------------------

section
variable {name name' : String} {args args' : List TypeId} {x y r s : TypeId} {m n : Option UInt64}
  {xs ys : List TypeField} {f g : TypeField} {p q : Primitive}

namespace Canonical

theorem compare_error (h : t.Canonical) (he : t.kind a = .error ∨ t.kind b = .error) :
    t.compare a b = .zero := by
  rw [h.compare_eq, priceBy]
  rcases he with he | he <;> split <;> simp [he]
  cases t.kind a <;> rfl

theorem compare_named (h : t.Canonical) (ha : t.kind a = .named name args x)
    (hb : t.kind b = .named name' args' y) : t.compare a b = t.compare x y := by
  by_cases hab : a = b
  · subst hab
    obtain ⟨-, -, rfl⟩ := TypeKind.named.inj (ha.symm.trans hb)
    rw [compare_self, compare_self]
  · rw [h.compare_of_ne hab, priceBy, ha, hb]

theorem compare_named_left (h : t.Canonical) (ha : t.kind a = .named name args x)
    (hb : (t.kind b).isNamed = false) (he : t.kind b ≠ .error) :
    t.compare a b = t.compare x b + .dename := by
  have hab : a ≠ b := by
    rintro rfl
    simp [ha, TypeKind.isNamed] at hb
  rw [h.compare_of_ne hab, priceBy, ha]
  cases hk : t.kind b <;> simp_all [TypeKind.isNamed]

theorem compare_named_right (h : t.Canonical) (ha : (t.kind a).isNamed = false)
    (he : t.kind a ≠ .error) (hb : t.kind b = .named name args y) :
    t.compare a b = t.compare a y + .dename := by
  have hab : a ≠ b := by
    rintro rfl
    simp [hb, TypeKind.isNamed] at ha
  rw [h.compare_of_ne hab, priceBy, hb]
  cases hk : t.kind a <;> simp_all [TypeKind.isNamed]

theorem compare_param_le (h : t.Canonical)
    (hp : (t.kind a).isParam = true ∨ (t.kind b).isParam = true)
    (ha : (t.kind a).isNamed = false) (hb : (t.kind b).isNamed = false) :
    (t.compare a b).le .param = true := by
  rw [h.compare_eq, priceBy]
  cases hka : t.kind a <;> cases hkb : t.kind b <;>
    simp_all [TypeKind.isNamed, TypeKind.isParam] <;> split <;> simp [Cost.le_refl]

theorem compare_tuple (h : t.Canonical) (ha : t.kind a = .tuple xs) (hb : t.kind b = .tuple ys) :
    t.compare a b = if xs.length = ys.length then fieldsCost t.compare xs ys else .invalid := by
  by_cases hab : a = b
  · subst hab
    obtain rfl := TypeKind.tuple.inj (ha.symm.trans hb)
    rw [compare_self, if_pos rfl, fieldsCost_self]
  · rw [h.compare_of_ne hab, priceBy, ha, hb]

theorem compare_single_left (h : t.Canonical) (ha : t.kind a = .tuple [f])
    (hb : (t.kind b).isPlain = true) : t.compare a b = t.compare f.type b := by
  have hab : a ≠ b := by
    rintro rfl
    simp [ha, TypeKind.isPlain] at hb
  rw [h.compare_of_ne hab, priceBy, ha]
  cases hk : t.kind b <;> simp_all [TypeKind.isPlain]

theorem compare_single_right (h : t.Canonical) (ha : (t.kind a).isPlain = true)
    (hb : t.kind b = .tuple [g]) : t.compare a b = t.compare a g.type := by
  have hab : a ≠ b := by
    rintro rfl
    simp [hb, TypeKind.isPlain] at ha
  rw [h.compare_of_ne hab, priceBy, hb]
  cases hk : t.kind a <;> simp_all [TypeKind.isPlain]

theorem compare_primitive (h : t.Canonical) (ha : t.kind a = .primitive p)
    (hb : t.kind b = .primitive q) : t.compare a b = .primitive p q := by
  by_cases hab : a = b
  · subst hab
    obtain rfl := TypeKind.primitive.inj (ha.symm.trans hb)
    rw [compare_self, Cost.primitive, if_pos rfl]
  · rw [h.compare_of_ne hab, priceBy, ha, hb]

theorem compare_list (h : t.Canonical) (ha : t.kind a = .list x m) (hb : t.kind b = .list y n) :
    t.compare a b = lengthCost m n + t.compare x y := by
  by_cases hab : a = b
  · subst hab
    obtain ⟨rfl, rfl⟩ := TypeKind.list.inj (ha.symm.trans hb)
    rw [compare_self, compare_self, lengthCost_self, Cost.zero_add_zero]
  · rw [h.compare_of_ne hab, priceBy, ha, hb]

theorem compare_reference (h : t.Canonical) (ha : t.kind a = .reference x)
    (hb : t.kind b = .reference y) :
    t.compare a b = if t.compare x y = .zero then .zero else .invalid := by
  by_cases hab : a = b
  · subst hab
    obtain rfl := TypeKind.reference.inj (ha.symm.trans hb)
    rw [compare_self, compare_self, if_pos rfl]
  · rw [h.compare_of_ne hab, priceBy, ha, hb]

theorem compare_func (h : t.Canonical) (ha : t.kind a = .func x r) (hb : t.kind b = .func y s) :
    t.compare a b = t.compare x y + t.compare r s := by
  by_cases hab : a = b
  · subst hab
    obtain ⟨rfl, rfl⟩ := TypeKind.func.inj (ha.symm.trans hb)
    rw [compare_self, compare_self, compare_self, Cost.zero_add_zero]
  · rw [h.compare_of_ne hab, priceBy, ha, hb]

end Canonical

end

/-- The rules by which a conversion gets its cost. -/
inductive Priced (t : TypeTable) (a b : TypeId) : Cost → Prop
  | same (h : a = b) : Priced t a b .zero
  | error (h : t.kind a = .error ∨ t.kind b = .error) : Priced t a b .zero
  | named (ha : t.kind a = .named name args x) (hb : t.kind b = .named name' args' y) :
    Priced t a b (t.compare x y)
  | namedLeft (ha : t.kind a = .named name args x) (hb : (t.kind b).isNamed = false) :
    Priced t a b (t.compare x b + .dename)
  | namedRight (ha : (t.kind a).isNamed = false) (hb : t.kind b = .named name args y) :
    Priced t a b (t.compare a y + .dename)
  | param (h : (t.kind a).isParam = true ∨ (t.kind b).isParam = true)
    (ha : (t.kind a).isNamed = false) (hb : (t.kind b).isNamed = false) : Priced t a b .param
  | tuple (ha : t.kind a = .tuple xs) (hb : t.kind b = .tuple ys)
    (hlength : xs.length = ys.length) : Priced t a b (fieldsCost t.compare xs ys)
  | singleLeft (ha : t.kind a = .tuple [f]) (hb : (t.kind b).isPlain = true) :
    Priced t a b (t.compare f.type b)
  | singleRight (ha : (t.kind a).isPlain = true) (hb : t.kind b = .tuple [g]) :
    Priced t a b (t.compare a g.type)
  | primitive (ha : t.kind a = .primitive p) (hb : t.kind b = .primitive q) :
    Priced t a b (.primitive p q)
  | list (ha : t.kind a = .list x m) (hb : t.kind b = .list y n) :
    Priced t a b (lengthCost m n + t.compare x y)
  | reference (ha : t.kind a = .reference x) (hb : t.kind b = .reference y)
    (hzero : t.compare x y = .zero) : Priced t a b .zero
  | func (ha : t.kind a = .func x r) (hb : t.kind b = .func y s) :
    Priced t a b (t.compare x y + t.compare r s)
  | invalid : Priced t a b .invalid

theorem Canonical.priced (h : t.Canonical) (a b : TypeId) : t.Priced a b (t.compare a b) := by
  rw [h.compare_eq]
  split
  · next hab => exact .same hab
  unfold priceBy
  split
  · next ha => exact .error (.inl ha)
  · next hb _ => exact .error (.inr hb)
  · next ha hb => exact .named ha hb
  · next ha _ hb => exact .namedLeft ha (isNamed_eq_false hb)
  · next hb _ ha => exact .namedRight (isNamed_eq_false ha) hb
  · next ha _ hb => refine .param (.inl ?_) ?_ (isNamed_eq_false hb) <;> rw [ha] <;> rfl
  · next hb _ ha _ => refine .param (.inr ?_) (isNamed_eq_false ha) ?_ <;> rw [hb] <;> rfl
  · next ha hb =>
    split
    · next hlength => exact .tuple ha hb hlength
    · exact .invalid
  · next ha h₁ h₂ h₃ h₄ => exact .singleLeft ha (isPlain_eq_true h₁ h₂ h₃ h₄)
  · next hb h₁ h₂ h₃ h₄ => exact .singleRight (isPlain_eq_true h₁ h₂ h₃ h₄) hb
  · next ha hb => exact .primitive ha hb
  · next ha hb => exact .list ha hb
  · next ha hb =>
    split
    · next hzero => exact .reference ha hb hzero
    · exact .invalid
  · next ha hb => exact .func ha hb
  · exact .invalid

-- ---------------------------------------------------------------------------
-- Names on top
-- ---------------------------------------------------------------------------

def nameCountWithin (t : TypeTable) : Nat → TypeId → Nat
  | 0, _ => 0
  | depth + 1, id =>
    match t.kind id with
    | .named _ _ expanded => t.nameCountWithin depth expanded + 1
    | _ => 0

/-- How many names are on top of a type. -/
def nameCount (t : TypeTable) (id : TypeId) : Nat := t.nameCountWithin (id.index + 1) id

namespace Canonical

theorem stripNamedWithin_eq (h : t.Canonical) {m n : Nat} (hm : a.index < m) (hn : a.index < n) :
    t.stripNamedWithin m a = t.stripNamedWithin n a ∧
      t.nameCountWithin m a = t.nameCountWithin n a := by
  induction m generalizing n a with
  | zero => exact absurd hm (Nat.not_lt_zero _)
  | succ m ih =>
    cases n with
    | zero => exact absurd hn (Nat.not_lt_zero _)
    | succ n =>
      have hparts := h.ordered a
      unfold stripNamedWithin nameCountWithin
      cases hk : t.kind a with
      | named name args x =>
        have hx : x.index < a.index := hparts x (by simp [hk, TypeKind.parts])
        obtain ⟨hstrip, hcount⟩ := ih (a := x) (n := n) (by omega) (by omega)
        exact ⟨hstrip, congrArg (· + 1) hcount⟩
      | _ => exact ⟨rfl, rfl⟩

/-- A name more on top. -/
theorem strip_named (h : t.Canonical) (ha : t.kind a = .named name args x) :
    t.stripNamed a = t.stripNamed x ∧ t.nameCount a = t.nameCount x + 1 := by
  have hx : x.index < a.index := h.ordered a x (by simp [ha, TypeKind.parts])
  obtain ⟨hstrip, hcount⟩ := h.stripNamedWithin_eq (a := x) hx (Nat.lt_succ_self _)
  unfold stripNamed nameCount
  rw [stripNamedWithin, nameCountWithin, ha]
  exact ⟨hstrip, congrArg (· + 1) hcount⟩

end Canonical

theorem strip_of_not_named (ha : (t.kind a).isNamed = false) :
    t.stripNamed a = a ∧ t.nameCount a = 0 := by
  unfold stripNamed nameCount
  rw [stripNamedWithin, nameCountWithin]
  cases hk : t.kind a with
  | named name args x => simp [hk, TypeKind.isNamed] at ha
  | _ => exact ⟨rfl, rfl⟩

/-- Types that are added later have no part in the names of the others. -/
theorem Canonical.stripWithin_extends (h : t.Canonical) (hu : t.Extends u) (ha : t.Has a)
    (depth : Nat) :
    u.stripNamedWithin depth a = t.stripNamedWithin depth a ∧
      u.nameCountWithin depth a = t.nameCountWithin depth a ∧
      t.Has (t.stripNamedWithin depth a) := by
  induction depth generalizing a with
  | zero => exact ⟨rfl, rfl, ha⟩
  | succ depth ih =>
    unfold stripNamedWithin nameCountWithin
    rw [hu.kind ha]
    cases hk : t.kind a with
    | named name args x =>
      obtain ⟨hstrip, hcount, hhas⟩ := ih (h.has_part ha (by simp [hk, TypeKind.parts]) : t.Has x)
      exact ⟨hstrip, congrArg (· + 1) hcount, hhas⟩
    | _ => exact ⟨rfl, rfl, ha⟩

theorem Canonical.underlying_extends (h : t.Canonical) (hu : t.Extends u) (ha : t.Has a) :
    u.underlying? a = t.underlying? a ∧ u.nameCount a = t.nameCount a := by
  obtain ⟨hstrip, hcount, hhas⟩ := h.stripWithin_extends hu ha (a.index + 1)
  have hkind := hu.kind hhas
  refine ⟨?_, hcount⟩
  simp only [underlying?, primitive?, stripNamed, hstrip, hkind]

theorem bounded_fieldsCost {cost : TypeId → TypeId → Cost} (xs ys : List TypeField) :
    (fieldsCost cost xs ys).Bounded := by
  fun_induction fieldsCost cost xs ys with
  | case1 => exact Cost.bounded_valid (Nat.zero_le _)
  | case2 => exact Cost.bounded_invalid
  | case3 => exact Cost.bounded_invalid
  | case4 => exact Cost.bounded_add _ _
  | case5 => exact Cost.bounded_invalid

theorem bounded_compareWithin (t : TypeTable) (depth : Nat) (a b : TypeId) :
    (t.compareWithin depth a b).Bounded := by
  induction depth generalizing a b with
  | zero => exact Cost.bounded_invalid
  | succ depth ih =>
    have hzero : Cost.Bounded .zero := Cost.bounded_valid (Nat.zero_le _)
    rw [compareWithin_succ]
    split
    · exact hzero
    unfold priceBy
    split
    case h_3 | h_9 | h_10 => exact ih _ _
    case h_4 | h_5 | h_12 | h_14 => exact Cost.bounded_add _ _
    case h_6 | h_7 => exact Cost.bounded_valid (by decide)
    case h_8 => split; exact bounded_fieldsCost _ _; exact Cost.bounded_invalid
    case h_11 => exact Cost.bounded_primitive _ _
    case h_13 => split; exact hzero; exact Cost.bounded_invalid
    case h_15 => exact Cost.bounded_invalid
    all_goals exact hzero

theorem bounded_compare (t : TypeTable) (a b : TypeId) : (t.compare a b).Bounded :=
  t.bounded_compareWithin _ a b

theorem isError_stripNamed_eq_false (ha : (t.kind a).isNamed = false)
    (he : t.isError (t.stripNamed a) = false) : t.kind a ≠ .error := by
  rw [(strip_of_not_named ha).1] at he
  simpa [isError] using he

/-- Looking through names costs one for each that one type has more than the other. -/
theorem Canonical.compare_strip (h : t.Canonical) (a b : TypeId)
    (ha : t.isError (t.stripNamed a) = false) (hb : t.isError (t.stripNamed b) = false) :
    t.compare a b = t.compare (t.stripNamed a) (t.stripNamed b) +
      .valid (Nat.dist (t.nameCount a) (t.nameCount b)) := by
  cases hna : (t.kind a).isNamed <;> cases hnb : (t.kind b).isNamed
  · obtain ⟨hsa, hca⟩ := strip_of_not_named hna
    obtain ⟨hsb, hcb⟩ := strip_of_not_named hnb
    rw [hsa, hsb, hca, hcb, Nat.dist_self]
    exact (t.bounded_compare a b).add_zero.symm
  · obtain ⟨name, args, y, hkb⟩ := TypeKind.exists_of_isNamed hnb
    obtain ⟨hsa, hca⟩ := strip_of_not_named hna
    obtain ⟨hsb, hcb⟩ := h.strip_named hkb
    have hy : y.index < b.index := h.ordered b y (by simp [hkb, TypeKind.parts])
    rw [h.compare_named_right hna (isError_stripNamed_eq_false hna ha) hkb,
      compare_strip h a y ha (hsb ▸ hb), Cost.add_dename, hsb, hcb, hca]
    simp [Nat.dist]
  · obtain ⟨name, args, x, hka⟩ := TypeKind.exists_of_isNamed hna
    obtain ⟨hsa, hca⟩ := h.strip_named hka
    obtain ⟨hsb, hcb⟩ := strip_of_not_named hnb
    have hx : x.index < a.index := h.ordered a x (by simp [hka, TypeKind.parts])
    rw [h.compare_named_left hka hnb (isError_stripNamed_eq_false hnb hb),
      compare_strip h x b (hsa ▸ ha) hb, Cost.add_dename, hsa, hca, hcb]
    simp [Nat.dist]
  · obtain ⟨name, args, x, hka⟩ := TypeKind.exists_of_isNamed hna
    obtain ⟨name', args', y, hkb⟩ := TypeKind.exists_of_isNamed hnb
    obtain ⟨hsa, hca⟩ := h.strip_named hka
    obtain ⟨hsb, hcb⟩ := h.strip_named hkb
    have hx : x.index < a.index := h.ordered a x (by simp [hka, TypeKind.parts])
    have hy : y.index < b.index := h.ordered b y (by simp [hkb, TypeKind.parts])
    rw [h.compare_named hka hkb, compare_strip h x y (hsa ▸ ha) (hsb ▸ hb), hsa, hsb, hca, hcb,
      Nat.dist_succ_succ]
termination_by a.index + b.index

/-- What a conversion costs depends on how many names are on top of each type, not on the order
in which they are looked through. -/
theorem Built.compare_stripNamed (h : t.Built) (a b : TypeId)
    (ha : t.isError (t.stripNamed a) = false) (hb : t.isError (t.stripNamed b) = false) :
    t.compare a b = t.compare (t.stripNamed a) (t.stripNamed b) +
      .valid (Nat.dist (t.nameCount a) (t.nameCount b)) :=
  h.settled.canonical.compare_strip a b ha hb

/-- A length in whole numbers, and a depth that is such a length. -/
def unitTable : TypeTable :=
  let (length, t) := (new fun _ => 0).makeNamed Primitive.int32.typeId "Length" [] []
  (t.makeNamed length "Depth" [] []).2

theorem built_unitTable : unitTable.Built := by
  have hlength := (Built.new fun _ => 0).request
    (.named Primitive.int32.typeId "Length" [] []) (by decide)
  exact hlength.request (.named ⟨10⟩ "Depth" [] []) (by decide)

/-- A depth has two names, so it becomes a wider number at two more than what the widening
costs. -/
theorem compare_stripNamed_unitTable :
    (unitTable.Built ∧ unitTable.isError (unitTable.stripNamed ⟨11⟩) = false ∧
      unitTable.isError (unitTable.stripNamed Primitive.int64.typeId) = false) ∧
    unitTable.compare ⟨11⟩ Primitive.int64.typeId =
      unitTable.compare (unitTable.stripNamed ⟨11⟩)
        (unitTable.stripNamed Primitive.int64.typeId) +
        .valid (Nat.dist (unitTable.nameCount ⟨11⟩)
          (unitTable.nameCount Primitive.int64.typeId)) ∧
    unitTable.nameCount ⟨11⟩ = 2 ∧ unitTable.compare ⟨11⟩ Primitive.int64.typeId = .valid 3 :=
  ⟨⟨built_unitTable, by decide, by decide⟩,
    built_unitTable.compare_stripNamed ⟨11⟩ Primitive.int64.typeId (by decide) (by decide),
    by decide, by decide⟩

end TypeTable
end BlockLang
