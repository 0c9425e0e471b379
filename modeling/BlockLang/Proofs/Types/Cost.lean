import BlockLang.Types.Cost

/-!
# Costs in order

Every valid cost comes before the invalid one, and a sum is no less for greater parts. Sums
stop at the greatest cost, so zero adds nothing only to a cost that is no greater
(`Bounded`).
-/

namespace BlockLang

namespace Cost

theorem le_refl (a : Cost) : a.le a = true := by
  cases a <;> simp [le]

theorem le_trans {a b c : Cost} (h : a.le b = true) (h' : b.le c = true) : a.le c = true := by
  cases a <;> cases b <;> cases c <;> simp_all [le]
  omega

theorem le_antisymm {a b : Cost} (h : a.le b = true) (h' : b.le a = true) : a = b := by
  cases a <;> cases b <;> simp_all [le]
  omega

theorem le_total {a b : Cost} (h : a.le b = false) : b.le a = true := by
  cases a <;> cases b <;> simp_all [le]
  omega

@[simp] theorem le_valid (a b : Nat) : (valid a).le (valid b) = true ↔ a ≤ b := by
  simp [le]

@[simp] theorem not_invalid_le_valid (a : Nat) : invalid.le (valid a) = false := rfl

@[simp] theorem le_invalid (a : Cost) : a.le invalid = true := by
  cases a <;> rfl

@[simp] theorem zero_le (a : Cost) : zero.le a = true := by
  cases a <;> simp [zero, le]

@[simp] theorem valid_add (a b : Nat) : valid a + valid b = valid (min (a + b) greatest) := rfl
@[simp] theorem invalid_add (a : Cost) : invalid + a = invalid := by cases a <;> rfl
@[simp] theorem add_invalid (a : Cost) : a + invalid = invalid := by cases a <;> rfl

theorem add_mono {a a' b b' : Cost} (ha : a'.le a = true) (hb : b'.le b = true) :
    (a' + b').le (a + b) = true := by
  cases a <;> cases a' <;> cases b <;> cases b' <;> simp_all
  omega

@[simp] theorem zero_add_zero : zero + zero = zero := rfl

theorem eq_zero_of_le {a : Cost} (h : a.le zero = true) : a = zero := by
  cases a with
  | valid n => simpa [zero] using h
  | invalid => cases h

theorem add_dename (c : Cost) (n : Nat) : c + valid n + dename = c + valid (n + 1) := by
  cases c <;> simp [dename]
  omega

/-- No greater than the greatest cost. -/
def Bounded (c : Cost) : Prop := ∀ n, c = valid n → n ≤ greatest

theorem bounded_add (a b : Cost) : (a + b).Bounded := by
  rintro n hn
  cases a <;> cases b <;> simp at hn
  omega

theorem Bounded.add_zero {c : Cost} (h : c.Bounded) : c + zero = c := by
  cases c with
  | valid n =>
    have hn := h n rfl
    simp only [zero, valid_add, Nat.add_zero, Nat.min_eq_left hn]
  | invalid => rfl

theorem bounded_invalid : Bounded invalid := nofun

theorem bounded_valid {n : Nat} (h : n ≤ greatest) : Bounded (valid n) := by
  rintro _ ⟨⟩
  exact h

theorem bounded_primitive (p q : Primitive) : (primitive p q).Bounded := by
  cases p <;> cases q <;> first | exact bounded_invalid | exact bounded_valid (by decide)

end Cost

@[simp] theorem lengthCost_self (m : Option UInt64) : lengthCost m m = .zero := by
  cases m <;> simp [lengthCost]

end BlockLang
