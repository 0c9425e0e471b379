import BlockLang.Proofs.Value.Integer
import BlockLang.Proofs.Value.Store

/-!
# Calculating with constant integers

All widths calculate with 64 bits and cut the result when it is stored. What comes out is
the exact result on unbounded integers, brought into the range of the operand type once.
-/

namespace BlockLang

/-- The result of an operator when no bits are lost. -/
inductive Exact where
  | number (n : Int)
  | truth (b : Bool)
  /-- Of a division by zero. -/
  | undefined
deriving DecidableEq

/-- Quotients are cut toward zero, and a remainder has the sign of the dividend. -/
def BinaryOp.exact (op : BinaryOp) (x y : Int) : Exact :=
  match op with
  | .add => .number (x + y)
  | .sub => .number (x - y)
  | .mul => .number (x * y)
  | .div => if y = 0 then .undefined else .number (x.tdiv y)
  | .rem => if y = 0 then .undefined else .number (x.tmod y)
  | .eq => .truth (x = y)
  | .ne => .truth (x ≠ y)
  | .lt => .truth (x < y)
  | .le => .truth (x ≤ y)
  | .gt => .truth (y < x)
  | .ge => .truth (y ≤ x)
  | .and | .or => .undefined

def Builtin.Kind.exact : Builtin.Kind → List Int → Exact
  | .binary op, [x, y] => op.exact x y
  | .unary .neg, [x] => .number (-x)
  | _, _ => .undefined

/-- An outcome on 64 bits has the lowest bits of an exact result. -/
inductive Computes : Exact → Folded Scalar → Prop
  | number {r : Int64} (h : r.toInt = n.bmod (2 ^ 64)) : Computes (.number n) (.value (.int r))
  | truth : Computes (.truth b) (.value (.bool b))
  | undefined : Computes .undefined .divisionByZero

/-- The outcome of folding operands of a primitive is an exact result in the range of the
primitive, or a truth value, noted with its type. -/
inductive Agrees (p : Primitive) (type : TypeId) : Exact → Folded (ValueId × Heap) → Prop
  | number {r : ValueId × Heap} {z : Int64} (htype : r.2.type? r.1 = some type)
    (hprimitive : r.2.primitive? r.1 = some p) (hpayload : r.2.int? r.1 = some z)
    (hwraps : p.Wraps n z.toInt) : Agrees p type (.number n) (.value r)
  | truth {r : ValueId × Heap} (htype : r.2.type? r.1 = some type)
    (hprimitive : r.2.primitive? r.1 = some .bool) (hpayload : r.2.bool? r.1 = some b) :
    Agrees p type (.truth b) (.value r)
  | undefined : Agrees p type .undefined .divisionByZero

variable {p : Primitive} {type : TypeId} {b : Builtin}

-- ---------------------------------------------------------------------------
-- Operators on 64 bits
-- ---------------------------------------------------------------------------

theorem computes_binaryInt {op : BinaryOp} (hop : op.promotesOperands = true) (x y : Int64) :
    Computes (op.exact x.toInt y.toInt) (Scalar.binaryInt op x y) := by
  have hzero : y.toInt = 0 ↔ y = 0 := by rw [← Int64.toInt_zero, Int64.toInt_inj]
  have htruth {a c : Bool} (h : a = c) : Computes (.truth a) (.value (.bool c)) := h ▸ .truth
  cases op with
  | add => exact .number (Int64.toInt_add x y)
  | sub => exact .number (Int64.toInt_sub x y)
  | mul => exact .number (Int64.toInt_mul x y)
  | div =>
    by_cases hy : y = 0
    · simp only [BinaryOp.exact, Scalar.binaryInt, hy, Int64.toInt_zero, if_true]
      exact .undefined
    · simp only [BinaryOp.exact, Scalar.binaryInt, hzero, hy, if_false]
      exact .number (Int64.toInt_div x y)
  | rem =>
    by_cases hy : y = 0
    · simp only [BinaryOp.exact, Scalar.binaryInt, hy, Int64.toInt_zero, if_true]
      exact .undefined
    · simp only [BinaryOp.exact, Scalar.binaryInt, hzero, hy, if_false]
      refine .number ?_
      rw [← Int64.toInt_mod]
      exact (Int64.toInt_bmod _).symm
  | eq => exact htruth (by simp [Int64.toInt_inj, beq_eq_decide])
  | ne => exact htruth (by simp [Int64.toInt_inj, bne, beq_eq_decide])
  | lt => exact htruth (decide_eq_decide.mpr Int64.lt_iff_toInt_lt.symm)
  | le => exact htruth (decide_eq_decide.mpr Int64.le_iff_toInt_le.symm)
  | gt => exact htruth (decide_eq_decide.mpr Int64.lt_iff_toInt_lt.symm)
  | ge => exact htruth (decide_eq_decide.mpr Int64.le_iff_toInt_le.symm)
  | and | or => cases hop

/-- No integer type declares one of the operators that are for truth values alone. -/
theorem Builtin.kind_of_integer (hb : b ∈ Builtin.all) (hp : b.operand.isInteger) :
    (∃ op : BinaryOp, op.promotesOperands = true ∧ b.kind = .binary op) ∨ b.kind = .unary .neg := by
  have hall : ∀ b ∈ Builtin.all, b.operand.isInteger →
      b.kind ≠ .binary .and ∧ b.kind ≠ .binary .or ∧ b.kind ≠ .unary .not := by decide +kernel
  obtain ⟨hand, hor, hnot⟩ := hall b hb hp
  cases hkind : b.kind with
  | binary op =>
    refine .inl ⟨op, ?_, rfl⟩
    cases op with
    | and => exact absurd hkind hand
    | or => exact absurd hkind hor
    | _ => rfl
  | unary op =>
    cases op with
    | neg => exact .inr rfl
    | not => exact absurd hkind hnot

theorem computes_apply (hb : b ∈ Builtin.all) (hp : b.operand.isInteger) {xs : List Int64}
    (harity : xs.length = b.kind.arity) :
    Computes (b.kind.exact (xs.map Int64.toInt)) (Scalar.apply b (xs.map .int)) := by
  rcases b.kind_of_integer hb hp with ⟨op, hop, hkind⟩ | hkind
  · rw [hkind] at harity
    obtain ⟨x, y, rfl⟩ := List.length_eq_two.mp harity
    simp only [Scalar.apply, hkind, List.map_cons, List.map_nil, Scalar.convert_of_isInteger hp,
      Scalar.asInteger]
    exact computes_binaryInt hop x y
  · rw [hkind] at harity
    obtain ⟨x, rfl⟩ := List.length_eq_one_iff.mp harity
    simp only [Scalar.apply, hkind, List.map_cons, List.map_nil, Scalar.convert_of_isInteger hp,
      Scalar.asInteger]
    exact .number (Int64.toInt_neg x)

-- ---------------------------------------------------------------------------
-- Exact results
-- ---------------------------------------------------------------------------

theorem Builtin.result_of_truth {xs : List Int} {t : Bool} (h : b.kind.exact xs = .truth t) :
    b.result = .bool := by
  unfold Builtin.Kind.exact at h
  split at h
  · next op x y hkind =>
    rw [result, hkind]
    cases op with
    | eq | ne | lt | le | gt | ge => rfl
    | div | rem =>
      simp only [BinaryOp.exact] at h
      split at h <;> cases h
    | _ => cases h
  · cases h
  · cases h

theorem Builtin.result_of_number {xs : List Int} {n : Int} (h : b.kind.exact xs = .number n) :
    b.result = b.operand := by
  unfold Builtin.Kind.exact at h
  split at h
  · next op x y hkind =>
    rw [result, hkind]
    cases op with
    | eq | ne | lt | le | gt | ge => cases h
    | _ => rfl
  · next hkind =>
    rw [result, hkind]
    rfl
  · cases h

/-- Only a division by zero has no exact result. -/
theorem Builtin.exact_eq_undefined_iff (hb : b ∈ Builtin.all) (hp : b.operand.isInteger)
    {xs : List Int64} (harity : xs.length = b.kind.arity) :
    b.kind.exact (xs.map Int64.toInt) = .undefined ↔
      (b.kind = .binary .div ∨ b.kind = .binary .rem) ∧ xs[1]? = some 0 := by
  rcases b.kind_of_integer hb hp with ⟨op, hop, hkind⟩ | hkind
  · rw [hkind] at harity ⊢
    obtain ⟨x, y, rfl⟩ := List.length_eq_two.mp harity
    have hzero : y.toInt = 0 ↔ y = 0 := by rw [← Int64.toInt_zero, Int64.toInt_inj]
    cases op with
    | and | or => cases hop
    | div | rem => simp [Builtin.Kind.exact, BinaryOp.exact, hzero]
    | _ => simp [Builtin.Kind.exact, BinaryOp.exact]
  · rw [hkind] at harity ⊢
    obtain ⟨x, rfl⟩ := List.length_eq_one_iff.mp harity
    simp [Builtin.Kind.exact]

namespace Agrees

variable {e : Exact} {f : Folded (ValueId × Heap)}

theorem eq_divisionByZero_iff (h : Agrees p type e f) : f = .divisionByZero ↔ e = .undefined := by
  cases h with
  | number | truth => exact ⟨nofun, nofun⟩
  | undefined => exact ⟨fun _ => rfl, fun _ => rfl⟩

theorem ne_notConstant (h : Agrees p type e f) : f ≠ .notConstant := by
  cases h <;> nofun

/-- A number of the range is stored as it is. -/
theorem number_eq {n m : Int} (h : Agrees p type (.number n) f) (hm : p.Wraps n m) :
    ∃ r z, f = .value r ∧ r.2.int? r.1 = some z ∧ z.toInt = m := by
  cases h with
  | @number _ r z _ _ hpayload hwraps =>
    exact ⟨r, z, rfl, hpayload, (Primitive.wraps_iff.mp hwraps).trans
      (Primitive.wraps_iff.mp hm).symm⟩

end Agrees

-- ---------------------------------------------------------------------------
-- Folding
-- ---------------------------------------------------------------------------

namespace Heap

variable {h : Heap} {v : ValueId} {args : List ValueId} {s : Scalar}

theorem type?_ofScalar (h : Heap) (type : TypeId) (p : Primitive) (s : Scalar) :
    (h.ofScalar type p s).2.type? (h.ofScalar type p s).1 = some type := by
  rw [type?, ofScalar, cell_alloc_self]

theorem primitive?_ofScalar (h : Heap) (type : TypeId) (p : Primitive) (s : Scalar) :
    (h.ofScalar type p s).2.primitive? (h.ofScalar type p s).1 = some p := by
  rw [primitive?, ofScalar, cell_alloc_self]

theorem scalar?_ofScalar_bool (h : Heap) (type : TypeId) (t : Bool) :
    (h.ofScalar type .bool (.bool t)).2.scalar? (h.ofScalar type .bool (.bool t)).1 =
      some (.bool t) := by
  rw [scalar?, ofScalar, cell_alloc_self]
  cases t <;> rfl

theorem agrees_fold (hb : b ∈ Builtin.all) (hp : b.operand.isInteger) {xs : List Int64}
    (hargs : args.mapM h.scalar? = some (xs.map .int)) (harity : xs.length = b.kind.arity) :
    Agrees b.operand type (b.kind.exact (xs.map Int64.toInt)) (h.fold b type args) := by
  have hcomputes := computes_apply hb hp harity
  simp only [fold, hargs]
  generalize hexact : b.kind.exact (xs.map Int64.toInt) = e at hcomputes ⊢
  generalize Scalar.apply b (xs.map .int) = outcome at hcomputes ⊢
  cases hcomputes with
  | @number n r hr =>
    have hpayload := scalar?_ofScalar_int (h := h) hp type r
    rw [Builtin.result_of_number hexact]
    refine .number (type?_ofScalar ..) (primitive?_ofScalar ..) (by rw [int?, hpayload]) ?_
    rw [Primitive.wraps_iff, Primitive.toInt_ofInt_bmod hp, hr,
      Int.bmod_bmod_of_dvd (Nat.pow_dvd_pow 2 (Primitive.bits_le hp))]
  | truth =>
    rw [Builtin.result_of_truth hexact]
    exact .truth (type?_ofScalar ..) (primitive?_ofScalar ..)
      (by rw [bool?, scalar?_ofScalar_bool])
  | undefined => exact .undefined

/-- A constant of an integer primitive has an integer. -/
theorem Ordered.exists_int (ho : h.Ordered) (hp : p.isInteger) (hv : h.primitive? v = some p) :
    ∃ i, h.scalar? v = some (.int i) := by
  rw [primitive?_eq, Option.bind_eq_some_iff] at hv
  obtain ⟨place, hplace, hprimitive⟩ := hv
  obtain ⟨⟨_, bytes⟩, hbytes, hsame⟩ := Option.map_eq_some_iff.mp hprimitive
  dsimp only at hsame
  rw [hsame] at hbytes
  have hscalar : h.scalar? v = (Scalar.decode p bytes).toOption := by
    rw [scalar?_eq, hplace, Option.bind_some, hbytes, Option.bind_some]
  have hdecode := Scalar.decode_of_isInteger hp (ho.length_bytes? hbytes)
  exact ⟨_, hscalar.trans (congrArg Except.toOption hdecode)⟩

theorem Ordered.exists_ints (ho : h.Ordered) (hp : p.isInteger)
    (hargs : ∀ v ∈ args, h.primitive? v = some p) :
    ∃ xs : List Int64, xs.length = args.length ∧ args.mapM h.int? = some xs ∧
      args.mapM h.scalar? = some (xs.map .int) := by
  induction args with
  | nil => exact ⟨[], rfl, rfl, rfl⟩
  | cons v args ih =>
    obtain ⟨hv, hrest⟩ := List.forall_mem_cons.mp hargs
    obtain ⟨i, hi⟩ := ho.exists_int hp hv
    obtain ⟨xs, hlength, hints, hscalars⟩ := ih hrest
    refine ⟨i :: xs, congrArg (· + 1) hlength, ?_, ?_⟩
    · simp only [List.mapM_cons, int?, hi, hints, Option.bind_eq_bind, Option.bind_some]
      rfl
    · simp only [List.mapM_cons, hi, hscalars, Option.bind_eq_bind, Option.bind_some]
      rfl

/-- Folding a declared operator over constants of an integer primitive gives the exact result
brought into the range of the primitive, or the truth value of a comparison. The least number
divided by minus one comes back to itself and leaves no remainder. Only a division by zero
has no result, and no constant is refused. -/
theorem fold_integers (hb : h.Built) (hp : p.isInteger) (hmem : b ∈ Builtin.all)
    (hoperand : b.operand = p) (harity : args.length = b.kind.arity)
    (hargs : ∀ v ∈ args, h.primitive? v = some p) (type : TypeId) :
    ∃ xs : List Int64, args.mapM h.int? = some xs ∧
      Agrees p type (b.kind.exact (xs.map Int64.toInt)) (h.fold b type args) ∧
      (h.fold b type args = .divisionByZero ↔
        (b.kind = .binary .div ∨ b.kind = .binary .rem) ∧ xs[1]? = some 0) ∧
      h.fold b type args ≠ .notConstant ∧
      (xs.map Int64.toInt = [-2 ^ (p.bits - 1), -1] →
        (b.kind = .binary .div → ∃ r z, h.fold b type args = .value r ∧
          r.2.int? r.1 = some z ∧ z.toInt = -2 ^ (p.bits - 1)) ∧
        (b.kind = .binary .rem → ∃ r z, h.fold b type args = .value r ∧
          r.2.int? r.1 = some z ∧ z.toInt = 0)) := by
  subst hoperand
  obtain ⟨xs, hlength, hints, hscalars⟩ := hb.ordered.exists_ints hp hargs
  have hxs : xs.length = b.kind.arity := hlength.trans harity
  have hagrees : Agrees b.operand type (b.kind.exact (xs.map Int64.toInt)) (h.fold b type args) :=
    agrees_fold hmem hp hscalars hxs
  refine ⟨xs, hints, hagrees, ?_, hagrees.ne_notConstant, fun hleast => ⟨fun hkind => ?_,
    fun hkind => ?_⟩⟩
  · rw [hagrees.eq_divisionByZero_iff, b.exact_eq_undefined_iff hmem hp hxs]
  · have hexact : b.kind.exact (xs.map Int64.toInt) = .number (2 ^ (b.operand.bits - 1)) := by
      rw [hleast, hkind]
      simp [Builtin.Kind.exact, BinaryOp.exact]
    exact (hexact ▸ hagrees).number_eq (Primitive.wraps_least _)
  · have hexact : b.kind.exact (xs.map Int64.toInt) = .number 0 := by
      rw [hleast, hkind]
      simp [Builtin.Kind.exact, BinaryOp.exact]
    exact (hexact ▸ hagrees).number_eq (Primitive.wraps_zero _)

/-- The least number of eight bits, and minus one. -/
def leastHeap : Heap := [
  .scalar Primitive.int8.typeId .int8 (.int (-128)),
  .scalar Primitive.int8.typeId .int8 (.int (-1))].foldl ValueRequest.answer empty

theorem built_leastHeap : leastHeap.Built :=
  (Built.empty.request (.scalar _ .int8 (.int (-128))) nofun).request
    (.scalar _ .int8 (.int (-1))) nofun

theorem fold_integers_least :
    leastHeap.Built ∧ (⟨.binary .div, .int8⟩ : Builtin) ∈ Builtin.all ∧
      (∀ v ∈ [⟨0⟩, ⟨1⟩], leastHeap.primitive? v = some .int8) ∧
      ∃ r z, leastHeap.fold ⟨.binary .div, .int8⟩ Primitive.int8.typeId [⟨0⟩, ⟨1⟩] = .value r ∧
        r.2.int? r.1 = some z ∧ z.toInt = -128 := by
  have hmem : (⟨.binary .div, .int8⟩ : Builtin) ∈ Builtin.all := by decide
  have hargs : ∀ v ∈ [⟨0⟩, ⟨1⟩], leastHeap.primitive? v = some .int8 := by decide +kernel
  obtain ⟨xs, hints, -, -, -, hleast⟩ :=
    fold_integers built_leastHeap rfl hmem rfl rfl hargs Primitive.int8.typeId
  have hvalues : [⟨0⟩, ⟨1⟩].mapM leastHeap.int? = some [-128, -1] := by decide +kernel
  obtain rfl : xs = [-128, -1] := Option.some.inj (hints.symm.trans hvalues)
  exact ⟨built_leastHeap, hmem, hargs, (hleast (by decide)).1 rfl⟩

end Heap

end BlockLang
