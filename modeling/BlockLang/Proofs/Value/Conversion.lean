import BlockLang.Proofs.Value.Alike
import BlockLang.Proofs.Value.Folding

/-!
# Operands of another width

An operator takes the integers of its operands as they are and cuts only its result to the
width of its own. Sums, differences and products come out as if the operands had been brought
to that width first. Quotients, remainders and comparisons do so where the operands are in
its range, and in general only there.
-/

namespace BlockLang

/-- The lowest bits of the result depend on the lowest bits of the operands only. -/
def Builtin.Kind.isModular : Builtin.Kind → Bool
  | .binary .add | .binary .sub | .binary .mul | .unary .neg => true
  | _ => false

/-- No difference is left once the results are stored. -/
inductive Exact.Agree (p : Primitive) : Exact → Exact → Prop
  | number (h : n ≡ m [ZMOD 2 ^ p.bits]) : Agree p (.number n) (.number m)
  | truth : Agree p (.truth b) (.truth b)
  | undefined : Agree p .undefined .undefined

/-- The same refusal, or values that cannot be told apart. -/
inductive Folded.Alike : Folded (ValueId × Heap) → Folded (ValueId × Heap) → Prop
  | value (h : Heap.Alike r.2 r.1 q.2 q.1) : Alike (.value r) (.value q)
  | notConstant : Alike .notConstant .notConstant
  | divisionByZero : Alike .divisionByZero .divisionByZero

variable {p : Primitive} {b : Builtin}

theorem Exact.Agree.refl (p : Primitive) (e : Exact) : e.Agree p e := by
  cases e with
  | number n => exact .number (Int.ModEq.refl n)
  | truth => exact .truth
  | undefined => exact .undefined

/-- Congruent operands have congruent sums, differences and products. -/
theorem agree_of_isModular (hkind : b.kind.isModular = true) {xs ys : List Int}
    (h : List.Forall₂ (· ≡ · [ZMOD 2 ^ p.bits]) xs ys) :
    (b.kind.exact xs).Agree p (b.kind.exact ys) := by
  cases h with
  | nil => exact .refl p _
  | cons hx hxs =>
  cases hkind' : b.kind with
  | unary op =>
    cases op with
    | not => exact .refl p .undefined
    | neg =>
      cases hxs with
      | nil => exact .number hx.neg
      | cons => exact .undefined
  | binary op =>
    rw [hkind'] at hkind
    cases hxs with
    | nil => exact .undefined
    | cons hy hys =>
    cases hys with
    | cons => exact .undefined
    | nil =>
    cases op with
    | add => exact .number (hx.add hy)
    | sub => exact .number (hx.sub hy)
    | mul => exact .number (hx.mul hy)
    | _ => cases hkind

namespace Primitive

/-- The integer of the range that is stored for `x`. -/
def wrap (p : Primitive) (x : Int64) : Int64 := .ofInt (x.toInt.bmod (2 ^ p.bits))

/-- The integer is in the range. -/
def Holds (p : Primitive) (x : Int64) : Prop := p.Wraps x.toInt x.toInt

theorem toInt_wrap (hp : p.isInteger) (x : Int64) : (p.wrap x).toInt = x.toInt.bmod (2 ^ p.bits) :=
  toInt_ofInt_bmod hp x.toInt

theorem wrap_modEq (hp : p.isInteger) (x : Int64) :
    x.toInt ≡ (p.wrap x).toInt [ZMOD 2 ^ p.bits] := by
  rw [toInt_wrap hp]
  exact (wraps_iff.mpr rfl).congruent.symm

theorem Holds.wrap_eq (h : p.Holds x) : p.wrap x = x := by
  rw [wrap, ← wraps_iff.mp h, Int64.ofInt_toInt]

end Primitive

theorem agree_wrap (hp : p.isInteger) (xs : List Int64)
    (h : b.kind.isModular = true ∨ ∀ x ∈ xs, p.Holds x) :
    (b.kind.exact (xs.map Int64.toInt)).Agree p
      (b.kind.exact ((xs.map p.wrap).map Int64.toInt)) := by
  rcases h with hkind | hrange
  · refine agree_of_isModular hkind ?_
    simp only [List.forall₂_map_left_iff, List.forall₂_map_right_iff, List.forall₂_same]
    exact fun x _ => p.wrap_modEq hp x
  · have hsame : xs.map p.wrap = xs := 
      (List.map_congr_left fun x hx => (hrange x hx).wrap_eq).trans (List.map_id xs)
    rw [hsame]
    exact .refl p _

-- ---------------------------------------------------------------------------
-- Folding
-- ---------------------------------------------------------------------------

namespace Heap

variable {h k : Heap} {v : ValueId} {args : List ValueId} {type : TypeId}

/-- The payloads of `args` as a `primitive` of type `type`, one after another. -/
def castAll? (h : Heap) (type : TypeId) (p : Primitive) :
    List ValueId → Option (List ValueId × Heap)
  | [] => some ([], h)
  | v :: vs => do
    let (w, h) ← h.cast? v type p
    let (ws, h) ← castAll? h type p vs
    return (w :: ws, h)

theorem Grows.scalar? (hg : h.Grows k) (hs : h.scalar? v = some s) : k.scalar? v = some s := by
  have hv : h.Has v := has_of_cell_ne fun hcell => by simp [Heap.scalar?, hcell] at hs
  unfold Heap.scalar? at hs ⊢
  rw [hg.cell v hv]
  cases hcell : h.cell v with
  | element whole i =>
    rw [hcell] at hs
    have hwhole : h.Has whole := has_of_cell_ne fun hcell => by simp [slot?, hcell] at hs
    simpa only [slot?, hg.cell whole hwhole] using hs
  | _ =>
    rw [hcell] at hs
    exact hs

theorem Grows.scalars (hg : h.Grows k) {ss : List Scalar}
    (hs : args.mapM h.scalar? = some ss) : args.mapM k.scalar? = some ss := by
  induction args generalizing ss with
  | nil => exact hs
  | cons v args ih =>
    simp only [List.mapM_cons, Option.bind_eq_bind, Option.bind_eq_some_iff] at hs ⊢
    obtain ⟨s, hv, rest, hrest, hss⟩ := hs
    exact ⟨s, hg.scalar? hv, rest, ih hrest, hss⟩

/-- Each argument is brought into the range. -/
theorem castAll?_ints (hp : p.isInteger) {xs : List Int64}
    (hargs : args.mapM h.scalar? = some (xs.map .int)) (type : TypeId) :
    ∃ ws k, h.castAll? type p args = some (ws, k) ∧ h.Grows k ∧
      ws.mapM k.scalar? = some ((xs.map p.wrap).map .int) := by
  induction args generalizing h xs with
  | nil =>
    cases xs with
    | nil => exact ⟨[], h, rfl, .refl h, rfl⟩
    | cons => cases hargs
  | cons v args ih =>
    simp only [List.mapM_cons, Option.bind_eq_bind, Option.bind_eq_some_iff] at hargs
    obtain ⟨s, hv, rest, hrest, hxs⟩ := hargs
    cases xs with
    | nil => cases hxs
    | cons x xs =>
    obtain ⟨rfl, rfl⟩ := List.cons.inj (Option.some.inj hxs)
    have hfirst := grows_alloc h (.scalar type p ((Scalar.int x).encode p))
    obtain ⟨ws, k, hcasts, hg, hws⟩ := ih (hfirst.scalars hrest)
    have hcast : h.cast? v type p = some (h.ofScalar type p (.int x)) :=
      cast?_of_isInteger hp hv type
    have hw := hg.scalar? (scalar?_ofScalar_int (h := h) hp type x)
    refine ⟨(h.ofScalar type p (.int x)).1 :: ws, k, ?_, hfirst.trans hg, ?_⟩
    · simp only [castAll?, hcast, Option.bind_eq_bind, Option.bind_some]
      exact congrArg (Option.bind · _) hcasts
    · simp only [List.mapM_cons, hw, hws]
      rfl

theorem alike_ofScalar (h k : Heap) (type : TypeId) {p : Primitive} {s s' : Scalar}
    (hbytes : s.encode p = s'.encode p) :
    Alike (h.ofScalar type p s).2 (h.ofScalar type p s).1
      (k.ofScalar type p s').2 (k.ofScalar type p s').1 := by
  refine alike_of_single (cell_alloc_self h _) ?_ rfl rfl
  rw [hbytes]
  exact cell_alloc_self k _

theorem apply_of_arity_ne {xs : List Int64} (harity : xs.length ≠ b.kind.arity) :
    Scalar.apply b (xs.map .int) = .notConstant := by
  unfold Scalar.apply
  split
  · next hkind hx =>
    rw [hkind] at harity
    exact absurd (by simpa [Builtin.Kind.arity] using congrArg List.length hx) harity
  · next hkind hxs =>
    rw [hkind] at harity
    exact absurd (by simpa [Builtin.Kind.arity] using congrArg List.length hxs) harity
  · rfl

/-- What decides about the outcome is the exact result, to as many bits as are stored. -/
theorem alike_fold (hmem : b ∈ Builtin.all) (hp : b.operand.isInteger) {xs ys : List Int64}
    (hargs : args.mapM h.scalar? = some (xs.map .int))
    (hws : ws.mapM k.scalar? = some (ys.map .int)) (hlength : xs.length = ys.length)
    (hagree : (b.kind.exact (xs.map Int64.toInt)).Agree b.operand
      (b.kind.exact (ys.map Int64.toInt))) (type : TypeId) :
    Folded.Alike (h.fold b type args) (k.fold b type ws) := by
  by_cases harity : xs.length = b.kind.arity
  · have hx := computes_apply hmem hp harity
    have hy := computes_apply hmem hp (hlength.symm.trans harity)
    simp only [fold, hargs, hws]
    generalize hexact : b.kind.exact (xs.map Int64.toInt) = e at hx hagree
    generalize hexact' : b.kind.exact (ys.map Int64.toInt) = e' at hy hagree
    generalize Scalar.apply b (xs.map .int) = outcome at hx ⊢
    generalize Scalar.apply b (ys.map .int) = outcome' at hy ⊢
    cases hagree with
    | number hnm =>
      cases hx with
      | number hr =>
      cases hy with
      | number hr' =>
      rw [Builtin.result_of_number hexact]
      refine .value (alike_ofScalar h k type (Scalar.encode_int_congr hp ?_))
      have hdvd : 2 ^ b.operand.bits ∣ 2 ^ 64 := Nat.pow_dvd_pow 2 (Primitive.bits_le hp)
      rw [hr, hr', Scalar.bmod_emod_of_dvd hdvd, Scalar.bmod_emod_of_dvd hdvd]
      push_cast
      exact hnm
    | truth =>
      cases hx
      cases hy
      exact .value (alike_ofScalar h k type rfl)
    | undefined =>
      cases hx
      cases hy
      exact .divisionByZero
  · have harity' : ys.length ≠ b.kind.arity := hlength ▸ harity
    simp only [fold, hargs, hws, apply_of_arity_ne harity, apply_of_arity_ne harity']
    exact .notConstant

theorem Ordered.exists_ints_of_any (ho : h.Ordered)
    (hargs : ∀ v ∈ args, ∃ q : Primitive, q.isInteger ∧ h.primitive? v = some q) :
    ∃ xs : List Int64, args.mapM h.int? = some xs ∧
      args.mapM h.scalar? = some (xs.map .int) := by
  induction args with
  | nil => exact ⟨[], rfl, rfl⟩
  | cons v args ih =>
    obtain ⟨⟨q, hq, hv⟩, hrest⟩ := List.forall_mem_cons.mp hargs
    obtain ⟨i, hi⟩ := ho.exists_int hq hv
    obtain ⟨xs, hints, hscalars⟩ := ih hrest
    refine ⟨i :: xs, ?_, ?_⟩
    · simp [int?, hi, hints]
    · simp [hi, hscalars]

/-- Operands may be brought to the width of an operator before it is applied, if it is a sum,
a difference, a product or a negation, and for any operator if they are in its range. -/
theorem fold_castAll? (hb : h.Built) (hmem : b ∈ Builtin.all) (hp : b.operand.isInteger)
    (hargs : ∀ v ∈ args, ∃ q : Primitive, q.isInteger ∧ h.primitive? v = some q)
    (type type' : TypeId) :
    ∃ xs ws k, args.mapM h.int? = some xs ∧ h.castAll? type' b.operand args = some (ws, k) ∧
      ((b.kind.isModular = true ∨ ∀ x ∈ xs, b.operand.Holds x) →
        Folded.Alike (h.fold b type args) (k.fold b type ws)) := by
  obtain ⟨xs, hints, hscalars⟩ := hb.ordered.exists_ints_of_any hargs
  obtain ⟨ws, k, hcasts, -, hws⟩ := castAll?_ints hp hscalars type'
  refine ⟨xs, ws, k, hints, hcasts, fun hcond => ?_⟩
  exact alike_fold hmem hp hscalars hws (List.length_map _).symm (agree_wrap hp xs hcond) type

/-- One, and a number whose lowest eight bits are zero. -/
def wideHeap : Heap := [
  .scalar Primitive.int64.typeId .int64 (.int 1),
  .scalar Primitive.int64.typeId .int64 (.int 256)].foldl ValueRequest.answer empty

/-- Out of the range a divisor may become zero only by the conversion. -/
theorem fold_castAll?_wide : ∃ r ws k,
    wideHeap.fold ⟨.binary .div, .int8⟩ Primitive.int8.typeId [⟨0⟩, ⟨1⟩] = .value r ∧
    wideHeap.castAll? Primitive.int8.typeId .int8 [⟨0⟩, ⟨1⟩] = some (ws, k) ∧
    k.fold ⟨.binary .div, .int8⟩ Primitive.int8.typeId ws = .divisionByZero :=
  ⟨_, _, _, rfl, rfl, rfl⟩

end Heap

end BlockLang
