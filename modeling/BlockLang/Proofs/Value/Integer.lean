import Mathlib.Data.Int.ModEq
import BlockLang.Proofs.Value.Storage

/-!
# Integers in bytes

An integer primitive stores the integers of its range in two's complement. Storing another
integer leaves the one of the range that is congruent to it, and no two rows of bytes stand
for the same integer. Storing through a wider primitive first makes no difference.
-/

namespace BlockLang

namespace Primitive

/-- Storage in bits. -/
def bits (p : Primitive) : Nat := 8 * p.size

/-- `m` is what a primitive makes of the integer `n`: the one of its range that is congruent
to it modulo the number of its bit patterns. -/
structure Wraps (p : Primitive) (n m : Int) : Prop where
  lower : -2 ^ (p.bits - 1) ≤ m
  upper : m < 2 ^ (p.bits - 1)
  congruent : m ≡ n [ZMOD 2 ^ p.bits]

variable {p q : Primitive} {n m : Int}

theorem bits_pos (p : Primitive) : 0 < p.bits := by
  cases p <;> decide

theorem bits_le (hp : p.isInteger) : p.bits ≤ 64 := by
  cases p with
  | int8 | int16 | int32 | int64 => decide
  | bool | float32 | float64 | float80 => cases hp

theorem pow_size (p : Primitive) : Nat.pow 256 p.size = 2 ^ p.bits := by
  rw [bits, Nat.pow_mul]
  rfl

theorem two_pow_bits (p : Primitive) : ((2 ^ p.bits : Nat) : Int) = 2 * 2 ^ (p.bits - 1) := by
  push_cast
  rw [← pow_succ', Nat.sub_add_cancel p.bits_pos]

theorem wraps_iff : p.Wraps n m ↔ m = n.bmod (2 ^ p.bits) := by
  have htwice := p.two_pow_bits
  have hcongruent : m ≡ n [ZMOD 2 ^ p.bits] ↔ ((2 ^ p.bits : Nat) : Int) ∣ m - n := by
    rw [Int.modEq_comm, Int.modEq_iff_dvd]
    push_cast
    rfl
  rw [eq_comm, Int.bmod_eq_iff (Nat.two_pow_pos _), ← hcongruent]
  constructor
  · rintro ⟨hlower, hupper, hm⟩
    exact ⟨by omega, by omega, hm⟩
  · rintro ⟨hlower, hupper, hm⟩
    exact ⟨by omega, by omega, hm⟩

theorem wraps_zero (p : Primitive) : p.Wraps 0 0 := by
  rw [wraps_iff, Int.zero_bmod]

/-- The least number has no counterpart, so that its negation is itself. -/
theorem wraps_least (p : Primitive) : p.Wraps (2 ^ (p.bits - 1)) (-2 ^ (p.bits - 1)) := by
  rw [wraps_iff, Int.bmod_eq_neg (Int.pow_nonneg (by decide)) p.two_pow_bits]

/-- What an integer primitive stores is an integer of 64 bits. -/
theorem toInt_ofInt_bmod (hp : p.isInteger) (n : Int) :
    (Int64.ofInt (n.bmod (2 ^ p.bits))).toInt = n.bmod (2 ^ p.bits) := by
  obtain ⟨hlower, hupper, -⟩ := wraps_iff.mpr (rfl : n.bmod (2 ^ p.bits) = _)
  have hwidth : (2 : Int) ^ (p.bits - 1) ≤ 2 ^ 63 := by
    have hbits := bits_le hp
    exact_mod_cast Nat.pow_le_pow_right (by decide : 0 < 2) (by omega : p.bits - 1 ≤ 63)
  exact Int64.toInt_ofInt_of_le (by omega) (by omega)

end Primitive

namespace Scalar

open Primitive

variable {p q : Primitive}

-- ---------------------------------------------------------------------------
-- Bytes
-- ---------------------------------------------------------------------------

theorem lowBytes_ofBytes (bytes : List UInt8) : lowBytes (ofBytes bytes) bytes.length = bytes := by
  induction bytes with
  | nil => rfl
  | cons b bytes ih =>
    have hb : b.toNat < 256 := b.toNat_lt
    have hrest : (b.toNat + 256 * ofBytes bytes) / 256 = ofBytes bytes := by omega
    rw [List.length_cons, ofBytes, lowBytes, hrest, ih]
    congr 1
    apply UInt8.toNat_inj.mp
    rw [UInt8.toNat_ofNat']
    omega

/-- A row of bytes is given by its number. -/
theorem ofBytes_inj {xs ys : List UInt8} (hlength : xs.length = ys.length)
    (h : ofBytes xs = ofBytes ys) : xs = ys := by
  rw [← lowBytes_ofBytes xs, ← lowBytes_ofBytes ys, hlength, h]

theorem ofBytes_lt (bytes : List UInt8) : ofBytes bytes < 256 ^ bytes.length := by
  induction bytes with
  | nil => exact Nat.one_pos
  | cons b bytes ih =>
    have hb : b.toNat < 256 := b.toNat_lt
    rw [ofBytes, List.length_cons, Nat.pow_succ]
    omega

theorem bmod_emod_of_dvd {n m : Nat} (h : m ∣ n) (x : Int) : x.bmod n % m = x % m := by
  have hdvd : (m : Int) ∣ n := Int.natCast_dvd_natCast.mpr h
  rw [← Int.emod_emod_of_dvd (x.bmod n) hdvd, Int.bmod_emod, Int.emod_emod_of_dvd x hdvd]

-- ---------------------------------------------------------------------------
-- Storing and reading
-- ---------------------------------------------------------------------------

/-- Of an integer the lowest bits are stored. -/
theorem ofBytes_encode (hp : p.isInteger) (i : Int64) :
    (ofBytes ((int i).encode p) : Int) = i.toInt % (2 ^ p.bits : Nat) := by
  have hencode : (int i).encode p = lowBytes i.toUInt64.toNat p.size := by
    cases p with
    | int8 | int16 | int32 | int64 => rfl
    | bool | float32 | float64 | float80 => cases hp
  have hnumber : i.toInt = (i.toUInt64.toNat : Int).bmod (2 ^ 64) :=
    i.toBitVec.toInt_eq_toNat_bmod
  rw [hencode, ofBytes_lowBytes, pow_size, hnumber,
    bmod_emod_of_dvd (Nat.pow_dvd_pow 2 (bits_le hp)), Int.natCast_emod]

theorem ofBytes_append (xs ys : List UInt8) :
    ofBytes (xs ++ ys) = ofBytes xs + 256 ^ xs.length * ofBytes ys := by
  induction xs with
  | nil => simp [ofBytes]
  | cons b xs ih =>
    rw [List.cons_append, ofBytes, ih, ofBytes, List.length_cons, Nat.pow_succ', Nat.mul_add,
      Nat.add_assoc, Nat.mul_assoc]

theorem ofBytes_zeros (count : Nat) : ofBytes (.replicate count 0) = 0 := by
  induction count with
  | zero => rfl
  | succ count ih =>
    rw [List.replicate_succ, ofBytes, ih]
    rfl

theorem ofBytes_ones (count : Nat) : ofBytes (.replicate count 0xff) + 1 = 256 ^ count := by
  induction count with
  | zero => rfl
  | succ count ih =>
    have hff : (0xff : UInt8).toNat = 255 := rfl
    rw [List.replicate_succ, ofBytes, Nat.pow_succ, hff]
    omega

theorem topmost_bit (b : UInt8) : b &&& 0x80 = 0 ↔ b.toNat < 128 := by
  have hall : ∀ n : Fin 256, UInt8.ofNat n &&& 0x80 = 0 ↔ n.val < 128 := by decide +kernel
  simpa using hall ⟨b.toNat, b.toNat_lt⟩

/-- Filled up with copies of their topmost bit, bytes stand for the number congruent to theirs
whose sign is that bit. -/
theorem toInt64_ofBytes_fill (low : List UInt8) (last : UInt8) (count : Nat)
    (hcount : low.length + 1 + count = 8) :
    (UInt64.ofNat (ofBytes (low ++ [last] ++
      .replicate count (if last &&& 0x80 = 0 then 0 else 0xff)))).toInt64 =
      .ofInt ((ofBytes (low ++ [last]) : Int).bmod (256 ^ (low.length + 1))) := by
  have hsplit : ofBytes (low ++ [last]) = ofBytes low + 256 ^ low.length * last.toNat := by
    rw [ofBytes_append]
    rfl
  have hlow := ofBytes_lt low
  have hlt : last.toNat < 256 := last.toNat_lt
  have hwidth : 256 ^ (low.length + 1) = 256 * 256 ^ low.length := Nat.pow_succ'
  have hwhole : 256 ^ (low.length + 1) * 256 ^ count = 2 ^ 64 := by
    rw [← Nat.pow_add, hcount]
    rfl
  have hlength : (low ++ [last]).length = low.length + 1 := by simp
  apply Int64.toInt_inj.mp
  rw [Int64.toInt_ofInt, ofBytes_append _ (.replicate _ _), hlength]
  refine (BitVec.toInt_ofNat _).trans ?_
  generalize 256 ^ (low.length + 1) = width at hwidth hwhole
  generalize 256 ^ low.length = part at hsplit hlow hwidth
  by_cases hbit : last.toNat < 128
  · have hpart : part * last.toNat ≤ part * 127 := Nat.mul_le_mul_left part (by omega)
    have hsigned : (ofBytes (low ++ [last]) : Int).bmod width = ofBytes (low ++ [last]) :=
      Int.bmod_eq_of_le (by omega) (by omega)
    rw [if_pos ((topmost_bit last).mpr hbit), ofBytes_zeros, hsigned]
    rfl
  · have hpart : part * 128 ≤ part * last.toNat := Nat.mul_le_mul_left part (by omega)
    have hpart' : part * last.toNat ≤ part * 255 := Nat.mul_le_mul_left part (by omega)
    have hsigned : (ofBytes (low ++ [last]) : Int).bmod width =
        ofBytes (low ++ [last]) - (width : Int) := by
      rw [← Int.sub_bmod_right]
      exact Int.bmod_eq_of_le (by omega) (by omega)
    have hfill : ((ofBytes (low ++ [last]) + width * ofBytes (.replicate count 0xff) : Nat) : Int) =
        ofBytes (low ++ [last]) - (width : Int) + (2 ^ 64 : Nat) := by
      rw [← ofBytes_ones, Nat.mul_succ] at hwhole
      omega
    rw [if_neg (mt (topmost_bit last).mp hbit), hsigned, hfill, Int.add_bmod_right]
    rfl

/-- Reading extends the sign. -/
theorem decode_of_isInteger (hp : p.isInteger) {bytes : List UInt8} (hb : bytes.length = p.size) :
    decode p bytes = .ok (int (.ofInt ((ofBytes bytes : Int).bmod (2 ^ p.bits)))) := by
  have hsize : 0 < p.size ∧ p.size ≤ 8 := by
    cases p with
    | int8 | int16 | int32 | int64 => decide
    | bool | float32 | float64 | float80 => cases hp
  obtain ⟨low, last, rfl⟩ : ∃ low last, bytes = low ++ [last] :=
    ⟨_, _, (List.dropLast_concat_getLast (List.length_pos_iff.mp (by omega))).symm⟩
  rw [List.length_append, List.length_singleton] at hb
  have hlast : (low ++ [last])[p.size - 1]? = some last := by
    rw [← hb, Nat.add_sub_cancel]
    simp
  have htake : (low ++ [last]).take p.size = low ++ [last] :=
    List.take_of_length_le (by simp [hb])
  have hfill := toInt64_ofBytes_fill low last (8 - p.size) (by omega)
  rw [hb] at hfill
  rw [← pow_size]
  cases p with
  | int8 | int16 | int32 | int64 =>
    simp only [decode, hlast, htake]
    exact congrArg (fun i => Except.ok (int i)) hfill
  | bool | float32 | float64 | float80 => cases hp

theorem decode_encode_int (hp : p.isInteger) (i : Int64) :
    decode p ((int i).encode p) = .ok (int (.ofInt (i.toInt.bmod (2 ^ p.bits)))) := by
  rw [decode_of_isInteger hp (length_encode _ p), ofBytes_encode hp, Int.emod_bmod]

theorem encode_decode_int (hp : p.isInteger) {bytes : List UInt8} (hb : bytes.length = p.size) :
    (int (.ofInt ((ofBytes bytes : Int).bmod (2 ^ p.bits)))).encode p = bytes := by
  refine ofBytes_inj ((length_encode _ p).trans hb.symm) ?_
  have hlt : ofBytes bytes < 2 ^ p.bits := by
    rw [← pow_size, ← hb]
    exact ofBytes_lt bytes
  apply Int.natCast_inj.mp
  rw [ofBytes_encode hp, toInt_ofInt_bmod hp, Int.bmod_emod]
  exact Int.emod_eq_of_lt (Int.natCast_nonneg _) (Int.ofNat_lt.mpr hlt)

/-- Congruent integers are stored alike. -/
theorem encode_int_congr (hp : p.isInteger) {i j : Int64}
    (h : i.toInt % (2 ^ p.bits : Nat) = j.toInt % (2 ^ p.bits : Nat)) :
    (int i).encode p = (int j).encode p := by
  refine ofBytes_inj (by rw [length_encode, length_encode]) (Int.natCast_inj.mp ?_)
  rw [ofBytes_encode hp, ofBytes_encode hp, h]

/-- The integer that an integer primitive takes for a payload. -/
def asInteger : Scalar → Int64
  | bool b => if b then 1 else 0
  | int i => i
  | float x => x.toInt64

theorem convert_of_isInteger (hp : p.isInteger) (s : Scalar) : s.convert p = int s.asInteger := by
  cases p with
  | int8 | int16 | int32 | int64 => cases s <;> rfl
  | bool | float32 | float64 | float80 => cases hp

end Scalar

namespace Heap

variable {h : Heap} {v : ValueId} {p q : Primitive} {s : Scalar}

theorem scalar?_ofScalar_int (hp : p.isInteger) (type : TypeId) (i : Int64) :
    (h.ofScalar type p (.int i)).2.scalar? (h.ofScalar type p (.int i)).1 =
      some (.int (.ofInt (i.toInt.bmod (2 ^ p.bits)))) := by
  rw [scalar?, ofScalar, cell_alloc_self]
  simp only [Scalar.decode_encode_int hp]
  rfl

theorem cast?_of_isInteger (hp : p.isInteger) (hs : h.scalar? v = some s) (type : TypeId) :
    h.cast? v type p = some (h.ofScalar type p (.int s.asInteger)) := by
  rw [cast?, hs, Option.map_some, Scalar.convert_of_isInteger hp]

/-- A constant brought to an integer primitive and then to one that is not wider is stored as
if it had been brought to the second one at once. -/
theorem cast?_cast? (hp : p.isInteger) (hq : q.isInteger) (hle : q.bits ≤ p.bits)
    (hs : h.scalar? v = some s) (type type' : TypeId) :
    ∃ wide narrow direct : ValueId × Heap, h.cast? v type p = some wide ∧
      wide.2.cast? wide.1 type' q = some narrow ∧ h.cast? v type' q = some direct ∧
      narrow.2.cell narrow.1 = direct.2.cell direct.1 ∧
      ∃ x, narrow.2.scalar? narrow.1 = some x ∧ direct.2.scalar? direct.1 = some x := by
  have hdvd : 2 ^ q.bits ∣ 2 ^ p.bits := Nat.pow_dvd_pow 2 hle
  have hwide := scalar?_ofScalar_int (h := h) hp type s.asInteger
  have hnarrow := cast?_of_isInteger hq hwide type'
  refine ⟨_, _, _, cast?_of_isInteger hp hs type, hnarrow, cast?_of_isInteger hq hs type', ?_,
    _, scalar?_ofScalar_int hq type' _, ?_⟩
  · unfold ofScalar
    rw [cell_alloc_self, cell_alloc_self]
    refine congrArg _ (Scalar.encode_int_congr hq ?_)
    rw [Scalar.asInteger, Primitive.toInt_ofInt_bmod hp, Scalar.bmod_emod_of_dvd hdvd]
  · rw [scalar?_ofScalar_int hq, Scalar.asInteger, Primitive.toInt_ofInt_bmod hp,
      Int.bmod_bmod_of_dvd hdvd]

end Heap

/-- Integers are stored in two's complement at the width of the primitive: reading gives the
one integer of the range that is congruent to what was stored, every row of as many bytes is
how its integer is stored, and a wider primitive on the way makes no difference. -/
theorem Primitive.twosComplement_of_isInteger {p : Primitive} (hp : p.isInteger) :
    (∀ i : Int64, ((Scalar.int i).encode p).length = p.size ∧
      ∃ j : Int64, Scalar.decode p ((Scalar.int i).encode p) = .ok (.int j) ∧
        ∀ m : Int, p.Wraps i.toInt m ↔ m = j.toInt) ∧
    (∀ bytes : List UInt8, bytes.length = p.size →
      ∃ s, Scalar.decode p bytes = .ok s ∧ s.encode p = bytes) ∧
    ∀ q : Primitive, q.isInteger → q.bits ≤ p.bits →
      ∀ (h : Heap) v s, h.scalar? v = some s → ∀ type type',
        ∃ wide narrow direct : ValueId × Heap, h.cast? v type p = some wide ∧
          wide.2.cast? wide.1 type' q = some narrow ∧ h.cast? v type' q = some direct ∧
          narrow.2.cell narrow.1 = direct.2.cell direct.1 ∧
          ∃ x, narrow.2.scalar? narrow.1 = some x ∧ direct.2.scalar? direct.1 = some x := by
  refine ⟨fun i => ⟨Scalar.length_encode _ p, _, Scalar.decode_encode_int hp i, fun m => ?_⟩,
    fun bytes hb => ⟨_, Scalar.decode_of_isInteger hp hb, Scalar.encode_decode_int hp hb⟩,
    fun q hq hle h v s hs => Heap.cast?_cast? hp hq hle hs⟩
  rw [Primitive.toInt_ofInt_bmod hp]
  exact Primitive.wraps_iff

/-- A number that needs nine bits ends as the negative one with its lowest eight. -/
theorem Primitive.twosComplement_int8 :
    ∃ j : Int64, Scalar.decode .int8 ((Scalar.int 200).encode .int8) = .ok (.int j) ∧
      ∀ m : Int, Primitive.int8.Wraps 200 m ↔ m = j.toInt :=
  ((Primitive.twosComplement_of_isInteger (rfl : Primitive.int8.isInteger = true)).1 200).2

end BlockLang
