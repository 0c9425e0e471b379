import BlockLang.Number.Shortest
import BlockLang.Primitive

/-!
# Scalars and their bytes

A scalar is the payload of a primitive value. It is stored in little-endian bytes
at the primitive's width: an integer loses its high bytes, a `float80` is a
double followed by zero bytes. Reading an integer extends its sign.
-/

namespace BlockLang

open Number (Double)

inductive Scalar where
  | bool (value : Bool)
  | int (value : Int64)
  | float (value : Double)
deriving DecidableEq, Inhabited

namespace Scalar

/-- The payload that `primitive` stores for this one. Floats become integers
toward zero and stop at the ends of the range; everything but zero is true. -/
def convert (s : Scalar) (primitive : Primitive) : Scalar :=
  match s with
  | bool b =>
    if primitive = .bool then bool b
    else if primitive.isFloat then float (.ofInt (if b then 1 else 0))
    else int (if b then 1 else 0)
  | int i =>
    if primitive = .bool then bool (i != 0)
    else if primitive.isFloat then float (.ofInt i.toInt)
    else int i
  | float x =>
    if primitive = .bool then bool !x.isZero
    else if primitive.isFloat then float x
    else int x.toInt64

/-- Floats are written with the fewest digits that read back, with an exponent
below `0.0001` and from `10 ^ 16` on. -/
def floatStyle : Number.Decimal.Style := ⟨-4, 15, "NaN", "inf"⟩

def display : Scalar → String
  | bool b => if b then "true" else "false"
  | int i => toString i.toInt
  | float x => Number.writeDouble floatStyle x

/-- The `count` lowest bytes of `n`, lowest first. -/
def lowBytes (n : Nat) : Nat → List UInt8
  | 0 => []
  | count + 1 => UInt8.ofNat n :: lowBytes (n / 256) count

/-- The number whose bytes are `bytes`, lowest first. -/
def ofBytes : List UInt8 → Nat
  | [] => 0
  | b :: bs => b.toNat + 256 * ofBytes bs

@[simp] theorem length_lowBytes (n count : Nat) : (lowBytes n count).length = count := by
  induction count generalizing n with
  | zero => rfl
  | succ count ih => simp [lowBytes, ih]

theorem ofBytes_lowBytes (n count : Nat) : ofBytes (lowBytes n count) = n % Nat.pow 256 count := by
  induction count generalizing n with
  | zero => simp [lowBytes, ofBytes, Nat.mod_one]
  | succ count ih =>
    simp only [lowBytes, ofBytes, ih, UInt8.toNat_ofNat']
    rw [show Nat.pow 256 (count + 1) = 256 * Nat.pow 256 count from Nat.pow_succ', Nat.mod_mul]

/-- The bytes of `s` stored as `primitive`. -/
def encode (primitive : Primitive) (s : Scalar) : List UInt8 :=
  match s.convert primitive with
  | bool b => [if b then 1 else 0]
  | int i => lowBytes i.toUInt64.toNat primitive.size
  | float x =>
    if primitive = .float32 then lowBytes x.toSingle 4
    else lowBytes x.bits.toNat primitive.size

/-- A read past the end of some bytes. -/
inductive Overrun where
  /-- Of the bytes before `stop`. -/
  | range (stop length : Nat)
  /-- Of the byte at `index`. -/
  | byte (index length : Nat)
deriving DecidableEq

def Overrun.message : Overrun → String
  | range stop length =>
    "range end index " ++ toString stop ++ " out of range for slice of length " ++ toString length
  | byte index length =>
    "index out of bounds: the len is " ++ toString length ++ " but the index is " ++ toString index

/-- The payload of a `primitive` stored in the first of `bytes`. -/
def decode (primitive : Primitive) (bytes : List UInt8) : Except Overrun Scalar :=
  match primitive with
  | .bool => .ok (bool (bytes.headD 0 != 0))
  | .float32 =>
    if bytes.length < 4 then .error (.range 4 bytes.length)
    else .ok (float (.ofSingle (ofBytes (bytes.take 4))))
  | .float64 | .float80 =>
    if bytes.length < 8 then .error (.range 8 bytes.length)
    else .ok (float (.ofNat (ofBytes (bytes.take 8))))
  | .int8 | .int16 | .int32 | .int64 =>
    let size := primitive.size
    match bytes[size - 1]? with
    | none => .error (.byte (size - 1) bytes.length)
    | some last =>
      let fill : UInt8 := if last &&& 0x80 = 0 then 0 else 0xff
      let raw := bytes.take size ++ .replicate (8 - size) fill
      .ok (int (UInt64.ofNat (ofBytes raw)).toInt64)

end Scalar
end BlockLang
