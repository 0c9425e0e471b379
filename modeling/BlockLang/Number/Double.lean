import BlockLang.Number.Format

/-!
# Doubles

A double is its bit pattern. The operations are exact on fractions and round
once. An operation on something that is not a number gives it back, the left
operand first; one without a meaning, such as dividing zero by zero, gives
`Double.invalid`.
-/

namespace BlockLang.Number

/-- A double-precision number by its bits. -/
structure Double where
  bits : UInt64
deriving DecidableEq, Inhabited

namespace Double

def ofNat (bits : Nat) : Double := ⟨.ofNat bits⟩

def value (x : Double) : Extended := Format.double.decode x.bits.toNat

/-- The number without its sign, as bits. -/
def magnitude (x : Double) : Nat := x.bits.toNat % Format.double.signBit

def isNegative (x : Double) : Bool := Format.double.signBit ≤ x.bits.toNat

def isNaN (x : Double) : Bool := Format.double.infinity < x.magnitude

def isZero (x : Double) : Bool := x.magnitude = 0

def zero (negative : Bool) : Double := ofNat (Format.double.signed negative 0)

def infinity (negative : Bool) : Double :=
  ofNat (Format.double.signed negative Format.double.infinity)

/-- Not a number. -/
def nan (negative : Bool) : Double :=
  ofNat (Format.double.signed negative (Format.double.infinity + Format.double.quietBit))

/-- The result of an operation without a meaning. -/
def invalid : Double := nan true

/-- `x`, fit to take part in calculations if it is not a number. -/
def quiet (x : Double) : Double := ofNat (x.bits.toNat ||| Format.double.quietBit)

/-- The double nearest to the signed fraction `mantissa * 2 ^ exponent`. -/
def nearest (negative : Bool) (mantissa : Nat) (exponent : Int) : Double :=
  ofNat (Format.double.nearest negative mantissa exponent)

/-- The double nearest to `numerator / denominator`, negated if `negative`. -/
def nearestQuotient (negative : Bool) (numerator denominator : Nat) : Double :=
  ofNat (Format.double.signed negative (Format.double.nearestMagnitude numerator denominator))

/-- The double nearest to the decimal `digits * 10 ^ exponent`. -/
def nearestDecimal (negative : Bool) (digits : Nat) (exponent : Int) : Double :=
  nearestQuotient negative (digits * Nat.pow 10 exponent.toNat) (Nat.pow 10 (-exponent).toNat)

/-- `n` with a sign. -/
def withSign (negative : Bool) (n : Nat) : Int := if negative then -n else n

/-- The other sign, also of zeros and of what is not a number. -/
def neg (x : Double) : Double := ⟨x.bits ^^^ .ofNat Format.double.signBit⟩

/-- `result`, unless an operand is not a number. -/
def propagate (x y result : Double) : Double :=
  if x.isNaN then x.quiet else if y.isNaN then y.quiet else result

/-- The sum of two numbers. A sum of zero is positive unless both zeros are negative. -/
def sum (x y : Double) : Double :=
  match x.value, y.value with
  | .infinite a, .infinite b => if a = b then x else invalid
  | .finite a m p, .finite b n q =>
    let unit := min p q
    let total :=
      withSign a (m * Nat.pow 2 (p - unit).toNat) + withSign b (n * Nat.pow 2 (q - unit).toNat)
    if total = 0 then zero (a && b) else nearest (total < 0) total.natAbs unit
  | .infinite _, _ => x
  | _, _ => y

def add (x y : Double) : Double := propagate x y (sum x y)

def sub (x y : Double) : Double := propagate x y (sum x y.neg)

/-- The product of two numbers. -/
def product (x y : Double) : Double :=
  let negative := x.isNegative != y.isNegative
  match x.value, y.value with
  | .finite _ m p, .finite _ n q => nearest negative (m * n) (p + q)
  | _, _ => if x.isZero || y.isZero then invalid else infinity negative

def mul (x y : Double) : Double := propagate x y (product x y)

/-- The quotient of two numbers. -/
def quotient (x y : Double) : Double :=
  let negative := x.isNegative != y.isNegative
  match x.value, y.value with
  | .finite _ m p, .finite _ n q =>
    if n = 0 then if m = 0 then invalid else infinity negative
    else
      nearestQuotient negative (m * Nat.pow 2 (p - q).toNat) (n * Nat.pow 2 (q - p).toNat)
  | .finite .., _ => zero negative
  | _, .finite .. => infinity negative
  | _, _ => invalid

def div (x y : Double) : Double := propagate x y (quotient x y)

/-- What is left of `x` when as many whole `y` as fit are taken away toward zero.
The result has the sign of `x` and is exact. -/
def remainder (x y : Double) : Double :=
  match x.value, y.value with
  | .finite negative m p, .finite _ n q =>
    if n = 0 then invalid
    else
      let unit := min p q
      let rest := (m * Nat.pow 2 (p - unit).toNat) % (n * Nat.pow 2 (q - unit).toNat)
      nearest negative rest unit
  | .finite .., _ => x
  | _, _ => invalid

def rem (x y : Double) : Double := propagate x y (remainder x y)

/-- The place of a number on the line, both zeros being at the same one. -/
def rank (x : Double) : Int := withSign x.isNegative x.magnitude

/-- Whether the places of two numbers are related. Nothing is related to what is
not a number. -/
def compare (related : Int → Int → Bool) (x y : Double) : Bool :=
  !x.isNaN && !y.isNaN && related x.rank y.rank

def eq (x y : Double) : Bool := compare (· = ·) x y

def lt (x y : Double) : Bool := compare (· < ·) x y

def le (x y : Double) : Bool := compare (· ≤ ·) x y

/-- The double nearest to a whole number. -/
def ofInt (i : Int) : Double := nearestQuotient (i < 0) i.natAbs 1

/-- The whole part, stopping at the ends of the range; zero for what is not a
number. -/
def toInt64 (x : Double) : Int64 :=
  match x.value with
  | .nan .. => 0
  | .infinite negative => if negative then .minValue else .maxValue
  | .finite negative mantissa exponent =>
    let whole := mantissa * Nat.pow 2 exponent.toNat / Nat.pow 2 (-exponent).toNat
    .ofInt (max Int64.minValue.toInt (min Int64.maxValue.toInt (withSign negative whole)))

/-- The nearest single-precision number, as bits. -/
def toSingle (x : Double) : Nat := Format.double.convert .single x.bits.toNat

/-- The double equal to the single-precision number of the given bits. -/
def ofSingle (bits : Nat) : Double := ofNat (Format.single.convert .double bits)

end Double

/-- The number written by decimal digits. -/
def ofDigits (cs : List Char) : Nat :=
  cs.foldl (fun n c => 10 * n + (c.toNat - '0'.toNat)) 0

/-- The double nearest to the number written as digits, a point and digits. -/
def readDecimal (cs : List Char) : Double :=
  let whole := cs.takeWhile (· ≠ '.')
  let fraction := (cs.dropWhile (· ≠ '.')).drop 1
  Double.nearestDecimal false (ofDigits (whole ++ fraction)) (-fraction.length)

end BlockLang.Number
