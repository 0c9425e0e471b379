/-!
# Binary floating-point formats

A bit pattern has a sign, an exponent field and a fraction field. It stands for
a signed fraction `mantissa * 2 ^ exponent`, an infinity or nothing that is a
number. `nearestMagnitude` goes the other way: it rounds any fraction to the
nearest of the format, a tie to the one whose last bit is zero.
-/

namespace BlockLang.Number

/-- The widths of the two fields below the sign. -/
structure Format where
  exponentBits : Nat
  fractionBits : Nat
deriving DecidableEq

/-- What a bit pattern stands for. -/
inductive Extended where
  /-- Not a number; `fraction` tells such patterns apart. -/
  | nan (negative : Bool) (fraction : Nat)
  | infinite (negative : Bool)
  /-- The fraction `mantissa * 2 ^ exponent`, negated if `negative`. -/
  | finite (negative : Bool) (mantissa : Nat) (exponent : Int)
deriving DecidableEq

namespace Format

def single : Format := ⟨8, 23⟩

def double : Format := ⟨11, 52⟩

/-- The sign bit, as a number. -/
def signBit (f : Format) : Nat := Nat.pow 2 (f.exponentBits + f.fractionBits)

/-- The exponent field of all ones, which marks what is not finite. -/
def lastField (f : Format) : Nat := Nat.pow 2 f.exponentBits - 1

/-- The magnitude of an infinity. -/
def infinity (f : Format) : Nat := f.lastField * Nat.pow 2 f.fractionBits

/-- The highest bit of the fraction. In a pattern that is not a number it says
that the pattern may take part in calculations. -/
def quietBit (f : Format) : Nat := Nat.pow 2 (f.fractionBits - 1)

/-- The least exponent of a fraction. -/
def leastExponent (f : Format) : Int :=
  2 - (Nat.pow 2 (f.exponentBits - 1) : Nat) - (f.fractionBits : Int)

/-- What the pattern `bits` stands for. -/
def decode (f : Format) (bits : Nat) : Extended :=
  let negative : Bool := bits / f.signBit % 2 = 1
  let field : Nat := bits / Nat.pow 2 f.fractionBits % Nat.pow 2 f.exponentBits
  let fraction : Nat := bits % Nat.pow 2 f.fractionBits
  if field = f.lastField then
    if fraction = 0 then .infinite negative else .nan negative fraction
  else if field = 0 then .finite negative fraction f.leastExponent
  else
    .finite negative (Nat.pow 2 f.fractionBits + fraction) (f.leastExponent + (field : Int) - 1)

/-- The pattern of a magnitude with a sign. -/
def signed (f : Format) (negative : Bool) (magnitude : Nat) : Nat :=
  (if negative then f.signBit else 0) + magnitude

end Format

/-- `numerator / denominator` rounded to a whole number, a half to the even one. -/
def roundDiv (numerator denominator : Nat) : Nat :=
  let quotient := numerator / denominator
  let twice := 2 * (numerator % denominator)
  if denominator < twice ∨ (twice = denominator ∧ quotient % 2 = 1) then quotient + 1
  else quotient

/-- The greatest `e` with `2 ^ e ≤ numerator / denominator`, both being positive. -/
def floorLog2 (numerator denominator : Nat) : Int :=
  let guess : Int := (numerator.log2 : Int) - denominator.log2
  if denominator * Nat.pow 2 guess.toNat ≤ numerator * Nat.pow 2 (-guess).toNat then guess
  else guess - 1

namespace Format

/-- The magnitude nearest to `numerator / denominator`. A mantissa that is rounded
up to the next power of two carries into the exponent field, and the greatest
magnitude into infinity. -/
def nearestMagnitude (f : Format) (numerator denominator : Nat) : Nat :=
  if numerator = 0 then 0
  else
    let exponent := max (floorLog2 numerator denominator - f.fractionBits) f.leastExponent
    let mantissa :=
      roundDiv (numerator * Nat.pow 2 (-exponent).toNat) (denominator * Nat.pow 2 exponent.toNat)
    min ((exponent - f.leastExponent).toNat * Nat.pow 2 f.fractionBits + mantissa) f.infinity

/-- The pattern nearest to the signed fraction `mantissa * 2 ^ exponent`. -/
def nearest (f : Format) (negative : Bool) (mantissa : Nat) (exponent : Int) : Nat :=
  f.signed negative
    (f.nearestMagnitude (mantissa * Nat.pow 2 exponent.toNat) (Nat.pow 2 (-exponent).toNat))

/-- A pattern of `f` brought to the format `g`. What is not a number keeps its sign
and as much of the fraction as there is room for, from the highest bit on. -/
def convert (f g : Format) (bits : Nat) : Nat :=
  match f.decode bits with
  | .finite negative mantissa exponent => g.nearest negative mantissa exponent
  | .infinite negative => g.signed negative g.infinity
  | .nan negative fraction =>
    let kept := fraction * Nat.pow 2 g.fractionBits / Nat.pow 2 f.fractionBits
    g.signed negative (g.infinity + (kept ||| g.quietBit))

end Format
end BlockLang.Number
