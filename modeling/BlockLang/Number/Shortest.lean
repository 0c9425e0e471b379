import BlockLang.Number.Double

/-!
# The shortest decimal text of a double

Of all decimals that are nearer to a double than to any other double, the
shortest one is taken, and of two of the same length the nearer one. It is
searched grid by grid: the multiples of `10 ^ k` for falling `k`, of which only
the two neighbours of the double can be the first to hit.

How the digits are laid out is a matter of style.
-/

namespace BlockLang.Number

/-- The decimal `digits * 10 ^ exponent`. -/
structure Decimal where
  digits : Nat
  exponent : Int
deriving DecidableEq

namespace Decimal

/-- The neighbour of `mantissa * 2 ^ exponent` among the multiples of `10 ^ k` that
reads back as it, if there is one. The decimals that read back reach half way to
the next double on either side, ends included if the mantissa is even. Distances
are measured in quarters of the last bit; the gap below a power of two is half
as wide. A tie between the neighbours goes to the upper one. -/
def onGrid? (mantissa : Nat) (exponent k : Int) : Option Decimal :=
  let quarter := exponent - 2
  let grid := Nat.pow 10 k.toNat * Nat.pow 2 (-quarter).toNat
  let unit := Nat.pow 2 quarter.toNat * Nat.pow 10 (-k).toNat
  let value := 4 * mantissa * unit
  let below := if mantissa = Nat.pow 2 52 ∧ Format.double.leastExponent < exponent then 1 else 2
  let low := (4 * mantissa - below) * unit
  let high := (4 * mantissa + 2) * unit
  let closed := mantissa % 2 = 0
  let c := value / grid
  let lower := low < c * grid ∨ (closed ∧ low = c * grid)
  let upper := (c + 1) * grid < high ∨ (closed ∧ (c + 1) * grid = high)
  if lower ∧ upper then
    if value - c * grid < (c + 1) * grid - value then some ⟨c, k⟩ else some ⟨c + 1, k⟩
  else if lower then some ⟨c, k⟩
  else if upper then some ⟨c + 1, k⟩
  else none

/-- The first hit among the grids `10 ^ k`, `10 ^ (k - 1)` and so on. -/
def search (mantissa : Nat) (exponent : Int) : Nat → Int → Decimal
  | 0, k => ⟨0, k⟩
  | n + 1, k =>
    match onGrid? mantissa exponent k with
    | some found => found
    | none => search mantissa exponent n (k - 1)

/-- The shortest decimal that reads back as `mantissa * 2 ^ exponent`. The search
starts above the first digit, since `log10 2 < 0.30103`. -/
def shortest (mantissa : Nat) (exponent : Int) : Decimal :=
  let magnitude := exponent + mantissa.log2 + 1
  search mantissa exponent 24 (magnitude * 30103 / 100000 + 2)

/-- How a decimal is written. -/
structure Style where
  /-- The least power of ten whose multiples are written without an exponent. -/
  leastPlain : Int
  /-- The greatest one. -/
  greatestPlain : Int
  nan : String
  infinite : String

/-- Digits with a point. At least one digit stands on either side of it. -/
def plain (digits : List Char) (exponent : Int) : List Char :=
  if 0 ≤ exponent then digits ++ List.replicate exponent.toNat '0' ++ ['.', '0']
  else
    let places := (-exponent).toNat
    let padded := List.replicate (places + 1 - digits.length) '0' ++ digits
    let whole := padded.length - places
    padded.take whole ++ ['.'] ++ padded.drop whole

/-- One digit, a point with the other digits if there are any, and the power of
ten. -/
def scientific (digits : List Char) (power : Int) : List Char :=
  let tail := if digits.length ≤ 1 then [] else '.' :: digits.drop 1
  digits.take 1 ++ tail ++ ['e'] ++ (toString power).toList

/-- The text of `digits * 10 ^ exponent` in `style`. -/
def write (style : Style) (d : Decimal) : List Char :=
  let digits := (toString d.digits).toList
  let power := d.exponent + digits.length - 1
  if d.digits = 0 then plain digits 0
  else if style.leastPlain ≤ power ∧ power ≤ style.greatestPlain then plain digits d.exponent
  else scientific digits power

end Decimal

/-- The shortest text of `x` in `style`. -/
def writeDouble (style : Decimal.Style) (x : Double) : String :=
  let signed (negative : Bool) (text : String) := if negative then "-" ++ text else text
  match x.value with
  | .nan .. => style.nan
  | .infinite negative => signed negative style.infinite
  | .finite negative mantissa exponent =>
    let decimal := if mantissa = 0 then ⟨0, 0⟩ else Decimal.shortest mantissa exponent
    signed negative (String.ofList (decimal.write style))

end BlockLang.Number
