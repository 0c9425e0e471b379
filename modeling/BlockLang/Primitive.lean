/-!
# Primitive types

Truth values, signed integers of four widths and floating-point numbers of three.
Within a family, integers or floats, the rank grows with the width.
-/

namespace BlockLang

inductive Primitive where
  | bool
  | int8
  | int16
  | int32
  | int64
  | float32
  | float64
  | float80
deriving DecidableEq, Inhabited

namespace Primitive

/-- Every primitive, in the order of its type handle. -/
def all : List Primitive := [bool, int8, int16, int32, int64, float32, float64, float80]

/-- The primitives that can be calculated with. -/
def arithmetic : List Primitive := [int8, int16, int32, int64, float32, float64, float80]

def name : Primitive → String
  | bool => "bool"
  | int8 => "int8"
  | int16 => "int16"
  | int32 => "int32"
  | int64 => "int64"
  | float32 => "float32"
  | float64 => "float64"
  | float80 => "float80"

def ofName? (name : String) : Option Primitive := all.find? (·.name == name)

/-- Storage in bytes. -/
def size : Primitive → Nat
  | bool | int8 => 1
  | int16 => 2
  | int32 | float32 => 4
  | int64 | float64 => 8
  | float80 => 10

def isInteger : Primitive → Bool
  | int8 | int16 | int32 | int64 => true
  | _ => false

def isFloat : Primitive → Bool
  | float32 | float64 | float80 => true
  | _ => false

def isArithmetic (p : Primitive) : Bool := p.isInteger || p.isFloat

/-- Place within the family, narrowest first. -/
def rank : Primitive → Nat
  | bool | int8 | float32 => 0
  | int16 | float64 => 1
  | int32 | float80 => 2
  | int64 => 3

/-- The type to which two arithmetic operands are brought: a float before an
integer, and within a family the wider one. There is none when they agree
already or one of them is not arithmetic. -/
def promote? (a b : Primitive) : Option Primitive :=
  if a = b ∨ !a.isArithmetic ∨ !b.isArithmetic then none
  else if a.isFloat = b.isFloat then some (if b.rank ≤ a.rank then a else b)
  else some (if a.isFloat then a else b)

end Primitive
end BlockLang
