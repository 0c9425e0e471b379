import BlockLang.Operator
import BlockLang.Value.Scalar

/-!
# Calculating with constants

A built-in operator is applied to operands brought to its operand type. Integer
results wrap around. Dividing an integer by zero has no result; it is left to the
running program.
-/

namespace BlockLang

/-- The outcome of applying an operator to constants. -/
inductive Folded (α : Type) where
  | value (result : α)
  /-- The operator does not apply to these operands. -/
  | notConstant
  | divisionByZero
deriving Inhabited

namespace Scalar

def unary (op : UnaryOp) (operand : Scalar) : Folded Scalar :=
  match op, operand with
  | .neg, int i => .value (int (-i))
  | .neg, float x => .value (float x.neg)
  | .not, bool b => .value (bool !b)
  | _, _ => .notConstant

def binaryInt (op : BinaryOp) (a b : Int64) : Folded Scalar :=
  match op with
  | .add => .value (int (a + b))
  | .sub => .value (int (a - b))
  | .mul => .value (int (a * b))
  | .div => if b = 0 then .divisionByZero else .value (int (a / b))
  | .rem => if b = 0 then .divisionByZero else .value (int (a % b))
  | .eq => .value (bool (a == b))
  | .ne => .value (bool (a != b))
  | .lt => .value (bool (a < b))
  | .le => .value (bool (a ≤ b))
  | .gt => .value (bool (b < a))
  | .ge => .value (bool (b ≤ a))
  | .and | .or => .notConstant

def binaryFloat (op : BinaryOp) (a b : Number.Double) : Folded Scalar :=
  match op with
  | .add => .value (float (a.add b))
  | .sub => .value (float (a.sub b))
  | .mul => .value (float (a.mul b))
  | .div => .value (float (a.div b))
  | .rem => .value (float (a.rem b))
  | .eq => .value (bool (a.eq b))
  | .ne => .value (bool !a.eq b)
  | .lt => .value (bool (a.lt b))
  | .le => .value (bool (a.le b))
  | .gt => .value (bool (b.lt a))
  | .ge => .value (bool (b.le a))
  | .and | .or => .notConstant

def binaryBool (op : BinaryOp) (a b : Bool) : Folded Scalar :=
  match op with
  | .and => .value (bool (a && b))
  | .or => .value (bool (a || b))
  | .eq => .value (bool (a == b))
  | .ne => .value (bool (a != b))
  | _ => .notConstant

def binary (op : BinaryOp) : Scalar → Scalar → Folded Scalar
  | int a, int b => binaryInt op a b
  | float a, float b => binaryFloat op a b
  | bool a, bool b => binaryBool op a b
  | _, _ => .notConstant

/-- Applies `b` to operands brought to its operand type. -/
def apply (b : Builtin) (operands : List Scalar) : Folded Scalar :=
  match b.kind, operands.map (·.convert b.operand) with
  | .unary op, [x] => unary op x
  | .binary op, [x, y] => binary op x y
  | _, _ => .notConstant

end Scalar
end BlockLang
