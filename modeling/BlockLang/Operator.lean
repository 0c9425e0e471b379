import BlockLang.Primitive

/-!
# Operators

`BinaryOp` and `UnaryOp` are the operators as written. A `Builtin` is an operator
at one operand type; every operator is declared once for each type it works on,
so that an operator expression is resolved like a call.
-/

namespace BlockLang

inductive BinaryOp where
  | add
  | sub
  | mul
  | div
  | rem
  | eq
  | ne
  | lt
  | le
  | gt
  | ge
  | and
  | or
deriving DecidableEq, Inhabited

def BinaryOp.symbol : BinaryOp → String
  | add => "+"
  | sub => "-"
  | mul => "*"
  | div => "/"
  | rem => "%"
  | eq => "=="
  | ne => "!="
  | lt => "<"
  | le => "<="
  | gt => ">"
  | ge => ">="
  | and => "&&"
  | or => "||"

/-- Whether operands of different arithmetic types are brought to a common one. -/
def BinaryOp.promotesOperands : BinaryOp → Bool
  | and | or => false
  | _ => true

inductive UnaryOp where
  | neg
  | not
deriving DecidableEq, Inhabited

def UnaryOp.symbol : UnaryOp → String
  | neg => "-"
  | not => "!"

/-- What a built-in operator computes. -/
inductive Builtin.Kind where
  | binary (op : BinaryOp)
  | unary (op : UnaryOp)
deriving DecidableEq, Inhabited

namespace Builtin.Kind

/-- The name the operator is declared under. -/
def symbol : Kind → String
  | binary op => op.symbol
  | unary op => op.symbol

def arity : Kind → Nat
  | binary _ => 2
  | unary _ => 1

/-- Whether the result is a truth value, whatever the operands are. -/
def isComparison : Kind → Bool
  | binary op => op ∈ [.eq, .ne, .lt, .le, .gt, .ge]
  | unary _ => false

end Builtin.Kind

/-- An operator at one operand type. -/
structure Builtin where
  kind : Builtin.Kind
  operand : Primitive
deriving DecidableEq, Inhabited

namespace Builtin

def result (b : Builtin) : Primitive := if b.kind.isComparison then .bool else b.operand

def display (b : Builtin) : String := b.operand.name ++ "." ++ b.kind.symbol

/-- The operators of an arithmetic type. -/
def arithmeticKinds : List Kind :=
  [.binary .add, .binary .sub, .binary .mul, .binary .div, .binary .rem,
    .binary .eq, .binary .ne, .binary .lt, .binary .le, .binary .gt, .binary .ge, .unary .neg]

/-- The operators of truth values. -/
def boolKinds : List Kind :=
  [.binary .eq, .binary .ne, .binary .and, .binary .or, .unary .not]

/-- Every built-in operator, in the order of declaration. -/
def all : List Builtin :=
  (Primitive.arithmetic.flatMap fun operand => arithmeticKinds.map (⟨·, operand⟩)) ++
    boolKinds.map (⟨·, .bool⟩)

end Builtin
end BlockLang
