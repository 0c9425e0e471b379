import BlockLang.Grammar.TypeSyntax

/-!
# The grammar of expressions

An expression starts with an operand and goes on as long as the next token binds
more strongly than what the expression stands in. Binary operators group to the
left, assignments to the right.
-/

namespace BlockLang.Grammar

open Parse

/-- How strongly a token binds to what stands before it, weakest first. -/
inductive Power where
  /-- Anything may follow. -/
  | lowest
  | comma
  | assignment
  | logical
  | relational
  | additive
  | multiplicative
  | unary
  | call
  | member
deriving DecidableEq, Inhabited

def Power.rank : Power → Nat
  | lowest => 0
  | comma => 1
  | assignment => 2
  | logical => 3
  | relational => 4
  | additive => 5
  | multiplicative => 6
  | unary => 7
  | call => 8
  | member => 9

/-- The binary operator that a token stands for. -/
def binaryOp? : Token.Kind → Option BinaryOp
  | .plus => some .add
  | .dash => some .sub
  | .star => some .mul
  | .slash => some .div
  | .percent => some .rem
  | .equals => some .eq
  | .notEquals => some .ne
  | .less => some .lt
  | .lessEquals => some .le
  | .greater => some .gt
  | .greaterEquals => some .ge
  | .and => some .and
  | .or => some .or
  | _ => none

def operatorPower : BinaryOp → Power
  | .and | .or => .logical
  | .eq | .ne | .lt | .le | .gt | .ge => .relational
  | .add | .sub => .additive
  | .mul | .div | .rem => .multiplicative

/-- What a token after an operand begins. -/
inductive Continuation where
  | assign
  | refBind
  | binary (op : BinaryOp)
  | call
  | index
  | member
deriving DecidableEq

def continuation? (kind : Token.Kind) : Option Continuation :=
  match kind with
  | .assignment => some .assign
  | .atEquals => some .refBind
  | .openParen => some .call
  | .openBracket => some .index
  | .dot => some .member
  | _ => (binaryOp? kind).map .binary

def Continuation.power : Continuation → Power
  | assign | refBind => .assignment
  | binary op => operatorPower op
  | call | index => .call
  | member => .member

variable (parts : Productions Power)

/-- A literal with its type and value. -/
def literal (type : TypeId) (value : Heap → ValueId × Heap) (span : Span) : Parse NodeId := do
  let id ← node .literal span []
  let value ← pass (.onValues value)
  pass (.annotate id fun a => { a with type := some type, value := some value })
  return id

def intLiteral (token : Token) : Parse NodeId := do
  let n ← boundedNumber token (Nat.pow 2 63 - 1)
  let _ ← advance
  literal Primitive.int64.typeId
    (·.ofScalar Primitive.int64.typeId .int64 (.int (.ofNat n))) token.span

def floatLiteral (token : Token) : Parse NodeId := do
  let _ ← advance
  let x := Number.readDecimal token.value.toList
  literal Primitive.float64.typeId
    (·.ofScalar Primitive.float64.typeId .float64 (.float x)) token.span

def boolLiteral (token : Token) (b : Bool) : Parse NodeId := do
  let _ ← advance
  literal Primitive.bool.typeId (·.ofScalar Primitive.bool.typeId .bool (.bool b)) token.span

/-- The list of bytes as signed numbers. -/
def bytesValue (type : TypeId) (bytes : List UInt8) (h : Heap) : ValueId × Heap :=
  let (elements, h) := Heap.mapHeap (fun h (byte : UInt8) =>
    h.ofScalar Primitive.int8.typeId .int8 (.int byte.toInt8.toInt64)) h bytes
  h.sequence type elements

/-- A string is a list of the bytes of its UTF-8 form. -/
def stringLiteral (token : Token) : Parse NodeId := do
  let _ ← advance
  let bytes := token.value.toUTF8.toList
  let type ← pass (.makeType (·.makeList Primitive.int8.typeId (some (.ofNat bytes.length))))
  literal type (bytesValue type bytes) token.span

/-- `-e` or `!e`. -/
def prefixed (op : UnaryOp) : Parse NodeId := do
  let token ← advance
  let operand ← parts.expr .unary
  node (.unary op) (← spanFrom token.span.start) [operand]

/-- `(e)`, `()`, `(a, b)` or `(x: a, y: b)`. -/
def grouping : Parse NodeId := do
  let token ← advance
  let item := do return (← fieldName, ← parts.expr .comma)
  let (elements, sawComma) ← separated .closeParen "expected `,` or `)`" item (← bound)
  let _ ← expect .closeParen
  match elements, sawComma with
  | [(none, inner)], false => return inner
  | _, _ =>
    node (.tuple (elements.map (·.1))) (← spanFrom token.span.start) (elements.map (·.2))

/-- `[a, b]`. -/
def listLiteral : Parse NodeId := do
  let token ← advance
  let (elements, _) ←
    separated .closeBracket "expected `,` or `]`" (parts.expr .comma) (← bound)
  let _ ← expect .closeBracket
  node .list (← spanFrom token.span.start) elements

/-- Statements up to the end of a block, which stays. -/
def statements : Nat → Parse (List NodeId)
  | 0 => endless
  | fuel + 1 => do
    match ← currentKind with
    | .closeCurly => return []
    | .eof => refuse "unterminated block"
    | _ =>
      let first ← parts.stmt
      return first :: (← statements fuel)

/-- Statements as a chain of pairs nested to the right. -/
def chain : List NodeId → Parse (Option NodeId)
  | [] => return none
  | [last] => return some last
  | first :: others => do
    match ← chain others with
    | none => return some first
    | some rest =>
      let span := (← spanOf first).to (← spanOf rest)
      return some (← node .pair span [first, rest])

/-- `{ a; b; c }` with a scope of its own. -/
def block : Parse NodeId := do
  let token ← advance
  let _ ← enterScope .block
  let sequence ← chain (← statements parts (← bound))
  leaveScope
  let _ ← expect .closeCurly
  node .block (← spanFrom token.span.start) sequence.toList

/-- `if c a else b`, with arms as `arm` reads them. -/
def conditional (arm : Parse NodeId) : Parse NodeId := do
  let token ← advance
  let condition ← parts.expr .lowest
  let first ← arm
  let second ← if ← accept .elseWord then pure [← arm] else pure []
  node .ifElse (← spanFrom token.span.start) ([condition, first] ++ second)

/-- An arm of a conditional expression: a block or an expression. -/
def armExpr : Parse NodeId := do
  if ← isAt .openCurly then block parts else parts.expr .comma

/-- What an expression starts with. -/
def operand : Parse NodeId := do
  let token ← current
  match token.kind with
  | .number => intLiteral token
  | .float => floatLiteral token
  | .trueWord => boolLiteral token true
  | .falseWord => boolLiteral token false
  | .string => stringLiteral token
  | .identifier =>
    let _ ← advance
    node (.symbol token.value) token.span []
  | .dash => prefixed parts .neg
  | .not => prefixed parts .not
  | .openParen => grouping parts
  | .openBracket => listLiteral parts
  | .openCurly => block parts
  | .ifWord => conditional parts (armExpr parts)
  | _ => unexpected

/-- An operator and its right operand, which binds more strongly than `power`. -/
def operation (kind : NodeKind) (power : Power) (left : NodeId) : Parse NodeId := do
  let _ ← advance
  let right ← parts.expr power
  node kind ((← spanOf left).to (← spanOf right)) [left, right]

/-- Arguments up to the closing parenthesis, which stays. Commas are skipped. -/
def arguments : Nat → Parse (List NodeId)
  | 0 => endless
  | fuel + 1 => do
    match ← currentKind with
    | .closeParen => return []
    | .comma =>
      let _ ← advance
      arguments fuel
    | _ =>
      let first ← parts.expr .comma
      return first :: (← arguments fuel)

/-- `f(a, b)`. Only a name can be called. -/
def call (left : NodeId) : Parse NodeId := do
  match (← session).tree.kind left with
  | .symbol name =>
    let start := (← spanOf left).start
    let _ ← advance
    let args ← arguments parts (← bound)
    let _ ← expect .closeParen
    node (.call name) (← spanFrom start) args
  | _ => refuse "only named functions can be called"

/-- `base[e]`. -/
def indexing (left : NodeId) : Parse NodeId := do
  let _ ← advance
  let index ← parts.expr .lowest
  let _ ← expect .closeBracket
  node .index (← spanFrom (← spanOf left).start) [left, index]

/-- `base.name` or `base.0`. -/
def memberAccess (left : NodeId) : Parse NodeId := do
  let _ ← advance
  match ← currentKind with
  | .identifier | .number =>
    let name ← advance
    node (.field name.value) (← spanFrom (← spanOf left).start) [left]
  | _ => refuse "expected a field name after `.`"

/-- Extends `left` by the construct that the current token begins. -/
def extend (left : NodeId) : Continuation → Parse NodeId
  | .assign => operation parts .assign .comma left
  | .refBind => operation parts .refBind .comma left
  | .binary op => operation parts (.binary op) (operatorPower op) left
  | .call => call parts left
  | .index => indexing parts left
  | .member => memberAccess left

/-- Extends `left` as long as tokens bind more strongly than `power`. -/
def climb (power : Power) : Nat → NodeId → Parse NodeId
  | 0, _ => endless
  | fuel + 1, left => do
    match continuation? (← currentKind) with
    | none => return left
    | some c =>
      if c.power.rank ≤ power.rank then return left
      else climb power fuel (← extend parts left c)

/-- An expression whose parts bind more strongly than `power`. -/
def expression (power : Power) : Parse NodeId := do
  let left ← operand parts
  climb parts power (← bound) left

end BlockLang.Grammar
