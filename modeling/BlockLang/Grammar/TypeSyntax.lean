import BlockLang.Grammar.Cursor
import BlockLang.Number.Double

/-!
# The grammar of types

Names with arguments (`Pair<int32>`), lists (`[int8]`, `[int8; 4]`), tuples
(`()`, `(int32,)`, `(x: int32, bool)`), references (`@int32`) and functions
(`fn(int32) -> bool`). `(T)` is `T`.
-/

namespace BlockLang.Grammar

open Parse

/-- A number with at most `limit` as its value. -/
def boundedNumber (token : Token) (limit : Nat) : Parse Nat :=
  let n := Number.ofDigits token.value.toList
  if n ≤ limit then return n else fail (.numberParseError token.value) token.span.start

/-- A name before a colon, if there is one here. -/
def fieldName : Parse (Option String) := do
  let c ← get
  if c.current.kind = .identifier ∧ c.peekKind 1 = .colon then
    let name ← advance
    let _ ← advance
    return some name.value
  else return none

/-- `Name` or `Name<T, U>`. -/
def namedType (type : Parse TypeExpr) : Parse TypeExpr := do
  let name ← expect .identifier
  if ← accept .less then
    let (args, _) ← separated .greater "expected `,` or `>` in type arguments" type (← bound)
    let _ ← expect .greater
    return .name name.value args name.span.start
  else return .name name.value [] name.span.start

/-- `[T]` or `[T; n]`. -/
def listType (type : Parse TypeExpr) : Parse TypeExpr := do
  let _ ← expect .openBracket
  let element ← type
  if ← accept .semicolon then
    let token ← expect .number
    let length ← boundedNumber token (Nat.pow 2 64 - 1)
    let _ ← expect .closeBracket
    return .list element (some (.ofNat length))
  else
    let _ ← expect .closeBracket
    return .list element none

/-- `(T, U)`, where places may have names. -/
def tupleType (type : Parse TypeExpr) : Parse TypeExpr := do
  let _ ← expect .openParen
  let item := do return (← fieldName, ← type)
  let (fields, sawComma) ←
    separated .closeParen "expected `,` or `)` in tuple type" item (← bound)
  let _ ← expect .closeParen
  match fields, sawComma with
  | [(none, inner)], false => return inner
  | _, _ => return .tuple fields

/-- `fn(T, U) -> R`; without a result it is the empty tuple. -/
def funcType (type : Parse TypeExpr) : Parse TypeExpr := do
  let _ ← expect .fnWord
  let _ ← expect .openParen
  let (arguments, _) ←
    separated .closeParen "expected `,` or `)` in function type" type (← bound)
  let _ ← expect .closeParen
  if ← accept .arrow then return .func arguments (← type)
  else return .func arguments (.tuple [])

/-- A type; `type` reads its parts. -/
def typeSyntax (type : Parse TypeExpr) : Parse TypeExpr := do
  match ← currentKind with
  | .identifier => namedType type
  | .openBracket => listType type
  | .openParen => tupleType type
  | .atSign =>
    let _ ← expect .atSign
    return .reference (← type)
  | .fnWord => funcType type
  | _ => unexpected

end BlockLang.Grammar
