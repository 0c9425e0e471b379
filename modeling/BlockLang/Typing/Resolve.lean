import BlockLang.Session.Pass
import BlockLang.Types.Instance

/-!
# Resolving written types

A written type is resolved where it stands. A definition is resolved when it is
first named, and the outcome is kept with it. One that is met again while it is
being resolved refers to itself and is reported. What cannot be resolved becomes
the error type.
-/

namespace BlockLang.Typing

open Pass

/-- The parameters of the definition being resolved. -/
abbrev ParamEnv := List (String × TypeId)

/-- How a definition is resolved, for a use at a position. -/
abbrev Define := TypeDefId → Position → Pass (Option TypeId)

/-- The instance of the definition called `name`. -/
def resolveNamed (define : Define) (scope : ScopeId) (name : String) (args : List TypeId)
    (position : Position) : Pass TypeId := do
  match ← lookUp (·.findType? scope name) with
  | none =>
    report (.error (.unknownType name) position)
    return .error
  | some id =>
    match ← define id position with
    | none => return .error
    | some body =>
      let typeDef := (← scopes).typeDef id
      match typeDef.body with
      | .builtin type => return type
      | .written _ => makeType (·.makeNamed body name typeDef.paramTypes args)

mutual

/-- The type that an expression stands for in `scope`. -/
def resolveIn (define : Define) (scope : ScopeId) (env : ParamEnv) : TypeExpr → Pass TypeId
  | .name name args position => do
    match args, env.lookup name with
    | [], some param => return param
    | args, _ =>
      let args ← resolveList define scope env args
      resolveNamed define scope name args position
  | .list element length => do
    let element ← resolveIn define scope env element
    makeType (·.makeList element length)
  | .tuple fields => do
    let fields ← resolveFields define scope env fields
    makeType (·.makeTuple fields)
  | .reference target => do
    let target ← resolveIn define scope env target
    makeType (·.makeReference target)
  | .func arguments result => do
    let arguments ← resolveList define scope env arguments
    let arguments ← makeType (·.makePlainTuple arguments)
    let result ← resolveIn define scope env result
    makeType (·.makeFunc arguments result)

def resolveList (define : Define) (scope : ScopeId) (env : ParamEnv) :
    List TypeExpr → Pass (List TypeId)
  | [] => return []
  | expr :: exprs => do
    let type ← resolveIn define scope env expr
    return type :: (← resolveList define scope env exprs)

def resolveFields (define : Define) (scope : ScopeId) (env : ParamEnv) :
    List (Option String × TypeExpr) → Pass (List TypeField)
  | [] => return []
  | (name, expr) :: fields => do
    let type ← resolveIn define scope env expr
    return ⟨name, type⟩ :: (← resolveFields define scope env fields)

end

/-- A new type parameter for each name. -/
def makeParams (names : List String) : Pass ParamEnv :=
  names.mapM fun name => do return (name, ← makeType (·.makeParam name))

/-- Resolves the body of a definition, once. Each nested call works on another
definition. -/
def resolveDef : Nat → Define
  | 0, _, _ => throw .endless
  | depth + 1, id, position => do
    let typeDef := (← scopes).typeDef id
    let update (f : TypeDef → TypeDef) : Pass Unit :=
      modify fun s => { s with scopes := s.scopes.modifyTypeDef id f }
    if let some body := typeDef.resolved then return some body
    if typeDef.resolving then
      report ⟨.recursiveType typeDef.name, position, .error, [typeDef.position]⟩
      return none
    match typeDef.body with
    | .builtin type =>
      update ({ · with resolved := some type })
      return some type
    | .written expr =>
      update ({ · with resolving := true })
      let env ← makeParams typeDef.params
      let body ← resolveIn (resolveDef depth) typeDef.scope env expr
      update ({ · with resolving := false, paramTypes := env.map (·.2), resolved := some body })
      return some body

/-- Resolves a definition named at `position`. -/
def resolveTypeDef (id : TypeDefId) (position : Position) : Pass (Option TypeId) := do
  resolveDef ((← scopes).typeDefs.size + 1) id position

/-- The type that `expr` stands for in `scope`. -/
def resolveType (scope : ScopeId) (expr : TypeExpr) : Pass TypeId :=
  resolveIn resolveTypeDef scope [] expr

end BlockLang.Typing
