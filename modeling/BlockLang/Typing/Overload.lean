import BlockLang.Typing.Resolve
import BlockLang.Types.Cost
import BlockLang.Types.Shape

/-!
# Choosing among functions of one name

Every function, operator or function-typed variable that a name can stand for is
priced by what its parameters cost the arguments. The cheapest one is meant. If
several are equally cheap the call is ambiguous.
-/

namespace BlockLang.Typing

open Pass

/-- The signature of a function, computed when it is first asked for. Its
parameters get their types at the same time; without a result type the function
returns the empty tuple. -/
def functionSignature (id : DeclId) : Pass TypeId := do
  let decl ← declOf id
  if let some type := decl.type then return type
  if decl.resolving then return .error
  match decl.kind with
  | .function params result bodyScope =>
    modifyDecl id ({ · with resolving := true })
    let arguments ← params.mapM fun param => do
      let type ← resolveType bodyScope param.type
      modifyDecl param.decl ({ · with type := some type, ready := true })
      return type
    let result ← match result with
      | some result => resolveType bodyScope result
      | none => pure .unit
    let arguments ← makeType (·.makePlainTuple arguments)
    let signature ← makeType (·.makeFunc arguments result)
    modifyDecl id ({ · with resolving := false, type := some signature, ready := true })
    return signature
  | _ => return .error

/-- The result of calling through a signature. -/
def resultOf (signature : TypeId) : Pass TypeId := do
  return (((← types).func? signature).map (·.2)).getD .error

/-- The signature a declaration can be called through, if it can be called. -/
def callableSignature? (id : DeclId) : Pass (Option TypeId) := do
  let decl ← declOf id
  match decl.kind with
  | .function .. => return some (← functionSignature id)
  | .builtin _ => return decl.type
  | .var .. | .parameter =>
    let types ← types
    return decl.type.filter fun type => (types.func? type).isSome

/-- A declaration that can be called, and what that costs the arguments. -/
structure Candidate where
  decl : DeclId
  signature : TypeId
  cost : Cost
deriving DecidableEq, Inhabited

inductive Resolution where
  | resolved (decl : DeclId) (signature : TypeId)
  /-- Several are cheapest; the first one stands for them. -/
  | ambiguous (first : DeclId) (signature : TypeId) (tied : List DeclId)
  /-- None takes the arguments. -/
  | noMatch
  /-- Nothing of that name can be called. -/
  | notDefined
deriving DecidableEq, Inhabited

/-- The least cost among the candidates. -/
def leastCost (candidates : List Candidate) : Cost :=
  candidates.foldl (fun least c => if least.le c.cost then least else c.cost) .invalid

/-- The cheapest candidate. Those that cost as much are in the order in which they were found,
which is how a priority queue of costs and places gives them out (`choose_eq_chooseFirst`). -/
def choose (candidates : List Candidate) : Resolution :=
  if candidates.isEmpty then .notDefined
  else
    let least := leastCost candidates
    if least = .invalid then .noMatch
    else
      match candidates.filter (·.cost = least) with
      | [] => .noMatch
      | [only] => .resolved only.decl only.signature
      | first :: others => .ambiguous first.decl first.signature ((first :: others).map (·.decl))

/-- The candidate that a declaration makes. -/
def candidate? (arguments : TypeId) (id : DeclId) : Pass (Option Candidate) := do
  match ← callableSignature? id with
  | none => return none
  | some signature =>
    let types ← types
    return (types.func? signature).map fun (parameters, _) =>
      ⟨id, signature, types.compare arguments parameters⟩

/-- What a call of `name` from `scope` with a tuple of arguments means. -/
def resolveOverload (scope : ScopeId) (name : String) (arguments : TypeId) : Pass Resolution := do
  let found ← lookUp (·.findVars scope name)
  let candidates ← found.mapM (candidate? arguments)
  return choose (candidates.filterMap id)

end BlockLang.Typing
