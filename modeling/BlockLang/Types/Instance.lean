import BlockLang.Types.Basic

/-!
# Instances of generic definitions

`makeNamed` replaces the parameters of a definition's body by arguments, all at
once: what is put in is not looked at again. Missing arguments become new
parameters, surplus ones are dropped. While the body is walked, the entry of each
parameter holds what it is replaced by.

The parts of a type have smaller handles than the type, which bounds the walk.
-/

namespace BlockLang

namespace TypeTable

/-- Runs `f` over `xs` and hands the table on. -/
def mapTable (f : TypeTable → α → β × TypeTable) (t : TypeTable) :
    List α → List β × TypeTable
  | [] => ([], t)
  | x :: xs =>
    let (y, t) := f t x
    let (ys, t) := mapTable f t xs
    (y :: ys, t)

end TypeTable

/-- A table and the types that have been replaced in it, with their replacements. -/
structure Rebuild where
  table : TypeTable
  done : KeyTree TypeId

namespace Rebuild

/-- Asks the table for a type. -/
def make (f : TypeTable → TypeId × TypeTable) : StateM Rebuild TypeId := do
  let (id, table) := f (← get).table
  modify ({ · with table })
  return id

/-- `id` of the given kind with its parameters replaced, given how its parts are. -/
def rebuild (visit : TypeId → StateM Rebuild TypeId) (id : TypeId) :
    TypeKind → StateM Rebuild TypeId
  | .param _ => return ((← get).table.replacement id).getD id
  | .primitive _ | .error => return id
  | .list element length => do
    let element ← visit element
    make (·.makeList element length)
  | .tuple fields => do
    let fields ← fields.mapM fun field => do
      return ({ field with type := ← visit field.type } : TypeField)
    make (·.makeTuple fields)
  | .reference target => do
    let target ← visit target
    make (·.makeReference target)
  | .named name args expanded => do
    let args ← args.mapM visit
    let expanded ← visit expanded
    make (·.intern (.named name args expanded))
  | .func arguments result => do
    let arguments ← visit arguments
    let result ← visit result
    make (·.makeFunc arguments result)

/-- `id` with its parameters replaced, for a type that unfolds in `depth` levels. A
part that occurs several times is replaced once. -/
def substituteWithin : Nat → TypeId → StateM Rebuild TypeId
  | 0, id => return id
  | depth + 1, id => do
    match (← get).done.find? id.index with
    | some replaced => return replaced
    | none =>
      let replaced ← rebuild (substituteWithin depth) id ((← get).table.kind id)
      modify fun r => { r with done := r.done.insert id.index replaced }
      return replaced

end Rebuild

namespace TypeTable

/-- `id` with every parameter that stands for a type replaced by it. -/
def substitute (t : TypeTable) (id : TypeId) : TypeId × TypeTable :=
  let (replaced, r) := (Rebuild.substituteWithin (id.index + 1) id).run ⟨t, .empty⟩
  (replaced, r.table)

/-- Lets each parameter stand for its argument. A later one wins over an earlier one. -/
def replaceAll (t : TypeTable) (params args : List TypeId) : TypeTable :=
  (params.zip args).foldl (fun t (param, arg) => t.setReplacement param (some arg)) t

/-- Lets each parameter stand for itself. -/
def restoreAll (t : TypeTable) (params : List TypeId) : TypeTable :=
  params.foldl (fun t param => t.setReplacement param none) t

/-- The name of a type parameter. -/
def paramName (t : TypeTable) (id : TypeId) : String :=
  match t.kind id with
  | .param name => name
  | _ => "?"

/-- A new parameter for each of `params`, named after it and the definition. -/
def makeMissing (t : TypeTable) (name : String) (params : List TypeId) :
    List TypeId × TypeTable :=
  mapTable (fun t param => t.makeParam ("<" ++ t.paramName param ++ " in " ++ name ++ ">")) t params

/-- The instance of the definition `name` with the parameters `params` and the
body `base` at `args`. -/
def makeNamed (t : TypeTable) (base : TypeId) (name : String) (params args : List TypeId) :
    TypeId × TypeTable :=
  let given := args.take params.length
  let (missing, t) := t.makeMissing name (params.drop given.length)
  let args := given ++ missing
  let (expanded, t) := (t.replaceAll params args).substitute base
  (t.restoreAll params).intern (.named name args expanded)

end TypeTable
end BlockLang
