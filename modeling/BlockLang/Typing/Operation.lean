import BlockLang.Typing.Fact
import BlockLang.Typing.Overload

/-!
# Operators and calls

Operators are resolved like calls of functions with the operator's name. Operands
of different arithmetic types are first brought to a common type by casts, which
are steps of their own inside a basic block. A resolved operator becomes a call of
the built-in and is computed if its operands are constant.
-/

namespace BlockLang.Typing

open Pass

/-- Gives a cast its type, and its value if the operand has one. -/
def annotateCast (cast operand : NodeId) (target : Primitive) : Pass Unit := do
  let value ← match ← valueOf? operand with
    | none => pure none
    | some value => onValues? (·.cast? value target.typeId target)
  setTypeAndValue cast target.typeId value

/-- Puts a cast to `target` between an operand and its user. In a basic block the
cast stands just before the user, which gets a temporary for it. -/
def insertCast (user operand : NodeId) (target : Primitive) : Pass Unit := do
  let placeholder ← addLike operand .nullValue
  tryTree (·.replaceChild user operand placeholder)
  let cast ← addNode (.cast target.typeId) (← spanOf operand) (← scopeOf operand) [operand]
  annotateCast cast operand target
  let tree ← Pass.tree
  let block := (tree.parent user).filter fun parent => (tree.kind parent).isBasicBlock
  let replacement ← match block with
    | none => pure cast
    | some block =>
      tryTree (·.insertChild block ((tree.indexInParent? user).getD 0) cast)
      let temp ← newTemp cast
      let temp ← addLike operand (.temp temp)
      let facts ← factsOf cast
      annotate temp fun _ => facts
      pure temp
  tryTree (·.replaceChild user placeholder replacement)

/-- Brings the two operands of a node to a common type. Says whether anything was
to do. -/
def promoteOperands (node : NodeId) : Pass Bool := do
  let tree ← Pass.tree
  match tree.children node with
  | [lhs, rhs] =>
    match (tree.facts lhs).type, (tree.facts rhs).type with
    | some lhsType, some rhsType =>
      match (← types).promotion? lhsType rhsType with
      | none => return false
      | some target =>
        let casts ← [lhs, rhs].mapM fun operand => do
          if (← types).underlying? (← typeOf operand) = some target then return false
          insertCast node operand target
          return true
        return casts.any id
    | _, _ => return false
  | _ => return false

/-- The types of the operands as a tuple. -/
def argumentTuple (node : NodeId) : Pass TypeId := do
  let operands ← (← childrenOf node).mapM typeOf
  makeType (·.makePlainTuple operands)

/-- Whether exactly these arguments are asked for. -/
def isExactMatch (resolution : Resolution) (arguments : TypeId) : Pass Bool := do
  match resolution with
  | .resolved _ signature =>
    return (((← types).func? signature).map (·.1)) == some arguments
  | _ => return false

/-- Reports that `name` may mean any of `tied`. -/
def reportAmbiguity (node : NodeId) (name : String) (tied : List DeclId) : Pass Unit := do
  let notes ← tied.mapM fun id => do return (← declOf id).position
  report ⟨.ambiguousOverload name tied.length, ← startOf node, .error, notes⟩

/-- Computes a built-in call whose operands are all constant. -/
def foldCall (node : NodeId) (op : Builtin) : Pass Unit := do
  let tree ← Pass.tree
  match (tree.children node).mapM fun operand => (tree.facts operand).value with
  | none => return
  | some values =>
    let type ← typeOf node
    match (← get).values.fold op type values with
    | .value (value, heap) =>
      modify fun s => { s with values := heap }
      annotate node ({ · with value := some value })
    | .divisionByZero => report ⟨.divisionByZero, ← startOf node, .warning, []⟩
    | .notConstant => return

/-- Puts `new` in place of `old`, for temporaries too. -/
def substitute (old new : NodeId) : Pass Unit := do
  tryTree (·.replaceNode old new)
  retargetTemps old new

/-- Binds a use to the declaration it means. Returns the node that stands there. -/
def bindTo (node : NodeId) (id : DeclId) (signature : TypeId) : Pass NodeId := do
  let result ← resultOf signature
  match (← declOf id).binding id with
  | .builtin op =>
    let operands ← takeChildren node
    let call ← addNode (.builtinCall op) (← spanOf node) (← scopeOf node) operands
    substitute node call
    annotate call ({ · with type := some result, binding := some (.builtin op) })
    foldCall call op
    return call
  | binding =>
    annotate node ({ · with type := some result, binding := some binding })
    return node

/-- Reports that nothing called `name` takes the arguments. -/
def reportNoMatch (node : NodeId) (name : String) (arguments : TypeId) : Pass NodeId := do
  reportAt node (.noMatchingOverload name (← display arguments))
  setType node .error
  return node

/-- Resolves an operator, with a second try after promotion unless the first one
asked for exactly these operands. -/
def analyzeOperator (node : NodeId) (symbol : String) (promotes : Bool) : Pass NodeId := do
  let scope ← scopeOf node
  let arguments ← argumentTuple node
  let resolution ← resolveOverload scope symbol arguments
  let retry ← if promotes && !(← isExactMatch resolution arguments) then promoteOperands node
    else pure false
  let (arguments, resolution) ← if retry then do
      let arguments ← argumentTuple node
      pure (arguments, ← resolveOverload scope symbol arguments)
    else pure (arguments, resolution)
  match resolution with
  | .resolved decl signature => bindTo node decl signature
  | .ambiguous first signature tied =>
    reportAmbiguity node symbol tied
    bindTo node first signature
  | .noMatch | .notDefined => reportNoMatch node symbol arguments

/-- Resolves a call. -/
def analyzeCall (node : NodeId) (name : String) : Pass NodeId := do
  let arguments ← argumentTuple node
  match ← resolveOverload (← scopeOf node) name arguments with
  | .resolved decl signature => bindTo node decl signature
  | .ambiguous first signature tied =>
    reportAmbiguity node name tied
    bindTo node first signature
  | .noMatch => reportNoMatch node name arguments
  | .notDefined =>
    reportAt node (.variableNotDeclared name)
    setType node .error
    return node

/-- Gives a cast that has no type yet its type and value. -/
def analyzeCast (node : NodeId) (target : TypeId) : Pass Unit := do
  if (← factsOf node).type.isSome then return
  match ← child? node 0 with
  | none => return
  | some operand =>
    let value ← match (← types).primitive? target, ← valueOf? operand with
      | some primitive, some value => onValues? (·.cast? value target primitive)
      | _, _ => pure none
    setTypeAndValue node target value

/-- Finds what a name means where it is used. -/
def analyzeSymbol (node : NodeId) (name : String) : Pass Unit := do
  let scope ← scopeOf node
  match ← lookUp (·.findVars scope name) with
  | [] =>
    reportAt node (.variableNotDeclared name)
    setType node .error
  | id :: others =>
    let decl ← declOf id
    if decl.isCallable then
      let callables ← (id :: others).filterM fun other => do return (← declOf other).isCallable
      if 1 < callables.length then reportAmbiguity node name callables
      let type := (← callableSignature? id).getD .error
      let value ← onValues (·.alloc (.function id type))
      annotate node fun _ => ⟨some type, some value, false, some (decl.binding id)⟩
    else if !decl.ready then
      reportAt node (.usedBeforeDeclaration name)
      setType node .error
    else
      let value ← match decl.isConst, decl.value with
        | true, some value => some <$> duplicate value
        | _, _ => pure none
      annotate node ({ · with
        type := some (decl.type.getD .error), value, binding := some (.decl id) })

end BlockLang.Typing
