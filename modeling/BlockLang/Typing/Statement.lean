import BlockLang.Typing.Operation
import BlockLang.Typing.Place

/-!
# Inferring the types of a module

Statements are taken in order, and so are the steps of a basic block, so that the
operands of a step are known before it. Analysis may put another node in the place
of the one it is given; it returns the node that stands there in the end. A
condition that is known decides its branch at once.

`missing` gives the type of a temporary whose producer has none.
-/

namespace BlockLang.Typing

open Pass

/-- A container has the type and the value of its last element. -/
def annotateContainer (node : NodeId) : Pass Unit := do
  match (← childrenOf node).getLast? with
  | none => annotate node fun _ => { Facts.none with type := some .unit }
  | some last =>
    let a ← factsOf last
    annotate node fun _ => { Facts.none with type := some (a.type.getD .unit), value := a.value }

/-- A temporary knows what its producer knows. -/
def copyProducer (missing : Pass TypeId) (node : NodeId) (temp : TempId) : Pass Unit := do
  let producer := (← get).temps[temp.index]?.getD default
  let a ← factsOf producer
  let type ← match a.type with
    | some type => pure type
    | none => missing
  let value ← match a.value with
    | some value => some <$> duplicate value
    | none => pure none
  annotate node fun _ => { a with type := some type, value }

/-- Reports a condition that is no truth value. -/
def checkCondition (condition : NodeId) : Pass Unit := do
  let type ← typeOf condition
  if ← containsError type then return
  if !(← converts type Primitive.bool.typeId) then
    mismatch condition Primitive.bool.typeId type

/-- The value of a condition that is known, which is reported. -/
def constantCondition? (condition : NodeId) : Pass (Option Bool) := do
  let values := (← get).values
  match (← valueOf? condition).bind values.bool? with
  | none => return none
  | some value =>
    report ⟨.constantCondition value, ← startOf condition, .nitpick, []⟩
    return some value

/-- An empty basic block in the place of `node`. -/
def emptyBlockLike (node : NodeId) : Pass NodeId := do
  let block ← addLike node .basicBlock
  setType block .unit
  return block

/-- Whether some temporary holds the result of `node`. -/
def producesValue (node : NodeId) : Pass Bool := return (← get).temps.any (· == node)

/-- The type of a conditional whose value is used: the arm that the other converts
to, the first one if both do. -/
def joinArms (node : NodeId) (first second : TypeId) : Pass TypeId := do
  if (← containsError first) || (← containsError second) then return .error
  if ← converts second first then return first
  if ← converts first second then return second
  mismatch node first second
  return .error

/-- Resolves the type definition declared here. -/
def analyzeTypeDecl (node : NodeId) (name : String) : Pass Unit := do
  let scope ← scopeOf node
  match ← lookUp (·.findType? scope name) with
  | some id =>
    let _ ← resolveTypeDef id (← startOf node)
  | none => pure ()
  setType node .unit

/-- Checks a returned value against the result of the function, if there is one. -/
def analyzeReturn (node : NodeId) (result : Option TypeId) (poisoned : Bool) : Pass Unit := do
  setType node .unit
  match result with
  | none => reportAt node .returnOutsideFunction
  | some result =>
    if poisoned || (← containsError result) then return
    let received ← match ← child? node 0 with
      | some value => typeOf value
      | none => pure .unit
    if !(← converts received result) then mismatch node result received

/-- The type of a variable from its declared type and that of its initial value. -/
def joinDeclared (node : NodeId) (declared initial : Option TypeId) : Pass TypeId := do
  match declared, initial with
  | some declared, some initial =>
    let poisoned := (← containsError initial) || (← containsError declared)
    if !poisoned && !(← converts initial declared) then mismatch node declared initial
    return declared
  | some declared, none => return declared
  | none, some initial => return initial
  | none, none => return .error

/-- The type of a variable declared as a reference: a reference to the declared type,
unless that is one already, and to what it is bound to. -/
def referenceTo (type : Option TypeId) (keepReference : Bool) : Pass (Option TypeId) := do
  match type with
  | none => return none
  | some type =>
    if keepReference && (← types).isReference type then return some type
    else some <$> makeType (·.makeReference type)

/-- A constant as the value of a variable of type `type`. -/
def constantOfType (value : ValueId) (type : TypeId) : Pass (Option ValueId) := do
  let values := (← get).values
  if values.type? value = some type then some <$> duplicate value
  else
    match (← types).underlying? type, values.primitive? value with
    | some target, some _ => onValues? (·.cast? value type target)
    | _, _ => some <$> onValues (·.retyped value type)

/-- Gives a variable its type and, if it is constant, its value. -/
def analyzeVarDecl (node : NodeId) (id : DeclId) (declared : Option TypeExpr) (isRef : Bool) :
    Pass Unit := do
  let scope ← scopeOf node
  let declared ← match declared with
    | some expr => some <$> resolveType scope expr
    | none => pure none
  let initializer ← child? node 0
  let initial ← match initializer with
    | some init => some <$> typeOf init
    | none => pure none
  let type ← if isRef then do
      let declared ← referenceTo declared true
      let initial ← referenceTo initial false
      joinDeclared node declared initial
    else joinDeclared node declared initial
  let constant ← match initializer with
    | some init => if (← declOf id).isConst && !isRef then valueOf? init else pure none
    | none => pure none
  let value ← match constant with
    | some value => constantOfType value type
    | none => pure none
  modifyDecl id ({ · with type := some type, ready := true, value })
  setType node .unit

/-- A node whose operands are wrong is wrong too and not looked at further. -/
def unlessPoisoned (poisoned : Bool) (node : NodeId) (analyze : Pass NodeId) : Pass NodeId := do
  if poisoned then
    setType node .error
    return node
  else analyze

/-- Gives a node the type that `analyze` finds, or the error type. -/
def typeUnlessPoisoned (poisoned : Bool) (node : NodeId) (analyze : Pass TypeId) :
    Pass NodeId := do
  setType node (← if poisoned then pure .error else analyze)
  return node

/-- Lets the temporaries among the operands of a node know their producers. -/
def readOperands (missing : Pass TypeId) (node : NodeId) : Pass Unit := do
  (← childrenOf node).forM fun operand => do
    match ← kindOf operand with
    | .temp temp => copyProducer missing operand temp
    | _ => return

/-- Whether some operand of a node is wrong. -/
def isPoisoned (node : NodeId) : Pass Bool := do
  let types ← types
  return (← (← childrenOf node).mapM typeOf).any types.containsError

/-- Analyzes a step that contains no statements. -/
def plainStep (missing : Pass TypeId) (node : NodeId) (kind : NodeKind) (result : Option TypeId)
    (poisoned : Bool) : Pass NodeId := do
  match kind with
  | .literal =>
    if (← factsOf node).type.isNone then setType node .error
    return node
  | .nullValue =>
    setTypeAndValue node .unit (some (← onValues (·.alloc .null)))
    return node
  | .temp temp =>
    copyProducer missing node temp
    return node
  | .symbol name =>
    analyzeSymbol node name
    return node
  | .binary op =>
    unlessPoisoned poisoned node (analyzeOperator node op.symbol op.promotesOperands)
  | .unary op => unlessPoisoned poisoned node (analyzeOperator node op.symbol false)
  | .call name => unlessPoisoned poisoned node (analyzeCall node name)
  | .builtinCall op =>
    foldCall node op
    return node
  | .cast target =>
    analyzeCast node target
    return node
  | .assign => typeUnlessPoisoned poisoned node (analyzeAssign node)
  | .refBind => typeUnlessPoisoned poisoned node (analyzeRefBind node)
  | .tuple names =>
    analyzeTuple node names
    return node
  | .list => typeUnlessPoisoned poisoned node (analyzeList node)
  | .index =>
    unlessPoisoned poisoned node do
      analyzeIndex node
      return node
  | .field name =>
    unlessPoisoned poisoned node do
      analyzeField node name
      return node
  | .returnStmt =>
    analyzeReturn node result poisoned
    return node
  | .varDecl id declared isRef =>
    analyzeVarDecl node id declared isRef
    return node
  | _ => return node

variable (missing : Pass TypeId)

mutual

/-- Analyzes a statement inside a function with the result `result`, if in one. -/
def analyzeStatement (result : Option TypeId) : Nat → NodeId → Pass NodeId
  | 0, _ => throw .endless
  | fuel + 1, node => do
    match ← kindOf node with
    | .pair | .basicBlock =>
      analyzeChildren result fuel node 0
      annotateContainer node
      return node
    | .ifElse => analyzeIf result fuel node
    | .whileLoop => analyzeWhile result fuel node
    | .funcDecl id =>
      let signature ← functionSignature id
      let inner ← resultOf signature
      setType node signature
      if let some body ← child? node 0 then
        let _ ← analyzeStatement (some inner) fuel body
      return node
    | .typeDecl name =>
      analyzeTypeDecl node name
      return node
    | .importDecl .. | .moduleRoot _ => return node
    | _ => analyzeStep result fuel node

/-- Analyzes the children of a node from `index` on. A child that is replaced, or
gets new neighbours before it, is found again by its place. -/
def analyzeChildren (result : Option TypeId) : Nat → NodeId → Nat → Pass Unit
  | 0, _, _ => throw .endless
  | fuel + 1, node, index => do
    match ← child? node index with
    | none => return
    | some child =>
      let analyzed ← analyzeStatement result fuel child
      let tree ← Pass.tree
      let place := if tree.parent analyzed = some node then
        (tree.indexInParent? analyzed).getD index else index
      analyzeChildren result fuel node (place + 1)

/-- Analyzes a step of a basic block. -/
def analyzeStep (result : Option TypeId) : Nat → NodeId → Pass NodeId
  | 0, _ => throw .endless
  | fuel + 1, node => do
    let kind ← kindOf node
    readOperands missing node
    let poisoned ← isPoisoned node
    match kind with
    | .exprStmt =>
      if let some value ← child? node 0 then
        let _ ← analyzeStep result fuel value
      setType node .unit
      return node
    | .moduleRoot _ | .block | .pair | .basicBlock | .ifElse | .whileLoop | .funcDecl _
    | .typeDecl _ | .importDecl .. => analyzeStatement result fuel node
    | kind => plainStep missing node kind result poisoned

/-- Analyzes a conditional. If the condition is known, the arm it selects takes the
place of the whole. -/
def analyzeIf (result : Option TypeId) : Nat → NodeId → Pass NodeId
  | 0, _ => throw .endless
  | fuel + 1, node => do
    match ← child? node 0 with
    | none => return node
    | some condition =>
      let condition ← analyzeStatement result fuel condition
      checkCondition condition
      match ← constantCondition? condition with
      | some taken =>
        let parts ← takeChildren node
        let replacement ← match parts[if taken then 1 else 2]? with
          | some arm => pure arm
          | none => emptyBlockLike node
        substitute node replacement
        let analyzed ← analyzeStatement result fuel replacement
        retargetTemps replacement analyzed
        return analyzed
      | none =>
        let arms ← analyzeArms result fuel node 1
        let type ← match arms with
          | [first, second] =>
            if ← producesValue node then joinArms node first second else pure .unit
          | _ => pure .unit
        setType node type
        return node

/-- Analyzes the arms of a conditional from the child at `index` on. -/
def analyzeArms (result : Option TypeId) : Nat → NodeId → Nat → Pass (List TypeId)
  | 0, _, _ => throw .endless
  | fuel + 1, node, index => do
    match ← child? node index with
    | none => return []
    | some arm =>
      let type ← typeOf (← analyzeStatement result fuel arm)
      return type :: (← analyzeArms result fuel node (index + 1))

/-- Analyzes a loop. One that never runs gives way to an empty block. -/
def analyzeWhile (result : Option TypeId) : Nat → NodeId → Pass NodeId
  | 0, _ => throw .endless
  | fuel + 1, node => do
    match ← child? node 0 with
    | none => return node
    | some condition =>
      let condition ← analyzeStatement result fuel condition
      checkCondition condition
      if (← constantCondition? condition) = some false then
        let _ ← takeChildren node
        let replacement ← emptyBlockLike node
        substitute node replacement
        return replacement
      else
        if let some body ← child? node 1 then
          let _ ← analyzeStatement result fuel body
        setType node .unit
        return node

end

end Typing

/-- Infers the types below `root`. Along every path of calls each node of the tree is
met a small number of times. -/
def inferWith (missing : Pass TypeId) (root : NodeId) : Pass Unit := do
  Typing.analyzeChildren missing none (4 * ((← Pass.tree).size + 1)) root 0

/-- Infers the types below `root`; a temporary whose producer has no type counts as wrong. -/
def infer (root : NodeId) : Pass Unit := inferWith (pure .error) root

end BlockLang
