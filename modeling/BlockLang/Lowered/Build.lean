import BlockLang.Session.Pass

/-!
# Lowering to basic blocks

A statement is flattened into steps. Every expression in it becomes a step of its
own, and its user gets a temporary in its place. Steps that branch, group or
declare stand alone; the runs between them become basic blocks, and everything is
chained by pairs. Conditions become containers of their own, so that a loop
evaluates them each time.

The functions below return the steps they make in order. Nodes handed to them are
detached, and so are the ones they return.
-/

namespace BlockLang

/-- Steps that cannot stand in a basic block. -/
def NodeKind.splitsBlock (kind : NodeKind) : Bool :=
  kind.isControlFlow || kind.isContainer || kind.isDeclaration

namespace Lower

open Pass

/-- A temporary for the result of `producer`. -/
def tempFor (producer : NodeId) : Pass NodeId := do
  let temp ← newTemp producer
  addLike producer (.temp temp)

/-- A step without effect, for the value of something that has none. -/
def nullStep (origin : NodeId) : Pass (List NodeId × NodeId) := do
  let null ← addLike origin .nullValue
  return ([null], ← tempFor null)

/-- A basic block of steps. -/
def basicBlock (steps : List NodeId) : Pass NodeId := do
  let tree ← Pass.tree
  match steps.head?, steps.getLast? with
  | some first, some last =>
    addNode .basicBlock ((tree.span first).to (tree.span last)) (tree.scope first) steps
  | _, _ => addNode .basicBlock .null (← get).universal steps

/-- The steps in order, with runs of plain ones packed; `run` has been read. -/
def segments (run : List NodeId) : List NodeId → Pass (List NodeId)
  | [] => if run.isEmpty then return [] else return [← basicBlock run]
  | step :: steps => do
    if (← kindOf step).splitsBlock then
      let before ← if run.isEmpty then pure [] else pure [← basicBlock run]
      return before ++ step :: (← segments [] steps)
    else segments (run ++ [step]) steps

/-- The segments as a chain of pairs nested to the right. -/
def chainSegments : List NodeId → Pass (Option NodeId)
  | [] => return none
  | [last] => return some last
  | first :: others => do
    match ← chainSegments others with
    | none => return some first
    | some rest =>
      let tree ← Pass.tree
      let span := (tree.span first).to (tree.span rest)
      return some (← addNode .pair span (tree.scope first) [first, rest])

/-- Packs the steps made from `origin`. -/
def pack (origin : NodeId) (steps : List NodeId) : Pass NodeId := do
  match ← chainSegments (← segments [] steps) with
  | some chained => return chained
  | none => addLike origin .basicBlock

/-- Replaces each child by what `f` makes of it. -/
def replaceChildren (node : NodeId) (f : NodeId → Pass NodeId) : Pass Unit := do
  (← takeChildren node).forM fun child => do pushChild node (← f child)

mutual

/-- Lowers a statement. -/
def statement : Nat → NodeId → Pass NodeId
  | 0, _ => throw .endless
  | fuel + 1, node => do
    match ← kindOf node with
    | .pair =>
      replaceChildren node (statement fuel)
      return node
    | .block =>
      match (← takeChildren node).getLast? with
      | some only => statement fuel only
      | none => addLike node .basicBlock
    | .funcDecl _ =>
      match (← takeChildren node).getLast? with
      | some body => pushChild node (← statement fuel body)
      | none => pure ()
      return node
    | .typeDecl _ | .importDecl .. | .basicBlock => return node
    | _ => pack node (← statementSteps fuel node)

/-- The steps of a statement, whose value is dropped. -/
def statementSteps : Nat → NodeId → Pass (List NodeId)
  | 0, _ => throw .endless
  | fuel + 1, node => do
    match ← kindOf node with
    | .exprStmt =>
      match (← takeChildren node).getLast? with
      | some expression => return (← valueSteps fuel expression).1
      | none => return []
    | .block | .pair => return ((← (← takeChildren node).mapM (statementSteps fuel))).flatten
    | .varDecl .. | .returnStmt => return (← operandSteps fuel node) ++ [node]
    | .ifElse | .whileLoop =>
      branches fuel node
      return [node]
    | .funcDecl _ | .typeDecl _ | .importDecl .. => return [← statement fuel node]
    | _ => return (← valueSteps fuel node).1

/-- The steps that compute a node, and a temporary for its value. -/
def valueSteps : Nat → NodeId → Pass (List NodeId × NodeId)
  | 0, _ => throw .endless
  | fuel + 1, node => do
    match ← kindOf node with
    | .temp _ => return ([], node)
    | .block | .pair => sequenceSteps fuel node (← takeChildren node)
    | .exprStmt =>
      match (← takeChildren node).getLast? with
      | some expression => valueSteps fuel expression
      | none => nullStep node
    | .ifElse | .whileLoop =>
      branches fuel node
      return ([node], ← tempFor node)
    | kind =>
      if kind.isExpression then
        let steps ← operandSteps fuel node
        return (steps ++ [node], ← tempFor node)
      else
        let steps ← statementSteps fuel node
        let (null, temp) ← nullStep node
        return (steps ++ null, temp)

/-- The steps of statements used as a value: that of the last one. -/
def sequenceSteps : Nat → NodeId → List NodeId → Pass (List NodeId × NodeId)
  | 0, _, _ => throw .endless
  | fuel + 1, origin, statements => do
    match statements.getLast? with
    | none => nullStep origin
    | some last =>
      let leading := (← statements.dropLast.mapM (statementSteps fuel)).flatten
      let (steps, temp) ← match ← kindOf last with
        | .pair | .block => do sequenceSteps fuel last (← takeChildren last)
        | _ => valueSteps fuel last
      return (leading ++ steps, temp)

/-- The steps that compute the operands of a node, which get temporaries in their
place. -/
def operandSteps : Nat → NodeId → Pass (List NodeId)
  | 0, _ => throw .endless
  | fuel + 1, node => do
    let steps ← (← takeChildren node).mapM fun operand => do
      let (steps, temp) ← valueSteps fuel operand
      pushChild node temp
      return steps
    return steps.flatten

/-- Lowers the condition and the arms or body of a branching node. -/
def branches : Nat → NodeId → Pass Unit
  | 0, _ => throw .endless
  | fuel + 1, node => do
    match ← takeChildren node with
    | [] => return
    | condition :: arms =>
      let (steps, _) ← valueSteps fuel condition
      pushChild node (← pack condition steps)
      arms.forM fun arm => do pushChild node (← statement fuel arm)

end

end Lower

/-- Lowers every item of a module. The nesting of calls is a small multiple of that
of the tree. -/
def lower (root : NodeId) : Pass Unit := do
  let fuel := 4 * ((← Pass.tree).size + 1)
  Lower.replaceChildren root (Lower.statement fuel)

end BlockLang
