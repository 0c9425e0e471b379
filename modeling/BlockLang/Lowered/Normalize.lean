import BlockLang.Session.Pass

/-!
# Normal form

Before lowering, a block around a single expression gives way to the expression,
and the places that can be stored to are marked: names, and parts of such places.
A store to anything else is reported.
-/

namespace BlockLang.Normalize

open Pass

/-- The expression that a block's only statement comes down to. -/
def soleExpression? (tree : Arena) (block : NodeId) : Option (NodeId × NodeId) :=
  match tree.children block with
  | [statement] =>
    match tree.kind statement with
    | .exprStmt => (tree.child? statement 0).map (statement, ·)
    | kind => if kind.isExpression then some (statement, statement) else none
  | _ => none

/-- Puts the expression in place of a block that holds nothing else. -/
def collapseBlock (block : NodeId) : Pass Unit := do
  let tree ← Pass.tree
  match soleExpression? tree block, tree.parent block with
  | some (statement, expression), some _ =>
    let _ ← takeChildren block
    if expression ≠ statement then
      let _ ← takeChildren statement
    tryTree (·.replaceNode block expression)
  | _, _ => return

def mark (node : NodeId) (lvalue : Bool) : Pass Unit := annotate node ({ · with lvalue })

/-- Reports a child that is stored to and is no place. -/
def checkPlace (node : NodeId) (index : Nat) (operation : String) : Pass Unit := do
  match ← child? node index with
  | none => return
  | some target =>
    if !(← factsOf target).lvalue then reportAt target (.notAnLvalue operation)

/-- The part that concerns one node, whose children are done. -/
def visit (node : NodeId) : Pass Unit := do
  match ← kindOf node with
  | .block => collapseBlock node
  | .symbol _ => mark node true
  | .index | .field _ =>
    match ← child? node 0 with
    | some base => mark node (← factsOf base).lvalue
    | none => mark node false
  | .assign => checkPlace node 0 "="
  | .refBind =>
    checkPlace node 0 "@="
    checkPlace node 1 "@="
  | .varDecl _ _ true => checkPlace node 0 "@="
  | _ => return

end Normalize

/-- Brings the tree below `root` into normal form. -/
def normalize (root : NodeId) : Pass Unit := do
  Walk.bottomUp Pass.childrenOf Normalize.visit (← Pass.tree).size root

end BlockLang
