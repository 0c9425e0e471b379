import BlockLang.Session.Pass
import BlockLang.Types.Cost
import BlockLang.Types.Shape

/-!
# What is known of nodes

Reading and writing the types and values found for nodes. A node without a type
counts as wrong.
-/

namespace BlockLang.Typing

open Pass

def setType (node : NodeId) (type : TypeId) : Pass Unit :=
  annotate node ({ · with type := some type })

def setTypeAndValue (node : NodeId) (type : TypeId) (value : Option ValueId) : Pass Unit :=
  annotate node ({ · with type := some type, value })

def typeOf (node : NodeId) : Pass TypeId := return ((← factsOf node).type).getD .error

def valueOf? (node : NodeId) : Pass (Option ValueId) := return (← factsOf node).value

def containsError (type : TypeId) : Pass Bool := return (← types).containsError type

/-- Whether a value of type `a` can stand where `b` is wanted. -/
def converts (a b : TypeId) : Pass Bool := return ((← types).compare a b).isValid

def display (type : TypeId) : Pass String := return (← types).display type

/-- Reports that `received` stands where `expected` is wanted. -/
def mismatch (node : NodeId) (expected received : TypeId) : Pass Unit := do
  reportAt node (.typeMatchError (← display expected) (← display received))

/-- A copy of a value. -/
def duplicate (value : ValueId) : Pass ValueId := onValues (·.duplicate value)

/-- Copies of the values of all nodes, if all have one. -/
def valuesOf? (nodes : List NodeId) : Pass (Option (List ValueId)) := do
  let tree ← Pass.tree
  match nodes.mapM fun node => (tree.facts node).value with
  | none => return none
  | some values => return some (← values.mapM duplicate)

/-- An element of the value of `base`, if it has one. -/
def elementOf? (base : NodeId) (index : Nat) : Pass (Option ValueId) := do
  match ← valueOf? base with
  | none => return none
  | some value => onValues? (·.element? value index)

end BlockLang.Typing
