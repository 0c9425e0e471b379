import BlockLang.Handle

/-!
# Faults

A fault is a request that a table cannot follow: a handle it never gave out or a
link of the tree that would break. No program leads to one; whoever works on the
tables directly may.
-/

namespace BlockLang

inductive Fault where
  /-- The node has a parent already. -/
  | attached (node parent : NodeId)
  | notChild (node parent : NodeId)
  | noParent (node : NodeId)
  /-- The node names a parent that does not have it. -/
  | missing (node : NodeId)
  /-- There is no such place among the children. -/
  | place (index length : Nat)
  /-- The table has no entry of this number. -/
  | outOfRange (index length : Nat)
  /-- The tree does not end where its kinds say it does. -/
  | endless
deriving DecidableEq, Inhabited

def Fault.message : Fault → String
  | attached node parent =>
    "node " ++ node.display ++ " is already attached to " ++ parent.display
  | notChild node parent =>
    "replace_child: node " ++ node.display ++ " is not a child of " ++ parent.display
  | noParent node => "detach_self: node " ++ node.display ++ " has no parent"
  | missing node => "detach_self: " ++ node.display ++ " missing from its parent"
  | place index length =>
    "insertion index (is " ++ toString index ++ ") should be <= len (is " ++ toString length ++ ")"
  | outOfRange index length =>
    "index out of bounds: the len is " ++ toString length ++ " but the index is " ++ toString index
  | endless => "the tree has no end"

/-- What was found at `index` in a table of `size` entries. -/
def entry (found : Option α) (index size : Nat) : Except Fault α :=
  match found with
  | some a => .ok a
  | none => .error (.outOfRange index size)

theorem entry_eq_ok_iff {found : Option α} {index size : Nat} {a : α} :
    entry found index size = .ok a ↔ found = some a := by
  unfold entry
  cases found <;> simp

end BlockLang
