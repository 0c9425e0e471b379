/-!
# Handles

The tables of a compilation refer to each other's entries by their place of
registration.

A place is a number of any size here. Where it is kept in 32 bits, the same holds as
long as no table has 2³² entries, from which on places would be handed out twice.
-/

namespace BlockLang

/-- A node of the syntax tree. -/
structure NodeId where
  index : Nat
deriving DecidableEq, Inhabited

/-- The text of a handle in reports of a broken tree. -/
def NodeId.display (id : NodeId) : String := "NodeId(" ++ toString id.index ++ ")"

/-- A declared variable, parameter, function or operator. -/
structure DeclId where
  index : Nat
deriving DecidableEq, Inhabited

structure ScopeId where
  index : Nat
deriving DecidableEq, Inhabited

/-- A type definition. -/
structure TypeDefId where
  index : Nat
deriving DecidableEq, Inhabited

/-- A temporary: the result of one step of a basic block. -/
structure TempId where
  index : Nat
deriving DecidableEq, Inhabited

structure ModuleId where
  index : Nat
deriving DecidableEq, Inhabited

/-- A cell of compile-time storage. -/
structure ValueId where
  index : Nat
deriving DecidableEq, Inhabited

end BlockLang
