import BlockLang.Source.Position

/-!
# Types as written

The form a type has in the source, before its names are looked up.
-/

namespace BlockLang

inductive TypeExpr where
  /-- A name, possibly with arguments; the place is that of the name. -/
  | name (name : String) (args : List TypeExpr) (position : Position)
  | list (element : TypeExpr) (length : Option UInt64)
  | tuple (fields : List (Option String × TypeExpr))
  | reference (target : TypeExpr)
  | func (arguments : List TypeExpr) (result : TypeExpr)
deriving Inhabited

end BlockLang
