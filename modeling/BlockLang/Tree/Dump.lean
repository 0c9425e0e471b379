import BlockLang.Tree.Walk
import BlockLang.Types.Display
import BlockLang.Value.Heap

/-!
# Trees as text

One line a node, two spaces deeper than its parent, with the type and the value
that are known of it.
-/

namespace BlockLang.Arena

/-- The line of a node. -/
def dumpLine (a : Arena) (types : TypeTable) (values : Heap) (id : NodeId) : String :=
  let facts := a.facts id
  let type := match facts.type with
    | some type => " : " ++ types.display type
    | none => ""
  let value := match facts.value with
    | some value => " = " ++ values.display value
    | none => ""
  (a.kind id).label ++ type ++ value ++ "\n"

def dumpWithin (a : Arena) (types : TypeTable) (values : Heap) :
    Nat → Nat → NodeId → String
  | 0, _, _ => ""
  | fuel + 1, depth, id =>
    String.ofList (List.replicate (2 * depth) ' ') ++ a.dumpLine types values id ++
      String.join ((a.children id).map (dumpWithin a types values fuel (depth + 1)))

/-- The tree below `root`. -/
def dump (a : Arena) (types : TypeTable) (values : Heap) (root : NodeId) : String :=
  a.dumpWithin types values a.size 0 root

end BlockLang.Arena
