import BlockLang.Tree.Arena

/-!
# Walking the tree

Walks that visit a node before or after its children. A visitor runs in any
monad that can tell the children of a node; the walks read them at the moments
said below, so that a visitor may change the tree. What changes nothing can
list the nodes (`preorder`) or the selected ones (`collect`).
-/

namespace BlockLang

namespace Arena

def preorderWithin (a : Arena) : Nat → NodeId → List NodeId
  | 0, _ => []
  | depth + 1, id => id :: (a.children id).flatMap (preorderWithin a depth)

/-- The nodes below `root`, itself included, each before its children. -/
def preorder (a : Arena) (root : NodeId) : List NodeId := a.preorderWithin a.size root

def collectWithin (a : Arena) (select : NodeId → Bool) : Nat → List NodeId → List NodeId
  | 0, _ | _, [] => []
  | fuel + 1, id :: stack =>
    let found := collectWithin a select fuel (a.children id ++ stack)
    if select id then id :: found else found

/-- The selected nodes below `root`, found by taking nodes from a stack and putting their
children there, the first on top. -/
def collect (a : Arena) (select : NodeId → Bool) (root : NodeId) : List NodeId :=
  a.collectWithin select a.size [root]

end Arena

namespace Walk

variable {m : Type → Type} [Monad m]

/-- Visits a node, then whatever children it has after that. -/
def preorder (children : NodeId → m (List NodeId)) (visit : NodeId → m Unit) :
    Nat → NodeId → m Unit
  | 0, _ => pure ()
  | depth + 1, id => do
    visit id
    let below ← children id
    below.forM (preorder children visit depth)

/-- Visits the children that a node has now, then the node. -/
def bottomUp (children : NodeId → m (List NodeId)) (visit : NodeId → m Unit) :
    Nat → NodeId → m Unit
  | 0, _ => pure ()
  | depth + 1, id => do
    let below ← children id
    below.forM (bottomUp children visit depth)
    visit id

end Walk
end BlockLang
