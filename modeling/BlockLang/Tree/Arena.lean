import BlockLang.Fault
import BlockLang.Table
import BlockLang.Tree.Node

/-!
# The arena of nodes

All nodes of all modules live in one arena. Each node knows its parent and its
children. Only detached nodes can be attached, so that a node is the child of at
most one other and only once. An operation that would break this fails.
-/

namespace BlockLang

/-- Where a detached node was. -/
structure TreeSlot where
  parent : NodeId
  index : Nat
deriving DecidableEq, Inhabited

structure Arena where
  nodes : Table Node
deriving Inhabited

namespace Arena

def empty : Arena := ⟨.empty⟩

def size (a : Arena) : Nat := a.nodes.size

/-- The node of a handle; one that the arena never gave out reads as a default. -/
def get (a : Arena) (id : NodeId) : Node := a.nodes[id.index]?.getD default

/-- The node of a handle, if the arena gave it out. -/
def find (a : Arena) (id : NodeId) : Except Fault Node :=
  entry a.nodes[id.index]? id.index a.nodes.size

def modify (a : Arena) (id : NodeId) (f : Node → Node) : Arena := ⟨a.nodes.modify id.index f⟩

def kind (a : Arena) (id : NodeId) : NodeKind := (a.get id).kind

def span (a : Arena) (id : NodeId) : Span := (a.get id).span

def scope (a : Arena) (id : NodeId) : ScopeId := (a.get id).scope

def facts (a : Arena) (id : NodeId) : Facts := (a.get id).facts

def parent (a : Arena) (id : NodeId) : Option NodeId := (a.get id).parent

def children (a : Arena) (id : NodeId) : List NodeId := (a.get id).children

def child? (a : Arena) (id : NodeId) (index : Nat) : Option NodeId := (a.children id)[index]?

/-- The place of a node among its parent's children. -/
def indexInParent? (a : Arena) (id : NodeId) : Option Nat := do
  let parent ← a.parent id
  (a.children parent).findIdx? (· == id)

/-- A new node without parent and children. -/
def add (a : Arena) (kind : NodeKind) (span : Span) (scope : ScopeId) : NodeId × Arena :=
  (⟨a.nodes.size⟩, ⟨a.nodes.push ⟨kind, span, scope, .none, none, []⟩⟩)

def setKind (a : Arena) (id : NodeId) (kind : NodeKind) : Arena :=
  a.modify id fun node => { node with kind }

def setParent (a : Arena) (id : NodeId) (parent : Option NodeId) : Arena :=
  a.modify id fun node => { node with parent }

def setChildren (a : Arena) (id : NodeId) (children : List NodeId) : Arena :=
  a.modify id fun node => { node with children }

def annotate (a : Arena) (id : NodeId) (f : Facts → Facts) : Arena :=
  a.modify id fun node => { node with facts := f node.facts }

/-- Fails if the node has a parent. -/
def checkDetached (a : Arena) (id : NodeId) : Except Fault Unit := do
  match (← a.find id).parent with
  | some parent => throw (.attached id parent)
  | none => return

/-- Makes a detached node the last child of `parent`. -/
def pushChild (a : Arena) (parent child : NodeId) : Except Fault Arena := do
  a.checkDetached child
  let a := a.setParent child (some parent)
  let children := (← a.find parent).children
  return a.setChildren parent (children ++ [child])

/-- Makes detached nodes the last children of `parent`, in order. -/
def pushChildren (a : Arena) (parent : NodeId) (children : List NodeId) : Except Fault Arena :=
  children.foldlM (·.pushChild parent ·) a

/-- A new node with the given children. -/
def addWith (a : Arena) (kind : NodeKind) (span : Span) (scope : ScopeId)
    (children : List NodeId) : Except Fault (NodeId × Arena) := do
  let (id, a) := a.add kind span scope
  return (id, ← a.pushChildren id children)

/-- Puts a detached node at a place among the children of `parent`. -/
def insertChild (a : Arena) (parent : NodeId) (index : Nat) (child : NodeId) :
    Except Fault Arena := do
  a.checkDetached child
  let a := a.setParent child (some parent)
  let children := (← a.find parent).children
  if children.length < index then throw (.place index children.length)
  return a.setChildren parent (children.insertIdx index child)

/-- Puts the detached node `new` where `old` was, which becomes detached. -/
def replaceChild (a : Arena) (parent old new : NodeId) : Except Fault Arena := do
  let children := (← a.find parent).children
  match children.findIdx? (· == old) with
  | none => throw (.notChild old parent)
  | some index =>
    a.checkDetached new
    let a := a.setChildren parent (children.set index new)
    return (a.setParent new (some parent)).setParent old none

/-- Puts `new` where `old` was, if that was anywhere. -/
def replaceNode (a : Arena) (old new : NodeId) : Except Fault Arena := do
  match (← a.find old).parent with
  | some parent => a.replaceChild parent old new
  | none => return a

/-- Takes a node out of its parent. -/
def detach (a : Arena) (id : NodeId) : Except Fault (TreeSlot × Arena) := do
  match (← a.find id).parent with
  | none => throw (.noParent id)
  | some parent =>
    let children := a.children parent
    match children.findIdx? (· == id) with
    | none => throw (.missing id)
    | some index =>
      let a := a.setChildren parent (children.eraseIdx index)
      return (⟨parent, index⟩, a.setParent id none)

/-- Puts a detached node where another was taken out. -/
def reattach (a : Arena) (slot : TreeSlot) (id : NodeId) : Except Fault Arena :=
  a.insertChild slot.parent slot.index id

/-- Detaches all children of a node and returns them in order. -/
def takeChildren (a : Arena) (id : NodeId) : List NodeId × Arena :=
  let children := a.children id
  (children, children.foldl (·.setParent · none) (a.setChildren id []))

/-- Whether `child` names `parent` as its parent and occurs once among its
children. -/
def linked (a : Arena) (parent child : NodeId) : Bool :=
  a.parent child == some parent && (a.children parent).count child == 1

/-- The first badly linked node below those on `stack`, the last child of a node
first. -/
def badLinkWithin (a : Arena) : Nat → List NodeId → Option NodeId
  | 0, _ | _, [] => none
  | fuel + 1, node :: stack =>
    match (a.children node).find? (!a.linked node ·) with
    | some child => some child
    | none => badLinkWithin a fuel ((a.children node).reverse ++ stack)

/-- The first badly linked node below `root`, if any. -/
def badLink? (a : Arena) (root : NodeId) : Option NodeId := a.badLinkWithin (a.size + 1) [root]

end Arena
end BlockLang
