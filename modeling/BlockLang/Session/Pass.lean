import BlockLang.Session.Basic

/-!
# Passes over a session

A pass reads and changes the session and may stop at a fault of the tree. The
session as it was when a pass stopped is kept. `Task` leaves open what a stop
means; loading also stops at fatal diagnostics.
-/

namespace BlockLang

/-- Work on a session that may stop early for a reason `ε`. -/
abbrev Task (ε : Type) := ExceptT ε (StateM Session)

/-- Work that stops only at a fault of the tree. -/
abbrev Pass := Task Fault

namespace Pass

def tree : Pass Arena := return (← get).tree

def types : Pass TypeTable := return (← get).types

def scopes : Pass ScopeTable := return (← get).scopes

/-- Asks the scopes a question that they may not be able to answer. -/
def lookUp (f : ScopeTable → Except Fault α) : Pass α := do
  match f (← get).scopes with
  | .ok a => return a
  | .error fault => throw fault

def kindOf (id : NodeId) : Pass NodeKind := return (← tree).kind id

def spanOf (id : NodeId) : Pass Span := return (← tree).span id

def startOf (id : NodeId) : Pass Position := return ((← tree).span id).start

def scopeOf (id : NodeId) : Pass ScopeId := return (← tree).scope id

def childrenOf (id : NodeId) : Pass (List NodeId) := return (← tree).children id

def child? (id : NodeId) (index : Nat) : Pass (Option NodeId) := return (← tree).child? id index

def parentOf (id : NodeId) : Pass (Option NodeId) := return (← tree).parent id

def factsOf (id : NodeId) : Pass Facts := return (← tree).facts id

def declOf (id : DeclId) : Pass Decl := return (← get).decl id

def modifyDecl (id : DeclId) (f : Decl → Decl) : Pass Unit := modify (·.modifyDecl id f)

/-- Changes the scopes in a way that may fail. -/
def editScopes (f : ScopeTable → Except Fault ScopeTable) : Pass Unit := do
  let scopes ← lookUp f
  modify fun s => { s with scopes }

/-- Changes the tree in a way that cannot fail. -/
def editTree (f : Arena → Arena) : Pass Unit := modify fun s => { s with tree := f s.tree }

/-- Changes the tree in a way that may fail. -/
def tryTree (f : Arena → Except Fault Arena) : Pass Unit := do
  match f (← get).tree with
  | .ok tree => modify fun s => { s with tree }
  | .error fault => throw fault

def annotate (id : NodeId) (f : Facts → Facts) : Pass Unit :=
  editTree (·.annotate id f)

def pushChild (parent child : NodeId) : Pass Unit := tryTree (·.pushChild parent child)

def takeChildren (id : NodeId) : Pass (List NodeId) := do
  let (children, tree) := (← get).tree.takeChildren id
  modify fun s => { s with tree }
  return children

/-- A new detached node with the given children. -/
def addNode (kind : NodeKind) (span : Span) (scope : ScopeId) (children : List NodeId) :
    Pass NodeId := do
  let (id, tree) := (← get).tree.add kind span scope
  modify fun s => { s with tree }
  tryTree (·.pushChildren id children)
  return id

/-- A new detached node without children, at the place of `origin`. -/
def addLike (origin : NodeId) (kind : NodeKind) : Pass NodeId := do
  addNode kind (← spanOf origin) (← scopeOf origin) []

def report (d : Diagnostic) : Pass Unit := modify fun s => { s with report := s.report ++ [d] }

/-- Reports an error at the start of a node. -/
def reportAt (id : NodeId) (problem : Problem) : Pass Unit := do
  report (.error problem (← startOf id))

/-- Asks the type table for a type. -/
def makeType (f : TypeTable → TypeId × TypeTable) : Pass TypeId := do
  let (id, types) := f (← get).types
  modify fun s => { s with types }
  return id

/-- Works on the compile-time values. -/
def onValues (f : Heap → α × Heap) : Pass α := do
  let (a, values) := f (← get).values
  modify fun s => { s with values }
  return a

/-- Works on the compile-time values where there may be no result. -/
def onValues? (f : Heap → Option (α × Heap)) : Pass (Option α) := do
  match f (← get).values with
  | none => return none
  | some (a, values) =>
    modify fun s => { s with values }
    return some a

/-- A new temporary, set by `node`. -/
def newTemp (node : NodeId) : Pass TempId := do
  let id : TempId := ⟨(← get).temps.size⟩
  modify fun s => { s with temps := s.temps.push node }
  return id

/-- Lets every temporary set by `old` be set by `new`. -/
def retargetTemps (old new : NodeId) : Pass Unit :=
  modify fun s => { s with temps := s.temps.map fun node => if node = old then new else node }

end Pass

/-- Why loading stops. -/
inductive Stop where
  /-- At a fatal diagnostic. -/
  | rejected (diagnostic : Diagnostic)
  | fault (fault : Fault)
deriving Inhabited

/-- A pass as part of loading. -/
def Pass.lift (pass : Pass α) : Task Stop α := ExceptT.adapt Stop.fault pass

instance : MonadLift Pass (Task Stop) := ⟨Pass.lift⟩

end BlockLang
