import BlockLang.Diagnostic.Problem
import BlockLang.Fault
import BlockLang.Tree.TypeExpr
import BlockLang.Types.Basic

/-!
# Scopes

A scope holds the names declared in it. It has at most one parent; the layers of a
module that receive imports also refer to the public layers of other modules.
Functions of one name in one scope form a group, any other name is taken once.
-/

namespace BlockLang

inductive ScopeKind where
  /-- Built-in types and operators, shared by all modules. -/
  | universal
  | publicImport
  | publicLayer
  | privateImport
  | privateLayer
  | function
  | block
deriving DecidableEq, Inhabited

def ScopeKind.name : ScopeKind → String
  | universal => "Universal"
  | publicImport => "PublicImport"
  | publicLayer => "Public"
  | privateImport => "PrivateImport"
  | privateLayer => "Private"
  | function => "Function"
  | block => "Block"

/-- What one name stands for in one scope. -/
inductive VarDef where
  | single (decl : DeclId)
  /-- Functions, in the order of declaration. -/
  | overloads (group : List DeclId)
deriving DecidableEq, Inhabited

def VarDef.decls : VarDef → List DeclId
  | single decl => [decl]
  | overloads group => group

structure Scope where
  kind : ScopeKind
  parent : Option ScopeId
  vars : List (String × VarDef)
  types : List (String × TypeDefId)
  /-- The public layers of imported modules. -/
  imports : List ScopeId
deriving Inhabited

/-- The declarations of `name` in one scope. -/
def Scope.declsOf (scope : Scope) (name : String) : List DeclId :=
  ((scope.vars.lookup name).map VarDef.decls).getD []

/-- What a type definition stands for. -/
inductive TypeDefBody where
  | builtin (type : TypeId)
  | written (expr : TypeExpr)
deriving Inhabited

structure TypeDef where
  name : String
  params : List String
  body : TypeDefBody
  /-- The scope the body is looked up in. -/
  scope : ScopeId
  position : Position
  /-- The parameters as types, once the body is resolved. -/
  paramTypes : List TypeId
  /-- The body as a type, once it is resolved. -/
  resolved : Option TypeId
  /-- Whether the body is being resolved. -/
  resolving : Bool
deriving Inhabited

/-- A definition that has not been looked into. -/
def TypeDef.new (name : String) (params : List String) (body : TypeDefBody) (scope : ScopeId)
    (position : Position) : TypeDef :=
  ⟨name, params, body, scope, position, [], none, false⟩

structure ScopeTable where
  scopes : Array Scope
  /-- For each scope, whether it is being looked through as an import. -/
  visiting : Array Bool
  typeDefs : Array TypeDef
deriving Inhabited

namespace ScopeTable

def empty : ScopeTable := ⟨#[], #[], #[]⟩

/-- The scope of a handle; one that the table never gave out reads as a default. -/
def get (t : ScopeTable) (id : ScopeId) : Scope := t.scopes[id.index]?.getD default

/-- The scope of a handle, if the table gave it out. -/
def find (t : ScopeTable) (id : ScopeId) : Except Fault Scope :=
  entry t.scopes[id.index]? id.index t.scopes.size

def modify (t : ScopeTable) (id : ScopeId) (f : Scope → Scope) : ScopeTable :=
  { t with scopes := t.scopes.modify id.index f }

def addScope (t : ScopeTable) (kind : ScopeKind) (parent : Option ScopeId) :
    ScopeId × ScopeTable :=
  (⟨t.scopes.size⟩, { t with
    scopes := t.scopes.push ⟨kind, parent, [], [], []⟩
    visiting := t.visiting.push false })

def isVisiting (t : ScopeTable) (id : ScopeId) : Bool := t.visiting[id.index]?.getD false

/-- Sets or clears the mark of a scope that is being looked through. -/
def mark (t : ScopeTable) (id : ScopeId) (visiting : Bool) : ScopeTable :=
  { t with visiting := t.visiting.setIfInBounds id.index visiting }

/-- Makes the names of `exported` visible through the layer `layer`. -/
def addImport (t : ScopeTable) (layer exported : ScopeId) : Except Fault ScopeTable := do
  let imports := (← t.find layer).imports
  if exported ∈ imports then return t
  return t.modify layer ({ · with imports := imports ++ [exported] })

/-- Why a scope does not take a name. -/
inductive Refusal where
  /-- The name stands for something else. -/
  | taken (problem : Problem)
  | fault (fault : Fault)
deriving DecidableEq

/-- `vars` with `name` standing for one more declaration. -/
def declare (vars : List (String × VarDef)) (name : String) (decl : DeclId)
    (overloadable : Bool) : Except Problem (List (String × VarDef)) :=
  match vars.lookup name with
  | none =>
    let new := if overloadable then VarDef.overloads [decl] else .single decl
    .ok ((name, new) :: vars)
  | some (.overloads group) =>
    if overloadable then
      .ok (vars.map fun (key, old) =>
        if key = name then (key, .overloads (group ++ [decl])) else (key, old))
    else .error (.variableAlreadyDeclared name)
  | some (.single _) => .error (.variableAlreadyDeclared name)

/-- Declares `name` in `scope`. Only overloadable declarations share a name. -/
def addVar (t : ScopeTable) (scope : ScopeId) (name : String) (decl : DeclId)
    (overloadable : Bool) : Except Refusal ScopeTable := do
  let old ← (t.find scope).mapError .fault
  let vars ← (declare old.vars name decl overloadable).mapError .taken
  return t.modify scope ({ · with vars })

/-- Defines a type in `scope`. -/
def addType (t : ScopeTable) (scope : ScopeId) (typeDef : TypeDef) :
    Except Refusal (TypeDefId × ScopeTable) := do
  let types := (← (t.find scope).mapError .fault).types
  match types.lookup typeDef.name with
  | some _ => throw (.taken (.typeAlreadyDeclared typeDef.name))
  | none =>
    let id : TypeDefId := ⟨t.typeDefs.size⟩
    let t := { t with typeDefs := t.typeDefs.push typeDef }
    return (id, t.modify scope ({ · with types := (typeDef.name, id) :: types }))

def typeDef (t : ScopeTable) (id : TypeDefId) : TypeDef := t.typeDefs[id.index]?.getD default

/-- The definition of a handle, if the table gave it out. -/
def findTypeDef (t : ScopeTable) (id : TypeDefId) : Except Fault TypeDef :=
  entry t.typeDefs[id.index]? id.index t.typeDefs.size

def modifyTypeDef (t : ScopeTable) (id : TypeDefId) (f : TypeDef → TypeDef) : ScopeTable :=
  { t with typeDefs := t.typeDefs.modify id.index f }

end ScopeTable
end BlockLang
