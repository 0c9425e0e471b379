import BlockLang.Handle
import BlockLang.Operator
import BlockLang.Tree.TypeExpr
import BlockLang.Types.Basic

/-!
# Declarations

Variables, parameters, functions and built-in operators, in the order they are met.
-/

namespace BlockLang

structure Param where
  name : String
  type : TypeExpr
  decl : DeclId
deriving Inhabited

inductive DeclKind where
  | var (isConst isRef : Bool)
  | parameter
  /-- `bodyScope` holds the parameters. -/
  | function (params : List Param) (result : Option TypeExpr) (bodyScope : ScopeId)
  | builtin (op : Builtin)
deriving Inhabited

structure Decl where
  name : String
  kind : DeclKind
  /-- The scope the name was declared in. -/
  scope : ScopeId
  position : Position
  /-- The type of a variable or the signature of a function, once known. -/
  type : Option TypeId
  /-- The value of a constant. -/
  value : Option ValueId
  /-- Whether the declaration has been analyzed. -/
  ready : Bool
  /-- Whether the signature is being computed. -/
  resolving : Bool
deriving Inhabited

namespace Decl

/-- A declaration nothing is known of yet. -/
def new (name : String) (kind : DeclKind) (scope : ScopeId) (position : Position) : Decl :=
  ⟨name, kind, scope, position, none, none, false, false⟩

/-- Whether the declaration is a function or an operator. -/
def isCallable (d : Decl) : Bool :=
  match d.kind with
  | .function .. | .builtin _ => true
  | _ => false

def isFunction (d : Decl) : Bool :=
  match d.kind with
  | .function .. => true
  | _ => false

def isConst (d : Decl) : Bool :=
  match d.kind with
  | .var isConst _ => isConst
  | _ => false

end Decl

/-- What a use of a name or an operator refers to. -/
inductive Binding where
  | decl (id : DeclId)
  | builtin (op : Builtin)
deriving DecidableEq, Inhabited

def Binding.display : Binding → String
  | decl id => "#" ++ toString id.index
  | builtin op => op.display

/-- How a use refers to a declaration. -/
def Decl.binding (d : Decl) (id : DeclId) : Binding :=
  match d.kind with
  | .builtin op => .builtin op
  | _ => .decl id

end BlockLang
