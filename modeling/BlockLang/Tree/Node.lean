import BlockLang.Handle
import BlockLang.Scope.Declaration
import BlockLang.Tree.TypeExpr

/-!
# Nodes of the syntax tree

The kind of a node says what its children mean; the children themselves are kept
with the node.
-/

namespace BlockLang

inductive NodeKind where
  /-- Top-level items in order. -/
  | moduleRoot (name : String)
  /-- No child, or one statement or chain of pairs. -/
  | block
  /-- A statement and what follows it, which has the value. -/
  | pair
  /-- Steps, each setting one temporary. -/
  | basicBlock
  /-- An expression whose value is dropped. -/
  | exprStmt
  /-- Type and value are among the facts. -/
  | literal
  | symbol (name : String)
  | temp (id : TempId)
  /-- Two operands. -/
  | binary (op : BinaryOp)
  /-- One operand. -/
  | unary (op : UnaryOp)
  /-- A target and the value stored in it. -/
  | assign
  /-- A reference and what it is bound to. -/
  | refBind
  /-- The arguments. -/
  | call (name : String)
  /-- The operands of a resolved operator. -/
  | builtinCall (op : Builtin)
  /-- One operand. -/
  | cast (target : TypeId)
  /-- The elements, with a name or none for each. -/
  | tuple (names : List (Option String))
  /-- The elements. -/
  | list
  /-- A base and an index. -/
  | index
  /-- A base. -/
  | field (name : String)
  /-- A condition, an arm and possibly another arm. -/
  | ifElse
  /-- A condition and a body. -/
  | whileLoop
  /-- A value or nothing. -/
  | returnStmt
  /-- An initial value or nothing. -/
  | varDecl (decl : DeclId) (declared : Option TypeExpr) (isRef : Bool)
  /-- The body. -/
  | funcDecl (decl : DeclId)
  | typeDecl (name : String)
  | importDecl (name : String) (isPublic : Bool)
  /-- The value of the empty tuple. -/
  | nullValue
deriving Inhabited

namespace NodeKind

def name : NodeKind → String
  | moduleRoot _ => "Module"
  | block => "Block"
  | pair => "Pair"
  | basicBlock => "BasicBlock"
  | exprStmt => "ExprStmt"
  | literal => "Literal"
  | symbol _ => "Symbol"
  | temp _ => "Temp"
  | binary _ => "Binary"
  | unary _ => "Unary"
  | assign => "Assign"
  | refBind => "RefBind"
  | call _ => "Call"
  | builtinCall _ => "IntrinsicCall"
  | cast _ => "Cast"
  | tuple _ => "Tuple"
  | list => "List"
  | index => "Index"
  | field _ => "Field"
  | ifElse => "If"
  | whileLoop => "While"
  | returnStmt => "Return"
  | varDecl .. => "VarDecl"
  | funcDecl _ => "FuncDecl"
  | typeDecl _ => "TypeDecl"
  | importDecl .. => "Import"
  | nullValue => "NullValue"

/-- Whether the node only groups statements. -/
def isContainer : NodeKind → Bool
  | block | pair | basicBlock => true
  | _ => false

def isControlFlow : NodeKind → Bool
  | ifElse | whileLoop => true
  | _ => false

/-- Whether the node declares something other than a variable. -/
def isDeclaration : NodeKind → Bool
  | funcDecl _ | typeDecl _ | importDecl .. => true
  | _ => false

/-- Whether the node has a value and is not a statement. -/
def isExpression : NodeKind → Bool
  | moduleRoot _ | block | pair | basicBlock | exprStmt | whileLoop | returnStmt => false
  | varDecl .. | funcDecl _ | typeDecl _ | importDecl .. => false
  | _ => true

def isBasicBlock : NodeKind → Bool
  | basicBlock => true
  | _ => false

def isTemp : NodeKind → Bool
  | temp _ => true
  | _ => false

/-- The node's line in a dump, without type and value. -/
def label : NodeKind → String
  | moduleRoot name => "Module " ++ name
  | symbol name => "Symbol " ++ name
  | temp id => "Temp %" ++ toString id.index
  | binary op => "Binary " ++ op.symbol
  | unary op => "Unary " ++ op.symbol
  | call name => "Call " ++ name
  | builtinCall op => "IntrinsicCall " ++ op.display
  | field name => "Field ." ++ name
  | typeDecl name => "TypeDecl " ++ name
  | importDecl name isPublic => "Import " ++ name ++ if isPublic then " (public)" else ""
  | varDecl _ _ true => "VarDecl @"
  | kind => kind.name

end NodeKind

/-- What analysis has found out about a node. -/
structure Facts where
  type : Option TypeId
  /-- The value, if it is known before the program runs. -/
  value : Option ValueId
  /-- Whether the node is a place that can be stored to. -/
  lvalue : Bool
  binding : Option Binding
deriving Inhabited

def Facts.none : Facts := ⟨.none, .none, false, .none⟩

structure Node where
  kind : NodeKind
  span : Span
  /-- The scope the node was written in. -/
  scope : ScopeId
  facts : Facts
  parent : Option NodeId
  children : List NodeId
deriving Inhabited

end BlockLang
