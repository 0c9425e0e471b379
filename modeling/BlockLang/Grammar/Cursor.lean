import BlockLang.Session.Pass
import BlockLang.Token.Basic

/-!
# Reading tokens

The state of reading one module: the tokens ahead, the scopes entered and whether
an item is being exported. Nodes and declarations go straight to the session, and
reading stops at the first token that does not fit.
-/

namespace BlockLang

structure Cursor where
  /-- The tokens not yet read. -/
  rest : List Token
  /-- The end-of-file token, which is read any number of times. -/
  eof : Token
  /-- Where the last token read stops. -/
  previousStop : Position
  layers : Layers
  /-- The scopes entered within the module, innermost first. -/
  inner : List ScopeId
  /-- Whether the item being read follows `export`. -/
  exporting : Bool
deriving Inhabited

namespace Cursor

/-- At the start of a module's tokens. -/
def start (tokens : List Token) (file : String) (layers : Layers) : Cursor :=
  let origin : Position := ⟨0, file⟩
  let eof := tokens.getLastD ⟨.eof, "EOF", ⟨origin, origin⟩⟩
  ⟨tokens, eof, origin, layers, [], false⟩

def current (c : Cursor) : Token := c.rest.headD c.eof

/-- The kind of the token `offset` places ahead. -/
def peekKind (c : Cursor) (offset : Nat) : Token.Kind := (c.rest[offset]?.getD c.eof).kind

/-- Past the current token. -/
def next (c : Cursor) : Cursor :=
  match c.rest with
  | [] => c
  | token :: rest => { c with rest, previousStop := token.span.stop }

/-- The scope being read. -/
def scope (c : Cursor) : ScopeId := c.inner.headD c.layers.privateLayer

/-- Whether no block has been entered. -/
def atTopLevel (c : Cursor) : Bool := c.inner.isEmpty

/-- The scope of a declaration made here: the public layer for exported items. -/
def declarationScope (c : Cursor) : ScopeId :=
  if c.exporting && c.atTopLevel then c.layers.publicLayer else c.scope

end Cursor

/-- Reading with a cursor. -/
abbrev Parse := StateT Cursor (Task Stop)

namespace Parse

def fail (problem : Problem) (position : Position) : Parse α :=
  throw (.rejected (.error problem position))

def current : Parse Token := return (← get).current

def currentKind : Parse Token.Kind := return (← get).current.kind

def isAt (kind : Token.Kind) : Parse Bool := return (← get).current.kind = kind

/-- Refuses the current token. -/
def unexpected : Parse α := do
  let token ← current
  fail (.unexpectedToken token.value) token.span.start

/-- Refuses the current token with an explanation. -/
def refuse (message : String) : Parse α := do
  let token ← current
  fail (.unexpectedTokenDetailed token.value message) token.span.start

/-- Reads the current token. -/
def advance : Parse Token := do
  let token ← current
  modify Cursor.next
  return token

/-- Reads a token of the given kind. -/
def expect (kind : Token.Kind) : Parse Token := do
  if ← isAt kind then advance else unexpected

/-- Reads a token of the given kind if it is there. -/
def accept (kind : Token.Kind) : Parse Bool := do
  if ← isAt kind then
    let _ ← advance
    return true
  else return false

/-- From `start` to the end of the last token read. -/
def spanFrom (start : Position) : Parse Span := return ⟨start, (← get).previousStop⟩

def session : Parse Session := getThe Session

def pass (p : Pass α) : Parse α := StateT.lift p.lift

/-- A new node in the current scope. -/
def node (kind : NodeKind) (span : Span) (children : List NodeId) : Parse NodeId := do
  pass (.addNode kind span (← get).scope children)

def spanOf (id : NodeId) : Parse Span := return (← session).tree.span id

/-- Enters a new scope. -/
def enterScope (kind : ScopeKind) : Parse ScopeId := do
  let s ← session
  let (id, scopes) := s.scopes.addScope kind (some (← get).scope)
  modifyThe Session fun s => { s with scopes }
  modify fun c => { c with inner := id :: c.inner }
  return id

/-- Leaves the innermost scope. -/
def leaveScope : Parse Unit := modify fun c => { c with inner := c.inner.tail }

/-- Stops because a scope does not take `name`. -/
def refuseName (refusal : ScopeTable.Refusal) (name : Token) : Parse α :=
  match refusal with
  | .taken problem => fail problem name.span.start
  | .fault fault => throw (.fault fault)

/-- Registers the declaration that `name` stands for from now on. It keeps its
place among the declarations even if the name is taken. -/
def declare (name : Token) (kind : DeclKind) (scope : ScopeId) (overloadable : Bool) :
    Parse DeclId := do
  let s ← session
  let (id, s) := s.addDecl (.new name.value kind scope name.span.start)
  set s
  match s.scopes.addVar scope name.value id overloadable with
  | .ok scopes =>
    modifyThe Session fun s => { s with scopes }
    return id
  | .error refusal => refuseName refusal name

/-- More rounds than a loop can take that reads a token in each of them. -/
def bound : Parse Nat := return (← get).rest.length + 1

/-- Stops a loop or nesting that reads no tokens; the bounds are never met. -/
def endless : Parse α := throw (.fault .endless)

/-- Reads items up to `close`, which stays. Each item but the last is followed by a
comma, the last one may be; also says whether there was a comma. -/
def separated (close : Token.Kind) (message : String) (item : Parse α) :
    Nat → Parse (List α × Bool)
  | 0 => endless
  | fuel + 1 => do
    if ← isAt close then return ([], false)
    let first ← item
    if ← accept .comma then
      let (others, _) ← separated close message item fuel
      return (first :: others, true)
    if ← isAt close then return ([first], false)
    refuse message

end Parse

/-- The mutually dependent productions of the grammar. The production of a construct
takes those of its parts from here. -/
structure Productions (Power : Type) where
  type : Parse TypeExpr
  expr : Power → Parse NodeId
  stmt : Parse NodeId

end BlockLang
