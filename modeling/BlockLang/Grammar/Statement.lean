import BlockLang.Grammar.Expression

/-!
# The grammar of statements

Declarations register what they declare in the scope they stand in; exported
items go to the module's public layer. An expression is a statement before a
semicolon, and the value of its block at the end of one.
-/

namespace BlockLang.Grammar

open Parse

variable (parts : Productions Power)

/-- `let` or `const`, a name, and a type, an initial value or both. -/
def varDecl (isConst : Bool) : Parse NodeId := do
  let first ← advance
  let name ← if ← isAt .identifier then advance
    else refuse "expected identifier during variable declaration"
  let declared ← if ← accept .colon then some <$> parts.type else pure none
  let (initial, isRef) ← match ← currentKind with
    | .assignment =>
      let _ ← advance
      pure ([← parts.expr .lowest], false)
    | .atEquals =>
      let _ ← advance
      pure ([← parts.expr .lowest], true)
    | .semicolon =>
      if declared.isNone then refuse "expected rhs or explicit type"
      else if isConst then refuse "expected rhs in constant definition"
      else pure ([], false)
    | _ => refuse "expected `=`, `@=` or `;`"
  let _ ← expect .semicolon
  let decl ← declare name (.var isConst isRef) (← get).declarationScope false
  node (.varDecl decl declared isRef) (← spanFrom first.span.start) initial

/-- One parameter, declared in the scope of the function's body. -/
def param (bodyScope : ScopeId) : Parse Param := do
  let name ← expect .identifier
  let _ ← expect .colon
  let type ← parts.type
  let decl ← declare name .parameter bodyScope false
  return ⟨name.value, type, decl⟩

/-- What follows the name of a function. -/
def signatureAndBody (bodyScope : ScopeId) : Parse (List Param × Option TypeExpr × NodeId) := do
  let _ ← expect .openParen
  let (params, _) ← separated .closeParen "expected `,` or `)` in parameter list"
    (param parts bodyScope) (← bound)
  let _ ← expect .closeParen
  let result ← if ← accept .arrow then some <$> parts.type else pure none
  if ← isAt .openCurly then return (params, result, ← block parts)
  else refuse "expected function body"

/-- `fn name(a: T) -> R { ... }`. Functions of one name may stand side by side. -/
def funcDecl : Parse NodeId := do
  let first ← advance
  let name ← expect .identifier
  let scope := (← get).declarationScope
  let bodyScope ← enterScope .function
  let (params, result, body) ← signatureAndBody parts bodyScope
  leaveScope
  let decl ← declare name (.function params result bodyScope) scope true
  node (.funcDecl decl) (← spanFrom first.span.start) [body]

/-- The names of a definition's parameters. -/
def typeParams : Parse (List String) := do
  if ← accept .less then
    let (params, _) ← separated .greater "expected `,` or `>` in type parameters"
      (do return (← expect .identifier).value) (← bound)
    let _ ← expect .greater
    return params
  else return []

/-- `type Name<T> = body;`. The body is looked up where it stands. -/
def typeDecl : Parse NodeId := do
  let first ← advance
  let name ← expect .identifier
  let params ← typeParams
  let _ ← expect .assignment
  let body ← parts.type
  let _ ← expect .semicolon
  let c ← get
  let typeDef := TypeDef.new name.value params (.written body) c.scope name.span.start
  match (← session).scopes.addType c.declarationScope typeDef with
  | .ok (_, scopes) => modifyThe Session fun s => { s with scopes }
  | .error refusal => refuseName refusal name
  node (.typeDecl name.value) (← spanFrom first.span.start) []

/-- Refuses the token `first`, already read, away from the top level. -/
def requireTopLevel (first : Token) (word message : String) : Parse Unit := do
  if !(← get).atTopLevel then
    fail (.unexpectedTokenDetailed word message) first.span.start

/-- `import name;`. -/
def importDecl : Parse NodeId := do
  let first ← advance
  requireTopLevel first "import" "imports are only allowed at the top level"
  let name ← expect .identifier
  let _ ← expect .semicolon
  let isPublic := (← get).exporting
  node (.importDecl name.value isPublic) (← spanFrom first.span.start) []

/-- `export` and an item. -/
def exportItem : Parse NodeId := do
  let first ← advance
  requireTopLevel first "export" "only top-level items can be exported"
  match ← currentKind with
  | .fnWord | .typeWord | .letWord | .constWord | .importWord =>
    modify fun c => { c with exporting := true }
    let item ← parts.stmt
    modify fun c => { c with exporting := false }
    return item
  | _ => refuse "expected an item after `export`"

/-- `return;` or `return e;`. -/
def returnStmt : Parse NodeId := do
  let first ← advance
  let value ← if ← isAt .semicolon then pure [] else pure [← parts.expr .lowest]
  let _ ← expect .semicolon
  node .returnStmt (← spanFrom first.span.start) value

/-- `while c body`. -/
def whileLoop : Parse NodeId := do
  let first ← advance
  let condition ← parts.expr .lowest
  let body ← parts.stmt
  node .whileLoop (← spanFrom first.span.start) [condition, body]

/-- An expression, with a semicolon unless it ends its block or arm. -/
def exprStmt : Parse NodeId := do
  let expr ← parts.expr .lowest
  match ← currentKind with
  | .semicolon =>
    let _ ← advance
    node .exprStmt (← spanOf expr) [expr]
  | .closeCurly | .elseWord => return expr
  | _ => refuse "expected `;` after expression"

/-- A statement. -/
def statement : Parse NodeId := do
  match ← currentKind with
  | .constWord => varDecl parts true
  | .letWord => varDecl parts false
  | .importWord => importDecl
  | .exportWord => exportItem parts
  | .ifWord => conditional parts parts.stmt
  | .whileWord => whileLoop parts
  | .openCurly => block parts
  | .fnWord => funcDecl parts
  | .typeWord => typeDecl parts
  | .returnWord => returnStmt parts
  | _ => exprStmt parts

/-- The productions for constructs nested at most `depth` deep. -/
def productions : Nat → Productions Power
  | 0 => ⟨endless, fun _ => endless, endless⟩
  | depth + 1 =>
    let parts := productions depth
    ⟨typeSyntax parts.type, expression parts, statement parts⟩

/-- Reads items up to the end of the file and attaches them to `root` as they are
complete. -/
def items (root : NodeId) (stmt : Parse NodeId) : Nat → Parse Unit
  | 0 => endless
  | fuel + 1 => do
    if ← isAt .eof then return
    let item ← stmt
    pass (.pushChild root item)
    items root stmt fuel

end Grammar

/-- Reads `tokens` into the tree of a module. Nesting goes two levels deep for each
token at most: from a statement to its expression and into its parts. -/
def parseModule (tokens : List Token) (file : String) (module : ModuleId) : Task Stop Unit := do
  let m := (← get).module module
  let depth := 2 * tokens.length + 2
  let read := Grammar.items m.root (Grammar.productions depth).stmt (tokens.length + 1)
  let _ ← read.run (Cursor.start tokens file m.layers)

end BlockLang
