import BlockLang.Diagnostic.Render
import BlockLang.Scope.Lookup
import BlockLang.Tree.Dump

/-!
# The state of a compilation

A session holds every table of one compilation: the tree, the types, scopes and
declarations, the compile-time values, the temporaries, what has been reported
and the modules. A new session knows the primitive types and the built-in
operators.
-/

namespace BlockLang

/-- The scopes of a module, innermost first. Each is the parent of the one before
it, and the universal scope is the parent of the last. -/
structure Layers where
  privateLayer : ScopeId
  privateImport : ScopeId
  publicLayer : ScopeId
  publicImport : ScopeId
deriving Inhabited

structure Module where
  name : String
  /-- The file name shown in diagnostics. -/
  path : String
  source : String
  root : NodeId
  layers : Layers
  /-- Whether analysis has begun. -/
  started : Bool
  /-- Whether analysis has ended. -/
  analyzed : Bool
deriving Inhabited

structure Session where
  tree : Arena
  types : TypeTable
  scopes : ScopeTable
  decls : Array Decl
  values : Heap
  /-- The node that sets each temporary. -/
  temps : Array NodeId
  report : Report
  modules : Array Module
  universal : ScopeId
  /-- The name of the function a program starts at. -/
  entrySymbol : String
deriving Inhabited

namespace Session

def decl (s : Session) (id : DeclId) : Decl := s.decls[id.index]?.getD default

def modifyDecl (s : Session) (id : DeclId) (f : Decl → Decl) : Session :=
  { s with decls := s.decls.modify id.index f }

def addDecl (s : Session) (decl : Decl) : DeclId × Session :=
  (⟨s.decls.size⟩, { s with decls := s.decls.push decl })

def module (s : Session) (id : ModuleId) : Module := s.modules[id.index]?.getD default

def modifyModule (s : Session) (id : ModuleId) (f : Module → Module) : Session :=
  { s with modules := s.modules.modify id.index f }

def findModule? (s : Session) (name : String) : Option ModuleId :=
  (s.modules.findIdx? (·.name == name)).map (⟨·⟩)

/-- The text of the module shown as `path`, empty if there is none. -/
def sourceOf (s : Session) (path : String) : String :=
  ((s.modules.find? (·.path == path)).map (·.source)).getD ""

/-- A diagnostic set against the text it points into. -/
def render (s : Session) (d : Diagnostic) : String := d.render (s.sourceOf d.position.file)

/-- Defines a primitive type in the universal scope. -/
def definePrimitive (s : Session) (p : Primitive) : Session :=
  let typeDef := TypeDef.new p.name [] (.builtin p.typeId) s.universal .null
  match s.scopes.addType s.universal typeDef with
  | .ok (_, scopes) => { s with scopes }
  | .error _ => s

/-- Declares a built-in operator with its signature in the universal scope. -/
def declareBuiltin (s : Session) (op : Builtin) : Session :=
  let (arguments, types) := s.types.makePlainTuple (.replicate op.kind.arity op.operand.typeId)
  let (signature, types) := types.makeFunc arguments op.result.typeId
  let decl := Decl.new op.kind.symbol (.builtin op) s.universal .null
  let (id, s) := { s with types }.addDecl { decl with type := some signature, ready := true }
  match s.scopes.addVar s.universal op.kind.symbol id true with
  | .ok scopes => { s with scopes }
  | .error _ => s

/-- A session without modules, for programs that start at `entrySymbol`. -/
def new (entrySymbol : String) : Session :=
  let (universal, scopes) := ScopeTable.empty.addScope .universal none
  let s : Session :=
    ⟨.empty, .initial, scopes, #[], .empty, #[], [], #[], universal, entrySymbol⟩
  Builtin.all.foldl declareBuiltin (Primitive.all.foldl definePrimitive s)

/-- Registers a module with new layers and an empty root. -/
def addModule (s : Session) (name path source : String) : ModuleId × Session :=
  let (publicImport, scopes) := s.scopes.addScope .publicImport (some s.universal)
  let (publicLayer, scopes) := scopes.addScope .publicLayer (some publicImport)
  let (privateImport, scopes) := scopes.addScope .privateImport (some publicLayer)
  let (privateLayer, scopes) := scopes.addScope .privateLayer (some privateImport)
  let span := Span.ofBytes 0 source.utf8ByteSize path
  let (root, tree) := s.tree.add (.moduleRoot name) span privateLayer
  let layers : Layers := ⟨privateLayer, privateImport, publicLayer, publicImport⟩
  let modules := s.modules.push ⟨name, path, source, root, layers, false, false⟩
  (⟨s.modules.size⟩, { s with scopes, tree, modules })

/-- The tree of a module as text. -/
def dump (s : Session) (id : ModuleId) : String :=
  s.tree.dump s.types s.values (s.module id).root

end Session
end BlockLang
