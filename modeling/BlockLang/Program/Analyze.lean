import BlockLang.Lowered.Build
import BlockLang.Lowered.Normalize
import BlockLang.Program.Load
import BlockLang.Typing.Statement

/-!
# Analyzing modules

A module is analyzed after the modules it imports, so that what they export has
types before it is used. A module whose analysis has begun is left alone, which
ends import cycles.
-/

namespace BlockLang

/-- An import among the items of a module. -/
structure Import where
  name : String
  isPublic : Bool
  position : Position
deriving DecidableEq, Inhabited

/-- The import that an item is, if it is one. -/
def Arena.import? (tree : Arena) (item : NodeId) : Option Import :=
  match tree.kind item with
  | .importDecl name isPublic => some ⟨name, isPublic, (tree.span item).start⟩
  | _ => none

/-- The imports of a module in order. -/
def Session.imports (s : Session) (module : ModuleId) : List Import :=
  (s.tree.children (s.module module).root).filterMap s.tree.import?

/-- The layer of a module that an import adds to. -/
def Import.layer (i : Import) (layers : Layers) : ScopeId :=
  if i.isPublic then layers.publicImport else layers.privateImport

/-- Lets `module` see what `imported` exports. -/
def connect (module : ModuleId) (i : Import) (imported : ModuleId) : Pass Unit := do
  let s ← get
  let layer := i.layer (s.module module).layers
  .editScopes (·.addImport layer (s.module imported).layers.publicLayer)

/-- The three passes over the tree of one module. -/
def analyzeTree (root : NodeId) : Pass Unit := do
  normalize root
  lower root
  infer root

/-- Analyzes a module through at most `depth` nested imports. -/
def analyzeWithin (library : Library) : Nat → ModuleId → Task Stop Unit
  | 0, _ => throw (.fault .endless)
  | depth + 1, module => do
    if ((← get).module module).started then return
    modify (·.modifyModule module ({ · with started := true }))
    ((← get).imports module).forM fun i => do
      let imported ← loadModule library i.name i.position
      analyzeWithin library depth imported
      (connect module i imported : Pass Unit)
    analyzeTree ((← get).module module).root
    modify (·.modifyModule module ({ · with analyzed := true }))

/-- Analyzes a module and, before it, everything it imports. Each nested import starts
another module, either a registered one or one that the library has a text for. -/
def analyze (library : Library) (module : ModuleId) : Task Stop Unit := do
  analyzeWithin library ((← get).modules.size + library.count + 1) module

end BlockLang
