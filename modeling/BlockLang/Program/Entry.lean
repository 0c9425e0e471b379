import BlockLang.Typing.Overload

/-!
# The entry point

A program starts at a function of a given name that is visible from its root module
and can be called without arguments.
-/

namespace BlockLang

/-- An entry point that cannot be used because of the given declarations. -/
def notCallable (symbol : String) (position : Position) (decls : List DeclId) :
    Task Stop DeclId := do
  let session ← get
  let notes := decls.map fun id => (session.decl id).position
  throw (.rejected { Diagnostic.fatal (.entryPointNotCallable symbol) position with notes })

/-- The function that the program with the given root module starts at. -/
def entryPoint (module : ModuleId) : Task Stop DeclId := do
  let session ← get
  let symbol := session.entrySymbol
  let root := session.module module
  let scope := root.layers.privateLayer
  let position := Position.ofByte 0 root.path
  let candidates ← (Pass.lookUp (·.findVars scope symbol) : Pass _)
  if candidates.isEmpty then
    throw (.rejected (.fatal (.noEntryPoint symbol) position))
  match ← (Typing.resolveOverload scope symbol .unit : Pass _) with
  | .resolved decl _ =>
    if ((← get).decl decl).isFunction then return decl
    else notCallable symbol position [decl]
  | .ambiguous _ _ tied => notCallable symbol position tied
  | .noMatch | .notDefined => notCallable symbol position candidates

end BlockLang
