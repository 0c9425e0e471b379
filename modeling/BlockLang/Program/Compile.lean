import BlockLang.Program.Analyze
import BlockLang.Program.Entry

/-!
# Compiling a program

Loads the root module, analyzes it with its imports and finds the entry point. What
is wrong with the program is in the report of the session, a fatal problem ends the
work.
-/

namespace BlockLang

/-- The name of the function a program starts at unless another one is given. -/
def defaultEntry : String := "main"

/-- Loads the root module of a program. No import asks for it. -/
def loadRoot (library : Library) (name : String) : Task Stop ModuleId :=
  loadModule library name .null

structure Program where
  root : ModuleId
  entry : DeclId
deriving DecidableEq, Inhabited

/-- Compiles the program whose root module is called `root`. -/
def compile (library : Library) (root : String) : Task Stop Program := do
  let module ← loadRoot library root
  analyze library module
  return ⟨module, ← entryPoint module⟩

/-- What a task stopped at or gave, and the session it left. -/
def Task.start (task : Task ε α) (session : Session) : Except ε α × Session :=
  StateT.run (ExceptT.run task) session

end BlockLang
