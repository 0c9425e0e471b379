import BlockLang.Grammar.Statement
import BlockLang.Program.Library
import BlockLang.Token.Scan

/-!
# Loading modules

A module is read and parsed once, when it is first asked for. Whatever goes wrong
here is fatal. A module that cannot be parsed stays registered with the items
before the error.
-/

namespace BlockLang

/-- Stops at a diagnostic, which is fatal from here on. -/
def reject (diagnostic : Diagnostic) : Task Stop α :=
  throw (.rejected { diagnostic with severity := .fatal })

/-- Makes the diagnostics that `task` stops at fatal. -/
def asFatal (task : Task Stop α) : Task Stop α :=
  ExceptT.adapt
    (fun
      | .rejected diagnostic => .rejected { diagnostic with severity := .fatal }
      | .fault fault => .fault fault)
    task

/-- Registers a module with a text and parses it. -/
def parseText (name path text : String) : Task Stop ModuleId := do
  let (module, session) := (← get).addModule name path text
  set session
  match tokenize text path with
  | .error diagnostic => reject diagnostic
  | .ok tokens =>
    asFatal (parseModule tokens path module)
    return module

/-- The module called `name`, loaded if it has not been before. `requestedAt` is where
the import that asks for it stands. -/
def loadModule (library : Library) (name : String) (requestedAt : Position) :
    Task Stop ModuleId := do
  match (← get).findModule? name with
  | some module => return module
  | none =>
    match library.find name with
    | .text path text => parseText name path text
    | .missing => reject (.fatal (.moduleNotFound name) requestedAt)
    | .unreadable path => reject (.fatal (.fileUnreadable path) requestedAt)

end BlockLang
