import BlockLang.CommandLine.Run
import BlockLang.Program.FileTree

/-!
# The command

Reads the files a program consists of, then prints what compiling them gives.
-/

namespace BlockLang

/-- The names after `import` in a text. -/
def importedNames (text : String) : List String :=
  match tokenize text unnamedFile with
  | .error _ => []
  | .ok tokens =>
    (tokens.zip tokens.tail).filterMap fun (word, name) =>
      if word.kind = .importWord then some name.value else none

/-- Reads the module `name` of a directory. -/
def readModule (directory name : String) : IO Found := do
  let path := modulePath directory name
  try
    match String.fromUTF8? (← IO.FS.readBinFile path) with
    | some text => return .text path text
    | none => return .unreadable path
  catch
    | .noFileOrDirectory .. => return .missing
    | _ => return .unreadable path

/-- Reads the modules `names` of a directory and those they import. -/
partial def readModules (directory : String) (known : List (String × Found)) :
    List String → IO (List (String × Found))
  | [] => return known
  | name :: names => do
    if (known.lookup name).isSome then readModules directory known names
    else
      let found ← readModule directory name
      let needed := match found with
        | .text _ text => importedNames text
        | _ => []
      readModules directory ((name, found) :: known) (needed ++ names)

/-- The modules that a request needs. -/
def requiredModules : Request → IO (List (String × Found))
  | .run options =>
    match Path.stem? options.file with
    | some root => readModules (Path.directory options.file) [] [root]
    | none => return []
  | _ => return []

end BlockLang

open BlockLang in
def main (arguments : List String) : IO UInt32 := do
  let request := Request.read arguments
  let found ← requiredModules request
  let outcome := request.answer fun _ => Library.ofList found
  (← IO.getStdout).putStr outcome.output
  (← IO.getStderr).putStr outcome.errors
  return outcome.code
