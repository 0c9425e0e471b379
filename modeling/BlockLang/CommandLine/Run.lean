import BlockLang.CommandLine.Options
import BlockLang.Program.Path

/-!
# Running the command

Everything the command prints, as a function of its arguments and of the library it
reads from. Diagnostics go to the error output in the order of report, trees to the
standard output.
-/

namespace BlockLang

/-- What the command leaves behind. -/
structure Outcome where
  code : UInt32
  output : String
  errors : String
deriving DecidableEq, Inhabited

/-- The trees of all modules, an empty line after each. -/
def Session.dumpAll (s : Session) : String :=
  String.join ((List.range s.modules.size).map fun i => s.dump ⟨i⟩ ++ "\n")

/-- How the end of a compilation is told, and the exit code. -/
def ending (result : Except Stop Program) (s : Session) : String × UInt32 :=
  match result with
  | .error (.rejected diagnostic) => (s.render diagnostic, 1)
  | .error (.fault fault) => (fault.message ++ "\n", 101)
  | .ok _ =>
    let count := s.report.errorCount
    if count = 0 then ("", 0) else (toString count ++ " error(s) reported\n", 1)

/-- Compiles the program with the root module `root`. -/
def compileAndReport (options : Options) (library : Library) (root : String) : Outcome :=
  let (result, s) := (compile library root).start (.new options.entry)
  let (closing, code) := ending result s
  let output := if options.dumpTree then s.dumpAll else ""
  ⟨code, output, String.join (s.report.map s.render) ++ closing⟩

/-- Follows a request; `library` gives the files of a directory. -/
def Request.answer (library : String → Library) : Request → Outcome
  | .help => ⟨0, helpText, ""⟩
  | .misuse => ⟨2, "", usageText⟩
  | .run options =>
    match Path.stem? options.file with
    | none => ⟨1, "", "Error: `" ++ options.file ++ "` does not name a file\n"⟩
    | some root => compileAndReport options (library (Path.directory options.file)) root

end BlockLang
