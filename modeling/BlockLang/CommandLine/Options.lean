import BlockLang.Program.Compile

/-!
# Arguments of the command line

One file, and options before or after it. After `--` everything is a file name. The
first thing that is wrong decides, unless help is asked for before it.
-/

namespace BlockLang

structure Options where
  file : String
  entry : String
  /-- Log every phase. -/
  trace : Bool
  /-- Print the tree of every module. -/
  dumpTree : Bool
deriving DecidableEq, Inhabited

/-- What the arguments ask for. -/
inductive Request where
  | run (options : Options)
  | help
  | misuse
deriving DecidableEq, Inhabited

namespace Request

/-- The arguments read so far. -/
structure Draft where
  file : Option String
  entry : Option String
  trace : Bool
  dumpTree : Bool
deriving DecidableEq, Inhabited

def Draft.empty : Draft := ⟨none, none, false, false⟩

/-- A file name, which may be given once and is not empty. -/
def Draft.withFile? (d : Draft) (file : String) : Option Draft :=
  if d.file.isSome || file == "" then none else some { d with file := some file }

def Draft.withEntry? (d : Draft) (entry : String) : Option Draft :=
  if d.entry.isSome then none else some { d with entry := some entry }

def Draft.finish (d : Draft) : Request :=
  match d.file with
  | some file => .run ⟨file, d.entry.getD defaultEntry, d.trace, d.dumpTree⟩
  | none => .misuse

/-- Whether an argument reads as an option. A single dash is a file name. -/
def isOption (argument : String) : Bool := argument.startsWith "-" && argument != "-"

/-- The name of the entry in `--entry=NAME`. -/
def entryValue? (argument : String) : Option String :=
  let mark := "--entry="
  if argument.startsWith mark then some (argument.drop mark.length).toString else none

/-- The arguments after `--`. -/
def readFiles (d : Draft) : List String → Request
  | [] => d.finish
  | file :: rest =>
    match d.withFile? file with
    | some d => readFiles d rest
    | none => .misuse

def readAll (d : Draft) : List String → Request
  | [] => d.finish
  | "--" :: rest => readFiles d rest
  | "--trace" :: rest => if d.trace then .misuse else readAll { d with trace := true } rest
  | "--dump-ast" :: rest =>
    if d.dumpTree then .misuse else readAll { d with dumpTree := true } rest
  | ["--entry"] => .misuse
  | "--entry" :: entry :: rest =>
    if isOption entry then .misuse
    else
      match d.withEntry? entry with
      | some d => readAll d rest
      | none => .misuse
  | argument :: rest =>
    match entryValue? argument with
    | some entry =>
      match d.withEntry? entry with
      | some d => readAll d rest
      | none => .misuse
    | none =>
      if argument == "--help" || argument.startsWith "-h" then .help
      else if isOption argument then .misuse
      else
        match d.withFile? argument with
        | some d => readAll d rest
        | none => .misuse

/-- What the arguments ask for. -/
def read (arguments : List String) : Request := readAll .empty arguments

end Request

/-- The answer to a request for help. -/
def helpText : String :=
  "Front end for .lang programs\n\n" ++
  "Usage: frontend [OPTIONS] <FILE>\n\n" ++
  "Arguments:\n" ++
  "  <FILE>  Root module of the program\n\n" ++
  "Options:\n" ++
  "      --entry <NAME>  Function execution starts at [default: main]\n" ++
  "      --trace         Log every phase with its timing\n" ++
  "      --dump-ast      Print the analyzed tree of every module\n" ++
  "  -h, --help          Print help\n"

/-- The answer to arguments that cannot be read. -/
def usageText : String :=
  "error: the arguments cannot be read\n\n" ++
  "Usage: frontend [OPTIONS] <FILE>\n\n" ++
  "For more information, try '--help'.\n"

end BlockLang
