import BlockLang.Text.Quoted

/-!
# What can be wrong with a program

Each cause carries what its report needs. `name` identifies the kind of cause,
`message` is its one-line account and `tip` the advice shown beside the source
line. Types and values arrive already written out.
-/

namespace BlockLang

/-- A cause for complaint. -/
inductive Problem where
  | unrecognisedToken (token : String)
  | unexpectedToken (token : String)
  | unexpectedTokenDetailed (token message : String)
  | numberParseError (token : String)
  | variableAlreadyDeclared (name : String)
  | typeAlreadyDeclared (type : String)
  | variableNotDeclared (name : String)
  | usedBeforeDeclaration (name : String)
  | unknownType (type : String)
  | recursiveType (type : String)
  | notAnLvalue (operation : String)
  | notAReference (name : String)
  | noMatchingOverload (name arguments : String)
  | ambiguousOverload (name : String) (candidates : Nat)
  | typeMatchError (expected received : String)
  | fieldNotFound (field type : String)
  | notIndexable (type : String)
  | indexOutOfBounds (index : Int64) (length : UInt64)
  | returnOutsideFunction
  | moduleNotFound (name : String)
  | divisionByZero
  | constantCondition (value : Bool)
  | fileUnreadable (path : String)
  | noEntryPoint (symbol : String)
  | entryPointNotCallable (symbol : String)
deriving DecidableEq, Inhabited

namespace Problem

/-- The kind of cause, as one word. -/
def name : Problem → String
  | unrecognisedToken _ => "UnrecognisedToken"
  | unexpectedToken _ => "UnexpectedToken"
  | unexpectedTokenDetailed _ _ => "UnexpectedTokenDetailed"
  | numberParseError _ => "NumberParseError"
  | variableAlreadyDeclared _ => "VariableAlreadyDeclared"
  | typeAlreadyDeclared _ => "TypeAlreadyDeclared"
  | variableNotDeclared _ => "VariableNotDeclared"
  | usedBeforeDeclaration _ => "UsedBeforeDeclaration"
  | unknownType _ => "UnknownType"
  | recursiveType _ => "RecursiveType"
  | notAnLvalue _ => "NotAnLvalue"
  | notAReference _ => "NotAReference"
  | noMatchingOverload _ _ => "NoMatchingOverload"
  | ambiguousOverload _ _ => "AmbiguousOverload"
  | typeMatchError _ _ => "TypeMatchError"
  | fieldNotFound _ _ => "FieldNotFound"
  | notIndexable _ => "NotIndexable"
  | indexOutOfBounds _ _ => "IndexOutOfBounds"
  | returnOutsideFunction => "ReturnOutsideFunction"
  | moduleNotFound _ => "ModuleNotFound"
  | divisionByZero => "DivisionByZero"
  | constantCondition _ => "ConstantCondition"
  | fileUnreadable _ => "FileUnreadable"
  | noEntryPoint _ => "NoEntryPoint"
  | entryPointNotCallable _ => "EntryPointNotCallable"

/-- A truth value as the language spells it. -/
def truth (b : Bool) : String := if b then "true" else "false"

/-- A whole number in decimal, with a minus sign if it is negative. -/
def whole (i : Int64) : String := toString i.toInt

open Text (quote)

/-- The cause in one line. Names taken from the program are quoted, types are not. -/
def message : Problem → String
  | unrecognisedToken token => "unrecognised token: " ++ quote token
  | unexpectedToken token => "unexpected token: " ++ quote token
  | unexpectedTokenDetailed token message =>
    "unexpected token (" ++ quote message ++ "): " ++ quote token
  | numberParseError token => "error parsing number: " ++ quote token
  | variableAlreadyDeclared name => "variable " ++ quote name ++ " already declared"
  | typeAlreadyDeclared type => "type " ++ quote type ++ " already declared"
  | variableNotDeclared name => quote name ++ " not defined"
  | usedBeforeDeclaration name => "variable " ++ quote name ++ " used before declaration"
  | unknownType type => "unknown type " ++ type ++ " found"
  | recursiveType type => "type " ++ type ++ " is recursive"
  | notAnLvalue operation => "cannot apply " ++ quote operation ++ " to a non-lvalue"
  | notAReference name => quote name ++ " is not a reference"
  | noMatchingOverload name arguments =>
    "no accessible overload of " ++ quote name ++ " matches " ++ arguments
  | ambiguousOverload name candidates =>
    "ambiguous call to " ++ quote name ++ ": " ++ toString candidates ++ " candidates"
  | typeMatchError expected received =>
    "types do not match: expected " ++ quote expected ++ ", received " ++ quote received
  | fieldNotFound field type => "no field " ++ quote field ++ " on " ++ type
  | notIndexable type => type ++ " is not indexable"
  | indexOutOfBounds index length =>
    "index " ++ whole index ++ " out of bounds for length " ++ toString length.toNat
  | returnOutsideFunction => "return outside of function"
  | moduleNotFound name => "module " ++ quote name ++ " not found"
  | divisionByZero => "division by zero"
  | constantCondition value => "condition is always " ++ truth value
  | fileUnreadable path => "file " ++ quote path ++ " is unreadable"
  | noEntryPoint symbol => "no entry point " ++ quote symbol ++ " found"
  | entryPointNotCallable symbol => "entry point " ++ quote symbol ++ " is not callable"

/-- `s` as program text inside a sentence. -/
def code (s : String) : String := "`" ++ s ++ "`"

/-- Advice on the cause; an unrecognised token speaks for itself. -/
def tip : Problem → Option String
  | unrecognisedToken _ => none
  | unexpectedToken token =>
    some ("Unexpected token: " ++ code token ++ ", did you miss a semicolon?")
  | unexpectedTokenDetailed token message =>
    some ("Unexpected token: " ++ code token ++ ", " ++ message)
  | numberParseError token =>
    some ("Invalid number: " ++ code token ++ ", is it above the integer limit?")
  | variableAlreadyDeclared name => some ("Variable " ++ code name ++ " already declared")
  | typeAlreadyDeclared type => some ("Type " ++ code type ++ " already declared")
  | variableNotDeclared name => some (code name ++ " is not defined")
  | usedBeforeDeclaration name =>
    some ("Variable " ++ code name ++ " is used before its declaration")
  | unknownType type => some ("Unknown type " ++ code type ++ " found")
  | recursiveType type => some ("Type " ++ code type ++ " refers to itself")
  | notAnLvalue operation =>
    some ("The left side of " ++ code operation ++ " must be something that can be stored to")
  | notAReference name =>
    some (code name ++ " is not a reference, declare it with " ++ code "@=")
  | noMatchingOverload name arguments =>
    some ("No accessible overload of " ++ code name ++ " matches arguments " ++ code arguments)
  | ambiguousOverload name candidates =>
    some ("Call to " ++ code name ++ " is ambiguous between " ++ toString candidates ++
      " candidates")
  | typeMatchError expected received =>
    some ("Expected type " ++ code expected ++ ", received " ++ code received)
  | fieldNotFound field type => some ("Type " ++ code type ++ " has no field " ++ code field)
  | notIndexable type => some ("Type " ++ code type ++ " cannot be indexed")
  | indexOutOfBounds index length =>
    some ("Index " ++ whole index ++ " is out of bounds for length " ++ toString length.toNat)
  | returnOutsideFunction => some (code "return" ++ " can only be used inside a function")
  | moduleNotFound name => some ("Module " ++ code name ++ " could not be found")
  | divisionByZero =>
    some "This division by a constant zero is left for the program to trap on"
  | constantCondition value => some ("Condition is always " ++ code (truth value))
  | fileUnreadable path => some ("Could not read " ++ code path)
  | noEntryPoint symbol =>
    some ("Declare " ++ code ("fn " ++ symbol ++ "()") ++ " to give the program an entry point")
  | entryPointNotCallable symbol =>
    some (code symbol ++ " must be a function taking no arguments")

end Problem
end BlockLang
