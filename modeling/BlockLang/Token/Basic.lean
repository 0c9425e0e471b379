import BlockLang.Source.Position

/-!
# Tokens

The words of the language. A token keeps the text it stands for: the source text
itself, except that a string's text is what the string denotes.
-/

namespace BlockLang

namespace Token

inductive Kind where
  | eof
  | number
  | float
  | string
  | identifier
  | openBracket
  | closeBracket
  | openCurly
  | closeCurly
  | openParen
  | closeParen
  | assignment
  | equals
  | not
  | notEquals
  | atSign
  | atEquals
  | less
  | lessEquals
  | greater
  | greaterEquals
  | or
  | and
  | dot
  | semicolon
  | colon
  | comma
  | arrow
  | plus
  | dash
  | slash
  | star
  | percent
  | letWord
  | constWord
  | fnWord
  | typeWord
  | importWord
  | exportWord
  | returnWord
  | ifWord
  | elseWord
  | whileWord
  | trueWord
  | falseWord
deriving DecidableEq, Inhabited

/-- The kind's display name. -/
def Kind.name : Kind → String
  | eof => "EOF"
  | number => "Number"
  | float => "Float"
  | string => "String"
  | identifier => "Identifier"
  | openBracket => "OpenBracket"
  | closeBracket => "CloseBracket"
  | openCurly => "OpenCurly"
  | closeCurly => "CloseCurly"
  | openParen => "OpenParen"
  | closeParen => "CloseParen"
  | assignment => "Assignment"
  | equals => "Equals"
  | not => "Not"
  | notEquals => "NotEquals"
  | atSign => "At"
  | atEquals => "AtEquals"
  | less => "Less"
  | lessEquals => "LessEquals"
  | greater => "Greater"
  | greaterEquals => "GreaterEquals"
  | or => "Or"
  | and => "And"
  | dot => "Dot"
  | semicolon => "Semicolon"
  | colon => "Colon"
  | comma => "Comma"
  | arrow => "Arrow"
  | plus => "Plus"
  | dash => "Dash"
  | slash => "Slash"
  | star => "Star"
  | percent => "Percent"
  | letWord => "Let"
  | constWord => "Const"
  | fnWord => "Fn"
  | typeWord => "Type"
  | importWord => "Import"
  | exportWord => "Export"
  | returnWord => "Return"
  | ifWord => "If"
  | elseWord => "Else"
  | whileWord => "While"
  | trueWord => "True"
  | falseWord => "False"

/-- The reserved words. -/
def keywords : List (String × Kind) := [
  ("let", .letWord), ("const", .constWord), ("fn", .fnWord), ("type", .typeWord),
  ("import", .importWord), ("export", .exportWord), ("return", .returnWord), ("if", .ifWord),
  ("else", .elseWord), ("while", .whileWord), ("true", .trueWord), ("false", .falseWord)]

/-- The kind of an identifier-like word. -/
def Kind.ofWord (word : String) : Kind := (keywords.lookup word).getD .identifier

/-- The fixed marks in the order they are tried: a mark stands before its own
beginnings. -/
def marks : List (String × Kind) := [
  ("[", .openBracket), ("]", .closeBracket), ("\x7b", .openCurly), ("\x7d", .closeCurly),
  ("(", .openParen), (")", .closeParen), ("==", .equals), ("!=", .notEquals), ("!", .not),
  ("=", .assignment), ("@=", .atEquals), ("@", .atSign), ("<=", .lessEquals), ("<", .less),
  (">=", .greaterEquals), (">", .greater), ("||", .or), ("&&", .and), (".", .dot),
  (";", .semicolon), (":", .colon), (",", .comma), ("->", .arrow), ("+", .plus), ("-", .dash),
  ("/", .slash), ("*", .star), ("%", .percent)]

end Token

structure Token where
  kind : Token.Kind
  value : String
  span : Span
deriving DecidableEq, Inhabited

/-- A token over three rows. -/
def Token.display (t : Token) : String :=
  "Token \x7b\nkind: " ++ t.kind.name ++ ",\nvalue: " ++ t.value ++ "\x7d"

end BlockLang
