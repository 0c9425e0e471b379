import BlockLang.Diagnostic.Basic
import BlockLang.Text.Blank
import BlockLang.Token.Basic
import BlockLang.Token.Escape

/-!
# Cutting a text into tokens

`rules` lists the patterns of the language. At each place the first rule that
takes any characters decides; white space and comments are taken and dropped.
`tokenize` ends with an end-of-file token and fails at the first place where no
rule applies.
-/

namespace BlockLang.Token

/-- A lexical rule. -/
structure Rule where
  /-- Number of characters taken from the front of a text, zero if the rule does
  not apply there. -/
  length : List Char → Nat
  /-- The token the taken characters make, if they make one. -/
  make : List Char → Option (Kind × String)

namespace Rule

def isWordStart (c : Char) : Bool := c.isAlpha || c == '_'

def isWordPart (c : Char) : Bool := c.isAlpha || c.isDigit || c == '_'

/-- A letter or underscore and all letters, digits and underscores after it. -/
def wordLength : List Char → Nat
  | [] => 0
  | c :: cs => if isWordStart c then 1 + (cs.takeWhile isWordPart).length else 0

def word : Rule := ⟨wordLength, fun cs => some (.ofWord (.ofList cs), .ofList cs)⟩

def digitsLength (cs : List Char) : Nat := (cs.takeWhile Char.isDigit).length

def number : Rule := ⟨digitsLength, fun cs => some (.number, .ofList cs)⟩

/-- Digits, a point and digits. -/
def floatLength (cs : List Char) : Nat :=
  let whole := digitsLength cs
  match cs.drop whole with
  | '.' :: rest =>
    let fraction := digitsLength rest
    if whole = 0 ∨ fraction = 0 then 0 else whole + 1 + fraction
  | _ => 0

def float : Rule := ⟨floatLength, fun cs => some (.float, .ofList cs)⟩

def blank : Rule := ⟨fun cs => (cs.takeWhile Text.isBlank).length, fun _ => none⟩

/-- Characters up to and including the quotation mark that closes a string. A
backslash takes the next character with it, which may not be a line break. -/
def closingLength : List Char → Option Nat
  | [] => none
  | '"' :: _ => some 1
  | '\\' :: c :: cs => if c = '\n' then none else (closingLength cs).map (· + 2)
  | _ :: cs => (closingLength cs).map (· + 1)

def stringLength : List Char → Nat
  | '"' :: cs => ((closingLength cs).map (· + 1)).getD 0
  | _ => 0

def string : Rule :=
  ⟨stringLength, fun cs => some (.string, .ofList (unescape (cs.tail.dropLast)))⟩

/-- Two slashes and the rest of their line. -/
def commentLength : List Char → Nat
  | '/' :: '/' :: cs => 2 + (cs.takeWhile (· ≠ '\n')).length
  | _ => 0

def comment : Rule := ⟨commentLength, fun _ => none⟩

/-- A fixed mark. -/
def mark (text : String) (kind : Kind) : Rule :=
  ⟨fun cs => if text.toList.isPrefixOf cs then text.length else 0, fun _ => some (kind, text)⟩

end Rule

/-- The rules in the order they are tried. -/
def rules : List Rule :=
  [.word, .float, .number, .blank, .string, .comment] ++
    marks.map fun (text, kind) => .mark text kind

/-- The first rule that applies to `cs` and the number of characters it takes. -/
def firstRule? (cs : List Char) : Option (Rule × Nat) :=
  rules.findSome? fun rule =>
    let n := rule.length cs
    if n = 0 then none else some (rule, n)

/-- The tokens of a text from byte `offset` on. The first `taken` characters
belong to what has been read before. -/
def scan (file : String) (taken offset : Nat) : List Char → Except Diagnostic (List Token)
  | [] => .ok [⟨.eof, "EOF", .ofBytes offset offset file⟩]
  | c :: cs =>
    match taken with
    | n + 1 => scan file n (offset + c.utf8Size) cs
    | 0 =>
      match firstRule? (c :: cs) with
      | none => .error (.fatal (.unrecognisedToken (.ofList [c])) (.ofByte offset file))
      | some (rule, n) =>
        let text := (c :: cs).take n
        let rest := scan file (n - 1) (offset + c.utf8Size) cs
        match rule.make text with
        | none => rest
        | some (kind, value) =>
          let token : Token := ⟨kind, value, .ofBytes offset (offset + byteLength text) file⟩
          rest.map (token :: ·)

end Token

/-- The tokens of `source`, shown under the name `file`. -/
def tokenize (source file : String) : Except Diagnostic (List Token) :=
  Token.scan file 0 0 source.toList

/-- The file name of a text that has none. -/
def unnamedFile : String := "shell"

end BlockLang
