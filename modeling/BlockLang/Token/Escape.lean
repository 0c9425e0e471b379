/-!
# Escapes in string literals

`unescape` turns the text between the quotation marks of a literal into the text
it denotes. A backslash before `n`, `t`, `r`, `0`, a backslash or a quotation
mark stands for one character. `\x` with one or two hexadecimal digits stands
for the character of that code; without a digit it stands for itself. Before
any other character the backslash stands for itself too.
-/

namespace BlockLang.Token

/-- The value of a hexadecimal digit of either case. -/
def hexDigit? (c : Char) : Option Nat :=
  if '0' ≤ c ∧ c ≤ '9' then some (c.toNat - '0'.toNat)
  else if 'a' ≤ c ∧ c ≤ 'f' then some (c.toNat - 'a'.toNat + 10)
  else if 'A' ≤ c ∧ c ≤ 'F' then some (c.toNat - 'A'.toNat + 10)
  else none

/-- The character that a backslash and the letter `c` stand for. -/
def escapeLetter? (c : Char) : Option Char :=
  if c = 'n' then some '\n'
  else if c = 't' then some '\t'
  else if c = 'r' then some '\r'
  else if c = '0' then some '\x00'
  else if c = '\\' then some '\\'
  else if c = '"' then some '"'
  else none

/-- What has been read of an escape that may still go on. -/
inductive Escape where
  | none
  | backslash
  /-- A backslash and `x`. -/
  | hex
  /-- The same and one digit of this value. -/
  | digit (value : Nat)
deriving DecidableEq

/-- The characters that an escape stands for if it stops here. -/
def Escape.flush : Escape → List Char
  | none => []
  | backslash => ['\\']
  | hex => ['\\', 'x']
  | digit value => [Char.ofNat value]

/-- One more character: what is now known to be denoted, and what is still open. -/
def Escape.step (pending : Escape) (c : Char) : List Char × Escape :=
  let fresh : List Char × Escape := if c = '\\' then ([], .backslash) else ([c], .none)
  let restart := (pending.flush ++ fresh.1, fresh.2)
  match pending with
  | none => restart
  | backslash =>
    match escapeLetter? c with
    | some denoted => ([denoted], .none)
    | Option.none => if c = 'x' then ([], .hex) else restart
  | hex =>
    match hexDigit? c with
    | some value => ([], .digit value)
    | Option.none => restart
  | digit high =>
    match hexDigit? c with
    | some low => ([Char.ofNat (16 * high + low)], .none)
    | Option.none => restart

/-- The text denoted by `cs` when the escape `pending` has just been read. -/
def unescapeFrom (pending : Escape) : List Char → List Char
  | [] => pending.flush
  | c :: cs => (pending.step c).1 ++ unescapeFrom (pending.step c).2 cs

/-- The text that the inside of a string literal denotes. -/
def unescape (cs : List Char) : List Char := unescapeFrom .none cs

end BlockLang.Token
