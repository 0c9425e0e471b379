import BlockLang.Text.Combining

/-!
# Quoted text

Messages quote parts of the program. Between the quotation marks a backslash
stands before a backslash and a quotation mark, the common controls have letters,
and every other character that does not show on its own is written by its code
point in hexadecimal.
-/

namespace BlockLang.Text

/-- The lower-case hexadecimal digits of `n`. -/
def hexDigits (n : Nat) : List Char := Nat.toDigits 16 n

/-- How one character is written between quotation marks. -/
def escapeChar (c : Char) : List Char :=
  if c = '\x00' then ['\\', '0']
  else if c = '\t' then ['\\', 't']
  else if c = '\r' then ['\\', 'r']
  else if c = '\n' then ['\\', 'n']
  else if c = '"' then ['\\', '"']
  else if c = '\\' then ['\\', '\\']
  else if isCombining c || !isPrintable c then
    ['\\', 'u', '\x7b'] ++ hexDigits c.toNat ++ ['\x7d']
  else [c]

/-- `s` between quotation marks. -/
def quote (s : String) : String :=
  String.ofList (['"'] ++ s.toList.flatMap escapeChar ++ ['"'])

end BlockLang.Text
