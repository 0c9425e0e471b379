import BlockLang.Types.Basic

/-!
# Types as text

A type is written as it would be in a program. A one-place tuple without a name
keeps its comma, since without it the parentheses would mean nothing.
-/

namespace BlockLang.TypeTable

variable (t : TypeTable)

/-- `parts` with commas between them. -/
def commaList (parts : List String) : String := ", ".intercalate parts

def displayWithin : Nat → TypeId → String
  | 0, _ => ""
  | depth + 1, id =>
    match t.kind id with
    | .primitive p => p.name
    | .error => "<error>"
    | .param name => name
    | .list element none => "[" ++ displayWithin depth element ++ "]"
    | .list element (some length) =>
      "[" ++ displayWithin depth element ++ "; " ++ toString length.toNat ++ "]"
    | .tuple [⟨none, type⟩] => "(" ++ displayWithin depth type ++ ",)"
    | .tuple fields =>
      let parts := fields.map fun field =>
        match field.name with
        | some name => name ++ ": " ++ displayWithin depth field.type
        | none => displayWithin depth field.type
      "(" ++ commaList parts ++ ")"
    | .reference target => "@" ++ displayWithin depth target
    | .named name [] _ => name
    | .named name args _ => name ++ "<" ++ commaList (args.map (displayWithin depth)) ++ ">"
    | .func arguments result =>
      let inner := match t.kind arguments with
        | .tuple fields => commaList (fields.map fun field => displayWithin depth field.type)
        | _ => displayWithin depth arguments
      "fn(" ++ inner ++ ") -> " ++ displayWithin depth result

/-- The type `id` as text. -/
def display (id : TypeId) : String := t.displayWithin (id.index + 1) id

end BlockLang.TypeTable
