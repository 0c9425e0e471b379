import BlockLang.Types.Basic

/-!
# Looking into types

Names given to types by definitions, and references, can be looked through. The
parts of a type have smaller handles than the type, which bounds every walk.
-/

namespace BlockLang.TypeTable

variable (t : TypeTable)

def primitive? (id : TypeId) : Option Primitive :=
  match t.kind id with
  | .primitive p => some p
  | _ => none

def isError (id : TypeId) : Bool := t.kind id == .error

def isReference (id : TypeId) : Bool :=
  match t.kind id with
  | .reference _ => true
  | _ => false

/-- One layer less: the body of a named type, the place of a one-place tuple. -/
def dename (id : TypeId) : TypeId :=
  match t.kind id with
  | .named _ _ expanded => expanded
  | .tuple [field] => field.type
  | _ => id

def stripNamedWithin : Nat → TypeId → TypeId
  | 0, id => id
  | depth + 1, id =>
    match t.kind id with
    | .named _ _ expanded => stripNamedWithin depth expanded
    | _ => id

/-- The type under all names on top. -/
def stripNamed (id : TypeId) : TypeId := t.stripNamedWithin (id.index + 1) id

def stripAllWithin : Nat → TypeId → TypeId
  | 0, id => id
  | depth + 1, id =>
    match t.kind id with
    | .named _ _ expanded => stripAllWithin depth expanded
    | .reference target => stripAllWithin depth target
    | _ => id

/-- The type under all names and references on top. -/
def stripAll (id : TypeId) : TypeId := t.stripAllWithin (id.index + 1) id

/-- The primitive under all names on top. -/
def underlying? (id : TypeId) : Option Primitive := t.primitive? (t.stripNamed id)

def containsErrorWithin : Nat → TypeId → Bool
  | 0, _ => false
  | depth + 1, id =>
    match t.kind id with
    | .error => true
    | .primitive _ | .param _ => false
    | .list element _ => containsErrorWithin depth element
    | .tuple fields => fields.any fun field => containsErrorWithin depth field.type
    | .reference target => containsErrorWithin depth target
    | .named _ _ expanded => containsErrorWithin depth expanded
    | .func arguments result =>
      containsErrorWithin depth arguments || containsErrorWithin depth result

/-- Whether the error type occurs in `id`. -/
def containsError (id : TypeId) : Bool := t.containsErrorWithin (id.index + 1) id

def fields? (id : TypeId) : Option (List TypeField) :=
  match t.kind id with
  | .tuple fields => some fields
  | _ => none

/-- The argument tuple and the result of a function type, under any names. -/
def func? (id : TypeId) : Option (TypeId × TypeId) :=
  match t.kind (t.stripNamed id) with
  | .func arguments result => some (arguments, result)
  | _ => none

/-- The arithmetic type that two operands are brought to, when they differ. -/
def promotion? (lhs rhs : TypeId) : Option Primitive := do
  let a ← t.underlying? lhs
  let b ← t.underlying? rhs
  Primitive.promote? a b

/-- The type that a write through `id` stores: what a reference points to. -/
def storage (id : TypeId) : TypeId :=
  match t.kind (t.stripNamed id) with
  | .reference target => target
  | _ => id

end BlockLang.TypeTable
