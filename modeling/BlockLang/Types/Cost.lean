import BlockLang.Types.Basic

/-!
# The cost of a conversion

`compare from to` prices the use of a value of one type where another is wanted:
zero for an exact match, more for names that are looked through, wider or
narrower numbers and forgotten list lengths, and `invalid` when nothing converts
the one to the other. The error type converts to and from anything for nothing.
-/

namespace BlockLang

inductive Cost where
  | valid (amount : Nat)
  | invalid
deriving DecidableEq, Inhabited

namespace Cost

def zero : Cost := .valid 0

/-- No cost is greater; sums stop here. -/
def greatest : Nat := Nat.pow 2 32 - 1

def add : Cost → Cost → Cost
  | valid a, valid b => valid (min (a + b) greatest)
  | _, _ => invalid

instance : Add Cost := ⟨add⟩

def isValid : Cost → Bool
  | valid _ => true
  | invalid => false

/-- Cheaper or equal; every valid cost is cheaper than an invalid one. -/
def le : Cost → Cost → Bool
  | valid a, valid b => a ≤ b
  | invalid, valid _ => false
  | _, invalid => true

/-- For looking through a name on one side. -/
def dename : Cost := valid 1

/-- For a type parameter on either side. -/
def param : Cost := valid 2

/-- For forgetting the length of a list. -/
def unsize : Cost := valid 1

/-- Between ranks of one family: one a step up, two a step down. -/
def steps (fromRank toRank : Nat) : Cost :=
  valid (if fromRank ≤ toRank then toRank - fromRank else 2 * (fromRank - toRank))

/-- Between primitives. Integers become floats at a price; no float becomes an
integer and truth values convert to nothing else. -/
def primitive (a b : Primitive) : Cost :=
  if a = b then zero
  else if (a.isInteger && b.isInteger) || (a.isFloat && b.isFloat) then steps a.rank b.rank
  else if a.isInteger && b.isFloat then valid (10 + b.rank)
  else invalid

def display : Cost → String
  | valid amount => toString amount
  | invalid => "invalid"

end Cost

/-- Between list lengths: the same, or a known one forgotten. -/
def lengthCost (a b : Option UInt64) : Cost :=
  if a = b then .zero
  else
    match a, b with
    | some _, none => .unsize
    | _, _ => .invalid

/-- Whether both places have a name and the names differ. -/
def TypeField.clashes (a b : TypeField) : Bool :=
  match a.name, b.name with
  | some x, some y => x != y
  | _, _ => false

/-- Sums up `cost` over the places of two tuples, as far as the first invalid one. -/
def fieldsCost (cost : TypeId → TypeId → Cost) : List TypeField → List TypeField → Cost
  | [], [] => .zero
  | a :: as, b :: bs =>
    if a.clashes b then .invalid
    else
      match cost a.type b.type with
      | .invalid => .invalid
      | .valid amount => .valid amount + fieldsCost cost as bs
  | _, _ => .invalid

namespace TypeTable

variable (t : TypeTable)

def compareWithin : Nat → TypeId → TypeId → Cost
  | 0, _, _ => .invalid
  | depth + 1, a, b =>
    if a = b then .zero
    else
      match t.kind a, t.kind b with
      | .error, _ | _, .error => .zero
      | .named _ _ x, .named _ _ y => compareWithin depth x y
      | .named _ _ x, _ => compareWithin depth x b + .dename
      | _, .named _ _ y => compareWithin depth a y + .dename
      | .param _, _ | _, .param _ => .param
      | .tuple xs, .tuple ys =>
        if xs.length = ys.length then fieldsCost (compareWithin depth) xs ys else .invalid
      | .tuple [x], _ => compareWithin depth x.type b
      | _, .tuple [y] => compareWithin depth a y.type
      | .primitive x, .primitive y => .primitive x y
      | .list x m, .list y n => lengthCost m n + compareWithin depth x y
      | .reference x, .reference y =>
        if compareWithin depth x y = .zero then .zero else .invalid
      | .func x r, .func y s => compareWithin depth x y + compareWithin depth r s
      | _, _ => .invalid

/-- The cost of using a value of type `a` where `b` is wanted. -/
def compare (a b : TypeId) : Cost := t.compareWithin (a.index + b.index + 1) a b

end TypeTable
end BlockLang
