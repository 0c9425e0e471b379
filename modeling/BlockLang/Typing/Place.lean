import BlockLang.Typing.Fact

/-!
# Stores, sequences and their parts

Assignments and bindings of references, tuples and lists, and access to their
elements. Access to an element of a constant gives a constant.
-/

namespace BlockLang.Typing

open Pass

/-- Whether a node refers to something that is never stored to. -/
def isImmutable (node : NodeId) : Pass Bool := do
  match (← factsOf node).binding with
  | some (.decl id) =>
    let decl ← declOf id
    return decl.isConst || decl.isCallable
  | some (.builtin _) => return true
  | none => return false

/-- The type of `target = value`. -/
def analyzeAssign (node : NodeId) : Pass TypeId := do
  match ← childrenOf node with
  | [target, value] =>
    if !(← factsOf target).lvalue then return .error
    if ← isImmutable target then
      reportAt target (.notAnLvalue "=")
      return .error
    let storage := (← types).storage (← typeOf target)
    let received ← typeOf value
    if ← converts received storage then return storage
    mismatch value storage received
    return .error
  | _ => return .error

/-- The name of what a node refers to, for a report. -/
def referentName (node : NodeId) : Pass String := do
  match (← factsOf node).binding with
  | some (.decl id) => return (← declOf id).name
  | _ => return "expression"

/-- The type of `target @= referent`. -/
def analyzeRefBind (node : NodeId) : Pass TypeId := do
  match ← childrenOf node with
  | [target, referent] =>
    let expected ← typeOf target
    if (← types).isReference expected then
      let type ← typeOf referent
      let received ← makeType (·.makeReference type)
      if ← converts received expected then return expected
      mismatch referent expected received
      return .error
    reportAt target (.notAReference (← referentName target))
    return .error
  | _ => return .error

/-- A sequence of the values of all elements, if all have one. -/
def sequenceOf? (type : TypeId) (elements : List NodeId) : Pass (Option ValueId) := do
  match ← valuesOf? elements with
  | none => return none
  | some values => some <$> onValues (·.sequence type values)

/-- A tuple, one place for each element. -/
def analyzeTuple (node : NodeId) (names : List (Option String)) : Pass Unit := do
  let elements ← childrenOf node
  let fields ← (elements.zip names).mapM fun (element, name) => do
    return (⟨name, ← typeOf element⟩ : TypeField)
  let type ← makeType (·.makeTuple fields)
  setTypeAndValue node type (← sequenceOf? type elements)

/-- The first element that does not convert to `expected`. -/
def firstMisfit? (expected : TypeId) : List NodeId → Pass (Option NodeId)
  | [] => return none
  | element :: elements => do
    if ← converts (← typeOf element) expected then firstMisfit? expected elements
    else return some element

/-- The type of a list: that of its first element decides. -/
def analyzeList (node : NodeId) : Pass TypeId := do
  match ← childrenOf node with
  | [] => makeType (·.makeList .unit (some 0))
  | first :: others =>
    let expected ← typeOf first
    match ← firstMisfit? expected others with
    | some element =>
      mismatch element expected (← typeOf element)
      return .error
    | none =>
      let length : UInt64 := .ofNat (others.length + 1)
      let type ← makeType (·.makeList expected (some length))
      let value ← sequenceOf? type (first :: others)
      annotate node ({ · with value })
      return type

def reportOutOfBounds (node : NodeId) (index : Int64) (length : UInt64) : Pass Unit := do
  reportAt node (.indexOutOfBounds index length)
  setType node .error

/-- Reports at `place` that a type has no elements to index. -/
def reportNotIndexable (node place : NodeId) (type : TypeId) : Pass Unit := do
  reportAt place (.notIndexable (← display type))
  setType node .error

/-- The value of an index, if it is a constant integer. -/
def constantIndex? (node : NodeId) : Pass (Option Int64) := do
  match ← valueOf? node with
  | none => return none
  | some value => return (← get).values.int? value

/-- Whether a constant index lies beyond a list. A length of `2 ^ 63` or more counts
as negative. -/
def beyond (index : Int64) (length : Option UInt64) : Bool :=
  index < 0 || (length.map fun length => decide (length.toInt64 ≤ index)).getD false

/-- Access to an element of a list. -/
def indexList (node base index : NodeId) (element : TypeId) (length : Option UInt64) :
    Pass Unit := do
  let indexType ← typeOf index
  if !(((← types).underlying? indexType).map Primitive.isInteger).getD false then
    mismatch index Primitive.int64.typeId indexType
    setType node .error
  else
    match ← constantIndex? index with
    | none => setTypeAndValue node element none
    | some i =>
      if beyond i length then reportOutOfBounds node i (length.getD 0)
      else setTypeAndValue node element (← elementOf? base i.toNatClampNeg)

/-- Access to a place of a tuple, which has to be constant. -/
def indexTuple (node base index : NodeId) (fields : List TypeField) : Pass Unit := do
  match ← constantIndex? index with
  | none => reportNotIndexable node index (← typeOf base)
  | some i =>
    match if i < 0 then none else fields[i.toNatClampNeg]? with
    | none => reportOutOfBounds node i (.ofNat fields.length)
    | some field => setTypeAndValue node field.type (← elementOf? base i.toNatClampNeg)

/-- `base[index]`. -/
def analyzeIndex (node : NodeId) : Pass Unit := do
  match ← childrenOf node with
  | [base, index] =>
    let types ← types
    match types.kind (types.stripAll (← typeOf base)) with
    | .list element length => indexList node base index element length
    | .tuple fields => indexTuple node base index fields
    | _ => reportNotIndexable node node (← typeOf base)
  | _ => setType node .error

/-- The place that a written position names. -/
def position? (name : String) : Option Nat :=
  let cs := name.toList
  if !cs.isEmpty && cs.all Char.isDigit then some (Number.ofDigits cs) else none

/-- The place of a tuple that `name` names: by its name, else by its position. -/
def findField? (fields : List TypeField) (name : String) : Option Nat :=
  match fields.findIdx? (·.name == some name) with
  | some index => some index
  | none => (position? name).filter (· < fields.length)

/-- `base.name`. -/
def analyzeField (node : NodeId) (name : String) : Pass Unit := do
  match ← child? node 0 with
  | none => setType node .error
  | some base =>
    let baseType ← typeOf base
    let types ← types
    let found := do
      let fields ← types.fields? (types.stripAll baseType)
      let index ← findField? fields name
      return (index, (← fields[index]?).type)
    match found with
    | some (index, type) => setTypeAndValue node type (← elementOf? base index)
    | none =>
      reportAt node (.fieldNotFound name (← display baseType))
      setType node .error

end BlockLang.Typing
