import BlockLang.Handle
import BlockLang.Types.Basic
import BlockLang.Value.Arithmetic

/-!
# Compile-time values

Values live in cells that are handed out one after another and may be shared.
A sequence of scalars packs them into one run of bytes; asking for an element of
it gives a view, a cell that reads and writes those bytes. Cells refer to earlier
cells only, which bounds every walk.

Operations that may need new cells return the heap they leave behind.
-/

namespace BlockLang

/-- The place of one element in a packed sequence. -/
structure Slot where
  offset : Nat
  type : TypeId
  primitive : Primitive
deriving DecidableEq, Inhabited

/-- What a cell holds. -/
inductive Cell where
  /-- The value of the empty tuple. -/
  | null
  | error
  | scalar (type : TypeId) (primitive : Primitive) (bytes : List UInt8)
  /-- Scalars in one run of bytes. -/
  | packed (type : TypeId) (layout : List Slot) (buffer : List UInt8)
  /-- Elements with cells of their own. -/
  | sequence (type : TypeId) (elements : List ValueId)
  | function (decl : DeclId) (type : TypeId)
  | reference (type : TypeId) (target : ValueId)
  /-- A view of one element of a packed sequence. -/
  | element (sequence : ValueId) (index : Nat)
deriving DecidableEq, Inhabited

def Cell.kindName : Cell → String
  | null => "Null"
  | error => "Error"
  | scalar .. => "Scalar"
  | packed .. => "Packed"
  | sequence .. => "Sequence"
  | function .. => "Function"
  | reference .. => "Reference"
  | element .. => "Element"

/-- The cell with another type. Null, errors and views have none of their own. -/
def Cell.withType (type : TypeId) : Cell → Cell
  | scalar _ primitive bytes => scalar type primitive bytes
  | packed _ layout buffer => packed type layout buffer
  | sequence _ elements => sequence type elements
  | function decl _ => function decl type
  | reference _ target => reference type target
  | cell => cell

/-- The payload of one element of a packed sequence. -/
def Slot.read? (slot : Slot) (buffer : List UInt8) : Option Scalar :=
  (Scalar.decode slot.primitive ((buffer.drop slot.offset).take slot.primitive.size)).toOption

/-- `buffer` with `bytes` written from `offset` on. -/
def overwrite (buffer : List UInt8) (offset : Nat) (bytes : List UInt8) : List UInt8 :=
  buffer.take offset ++ bytes ++ buffer.drop (offset + bytes.length)

structure Heap where
  cells : Array Cell
deriving Inhabited

namespace Heap

def empty : Heap := ⟨#[]⟩

/-- The cell of a value; a handle outside the heap reads as an error. -/
def cell (h : Heap) (v : ValueId) : Cell := h.cells[v.index]?.getD .error

def alloc (h : Heap) (cell : Cell) : ValueId × Heap := (⟨h.cells.size⟩, ⟨h.cells.push cell⟩)

def set (h : Heap) (v : ValueId) (cell : Cell) : Heap := ⟨h.cells.setIfInBounds v.index cell⟩

/-- The slot of a view, and the bytes it lies in. -/
def slot? (h : Heap) (sequence : ValueId) (index : Nat) : Option (Slot × List UInt8) :=
  match h.cell sequence with
  | .packed _ layout buffer => layout[index]?.map (·, buffer)
  | _ => none

def type? (h : Heap) (v : ValueId) : Option TypeId :=
  match h.cell v with
  | .null => some .unit
  | .error => some .error
  | .scalar type _ _ | .packed type _ _ | .sequence type _ | .function _ type
  | .reference type _ => some type
  | .element sequence index => (h.slot? sequence index).map (·.1.type)

def primitive? (h : Heap) (v : ValueId) : Option Primitive :=
  match h.cell v with
  | .scalar _ primitive _ => some primitive
  | .element sequence index => (h.slot? sequence index).map (·.1.primitive)
  | _ => none

/-- The payload of a scalar or of a view. -/
def scalar? (h : Heap) (v : ValueId) : Option Scalar :=
  match h.cell v with
  | .scalar _ primitive bytes => (Scalar.decode primitive bytes).toOption
  | .element sequence index => do
    let (slot, buffer) ← h.slot? sequence index
    slot.read? buffer
  | _ => none

def bool? (h : Heap) (v : ValueId) : Option Bool :=
  match h.scalar? v with
  | some (.bool b) => some b
  | _ => none

def int? (h : Heap) (v : ValueId) : Option Int64 :=
  match h.scalar? v with
  | some (.int i) => some i
  | _ => none

/-- A float, or an integer as one. -/
def float? (h : Heap) (v : ValueId) : Option Number.Double :=
  match h.scalar? v with
  | some (.float x) => some x
  | some (.int i) => some (.ofInt i.toInt)
  | _ => none

def function? (h : Heap) (v : ValueId) : Option DeclId :=
  match h.cell v with
  | .function decl _ => some decl
  | _ => none

/-- Number of elements of a sequence. -/
def length? (h : Heap) (v : ValueId) : Option Nat :=
  match h.cell v with
  | .packed _ layout _ => some layout.length
  | .sequence _ elements => some elements.length
  | _ => none

def ofScalar (h : Heap) (type : TypeId) (primitive : Primitive) (s : Scalar) : ValueId × Heap :=
  h.alloc (.scalar type primitive (s.encode primitive))

/-- Packs scalars one after another from byte `offset` on. -/
def pack (offset : Nat) : List (TypeId × Primitive × Scalar) → List Slot × List UInt8
  | [] => ([], [])
  | (type, primitive, s) :: rest =>
    let bytes := s.encode primitive
    let (slots, buffer) := pack (offset + bytes.length) rest
    (⟨offset, type, primitive⟩ :: slots, bytes ++ buffer)

/-- A sequence: packed if it has elements and all are scalars. -/
def sequence (h : Heap) (type : TypeId) (elements : List ValueId) : ValueId × Heap :=
  let scalars := elements.mapM fun v => do
    let primitive ← h.primitive? v
    let s ← h.scalar? v
    let type ← h.type? v
    return (type, primitive, s)
  match scalars with
  | some (first :: rest) =>
    let (layout, buffer) := pack 0 (first :: rest)
    h.alloc (.packed type layout buffer)
  | _ => h.alloc (.sequence type elements)

/-- An element of a sequence: a view into a packed one, else the element itself. -/
def element? (h : Heap) (v : ValueId) (index : Nat) : Option (ValueId × Heap) :=
  match h.cell v with
  | .packed _ layout _ => if index < layout.length then some (h.alloc (.element v index)) else none
  | .sequence _ elements => elements[index]?.map (·, h)
  | _ => none

/-- One step behind a reference or a view. Of a view it is a copy. -/
def deref? (h : Heap) (v : ValueId) : Option (ValueId × Heap) :=
  match h.cell v with
  | .reference _ target => some (target, h)
  | .element .. => do
    let type ← h.type? v
    let primitive ← h.primitive? v
    let s ← h.scalar? v
    return h.ofScalar type primitive s
  | _ => none

def storeWithin (s : Scalar) : Nat → Heap → ValueId → Bool × Heap
  | 0, h, _ => (false, h)
  | depth + 1, h, v =>
    match h.cell v with
    | .reference _ target => storeWithin s depth h target
    | .scalar type primitive _ => (true, h.set v (.scalar type primitive (s.encode primitive)))
    | .element sequence index =>
      match h.cell sequence with
      | .packed type layout buffer =>
        match layout[index]? with
        | some slot =>
          let buffer := overwrite buffer slot.offset (s.encode slot.primitive)
          (true, h.set sequence (.packed type layout buffer))
        | none => (false, h)
      | _ => (false, h)
    | _ => (false, h)

/-- Writes the payload of `source` into the storage behind `v`, and says whether
there is a payload and storage for it. -/
def store (h : Heap) (v source : ValueId) : Bool × Heap :=
  match h.scalar? source with
  | none => (false, h)
  | some s => storeWithin s (v.index + 1) h v

/-- Runs `f` over `xs` and hands the heap on. -/
def mapHeap (f : Heap → α → β × Heap) (h : Heap) : List α → List β × Heap
  | [] => ([], h)
  | x :: xs =>
    let (y, h) := f h x
    let (ys, h) := mapHeap f h xs
    (y :: ys, h)

def duplicateWithin : Nat → Heap → ValueId → ValueId × Heap
  | 0, h, v => (v, h)
  | depth + 1, h, v =>
    match h.cell v with
    | .sequence type elements =>
      let (elements, h) := mapHeap (duplicateWithin depth) h elements
      h.alloc (.sequence type elements)
    | .reference type target =>
      let (target, h) := duplicateWithin depth h target
      h.alloc (.reference type target)
    | .element sequence index =>
      let (sequence, h) := duplicateWithin depth h sequence
      h.alloc (.element sequence index)
    | cell => h.alloc cell

/-- A copy that shares no cell with `v`. -/
def duplicate (h : Heap) (v : ValueId) : ValueId × Heap := duplicateWithin (v.index + 1) h v

/-- A copy of `v` with another type. -/
def retyped (h : Heap) (v : ValueId) (type : TypeId) : ValueId × Heap :=
  let (copy, h) := h.duplicate v
  (copy, h.set copy (Cell.withType type (h.cell copy)))

/-- The payload of `v` as a `primitive` of type `type`. -/
def cast? (h : Heap) (v : ValueId) (type : TypeId) (primitive : Primitive) :
    Option (ValueId × Heap) :=
  (h.scalar? v).map fun s => h.ofScalar type primitive (s.convert primitive)

/-- Applies an operator to values; the result has type `type`. -/
def fold (h : Heap) (b : Builtin) (type : TypeId) (args : List ValueId) :
    Folded (ValueId × Heap) :=
  match args.mapM h.scalar? with
  | none => .notConstant
  | some scalars =>
    match Scalar.apply b scalars with
    | .value s => .value (h.ofScalar type b.result s)
    | .notConstant => .notConstant
    | .divisionByZero => .divisionByZero

/-- `parts` in brackets. -/
def bracketed (parts : List String) : String := "[" ++ ", ".intercalate parts ++ "]"

def displayWithin (h : Heap) : Nat → ValueId → String
  | 0, _ => "?"
  | depth + 1, v =>
    match h.cell v with
    | .null => "null"
    | .error => "<error>"
    | .scalar .. | .element .. => ((h.scalar? v).map Scalar.display).getD "?"
    | .packed _ layout buffer =>
      bracketed (layout.map fun slot => ((slot.read? buffer).map Scalar.display).getD "?")
    | .sequence _ elements => bracketed (elements.map (displayWithin h depth))
    | .function decl _ => "fn#" ++ toString decl.index
    | .reference _ target => "@" ++ displayWithin h depth target

/-- A value as text. -/
def display (h : Heap) (v : ValueId) : String := h.displayWithin (v.index + 1) v

end Heap
end BlockLang
