import BlockLang.KeyTree
import BlockLang.Primitive

/-!
# Types and their table

A type is a handle into a table of kinds. Except for type parameters, which are
never shared, the table holds each kind once: `intern` hands out the handle of
an equal kind if there is one. The parts of a kind are handles too, so equal
handles are equal types all the way down.

Equal kinds are looked for in the bucket of their hash. Nothing but the number of
comparisons rests on the hash, so a table may be made with any.
-/

namespace BlockLang

/-- A handle of a type, a number of any size like all handles. -/
structure TypeId where
  index : Nat
deriving DecidableEq, Inhabited

namespace TypeId

/-- Stands for anything that could not be given a type. -/
def error : TypeId := ⟨8⟩

/-- The empty tuple. -/
def unit : TypeId := ⟨9⟩

end TypeId

/-- The handle of a primitive type. -/
def Primitive.typeId : Primitive → TypeId
  | bool => ⟨0⟩
  | int8 => ⟨1⟩
  | int16 => ⟨2⟩
  | int32 => ⟨3⟩
  | int64 => ⟨4⟩
  | float32 => ⟨5⟩
  | float64 => ⟨6⟩
  | float80 => ⟨7⟩

/-- A place of a tuple, possibly with a name. -/
structure TypeField where
  name : Option String
  type : TypeId
deriving DecidableEq, Inhabited

inductive TypeKind where
  | primitive (primitive : Primitive)
  /-- Without a length when it is not known. -/
  | list (element : TypeId) (length : Option UInt64)
  | tuple (fields : List TypeField)
  | reference (target : TypeId)
  /-- An instance of a definition; `expanded` is its body for these arguments. -/
  | named (name : String) (args : List TypeId) (expanded : TypeId)
  | param (name : String)
  /-- From a tuple of arguments. -/
  | func (arguments result : TypeId)
  | error
deriving DecidableEq, Inhabited

namespace TypeKind

def isParam : TypeKind → Bool
  | param _ => true
  | _ => false

/-- The handles a kind is made of. -/
def parts : TypeKind → List TypeId
  | primitive _ | param _ | error => []
  | list element _ => [element]
  | tuple fields => fields.map (·.type)
  | reference target => [target]
  | named _ args expanded => args ++ [expanded]
  | func arguments result => [arguments, result]

/-- What tells lists of one element type apart. -/
def extent : TypeKind → UInt64
  | list _ (some length) => length
  | _ => 0

/-- The hash of the tables in use. -/
def hash (kind : TypeKind) : UInt64 :=
  kind.parts.foldl (fun hash part => 31 * hash + part.index.toUInt64)
    (31 * kind.extent + kind.ctorIdx.toUInt64)

end TypeKind

/-- Handles by the hash of their kind, each bucket in the order of filing. -/
abbrev Buckets := KeyTree (List TypeId)

namespace Buckets

/-- The bucket of a hash. -/
def bucket (b : Buckets) (hash : UInt64) : List TypeId := (b.find? hash.toNat).getD []

def file (hash : UInt64) (id : TypeId) (b : Buckets) : Buckets :=
  b.insert hash.toNat (b.bucket hash ++ [id])

@[simp] theorem bucket_empty (hash : UInt64) : bucket .empty hash = [] := rfl

theorem bucket_file (b : Buckets) (hash key : UInt64) (id : TypeId) :
    (b.file hash id).bucket key = if key = hash then b.bucket key ++ [id] else b.bucket key := by
  by_cases h : key = hash
  · simp [file, bucket, KeyTree.find?_insert, h]
  · simp [file, bucket, KeyTree.find?_insert, UInt64.toNat_inj, h]

theorem mem_bucket_file {b : Buckets} {hash key : UInt64} {id other : TypeId} :
    other ∈ (b.file hash id).bucket key ↔ other ∈ b.bucket key ∨ key = hash ∧ other = id := by
  rw [bucket_file]
  split <;> simp [*]

end Buckets

/-- A type of the table. -/
structure TypeEntry where
  kind : TypeKind
  /-- What a parameter stands for; only while an instance is being made. -/
  replacement : Option TypeId
deriving Inhabited

structure TypeTable where
  hash : TypeKind → UInt64
  entries : Array TypeEntry
  buckets : Buckets
  /-- Buckets hold handles of the table. -/
  inTable : ∀ key, ∀ id ∈ buckets.bucket key, id.index < entries.size
  /-- All but the parameters are in the bucket of their hash. -/
  filed : ∀ i entry, entries[i]? = some entry → entry.kind.isParam = false →
    ⟨i⟩ ∈ buckets.bucket (hash entry.kind)

namespace TypeTable

/-- The table without types. -/
def empty (hash : TypeKind → UInt64) : TypeTable where
  hash
  entries := #[]
  buckets := .empty
  inTable := by simp
  filed := by simp

instance : Inhabited TypeTable := ⟨empty TypeKind.hash⟩

/-- Number of types. -/
def size (t : TypeTable) : Nat := t.entries.size

/-- The kind of a type; a handle outside the table reads as the error type. -/
def kind (t : TypeTable) (id : TypeId) : TypeKind :=
  (t.entries[id.index]?.map (·.kind)).getD .error

/-- Adds a kind whether or not the table has it. -/
def register (t : TypeTable) (kind : TypeKind) : TypeId × TypeTable :=
  (⟨t.entries.size⟩, {
    hash := t.hash
    entries := t.entries.push ⟨kind, none⟩
    buckets := if kind.isParam then t.buckets else t.buckets.file (t.hash kind) ⟨t.entries.size⟩
    inTable := by
      intro key id hid
      have hold : id ∈ t.buckets.bucket key → id.index < (t.entries.push ⟨kind, none⟩).size :=
        fun h => by simpa using Nat.lt_succ_of_lt (t.inTable key id h)
      split at hid
      · exact hold hid
      · rcases Buckets.mem_bucket_file.mp hid with hid | ⟨-, rfl⟩
        · exact hold hid
        · simp
    filed := by
      intro i entry hentry hparam
      rw [Array.getElem?_push] at hentry
      split at hentry
      · cases hentry
        simp_all [Buckets.mem_bucket_file]
      · have hold := t.filed i entry hentry hparam
        split
        · exact hold
        · exact Buckets.mem_bucket_file.mpr (.inl hold) })

/-- The handle of a kind that the table has and shares. -/
def find? (t : TypeTable) (kind : TypeKind) : Option TypeId :=
  if kind.isParam then none
  else (t.buckets.bucket (t.hash kind)).find? fun id => t.kind id == kind

/-- The handle of `kind`, which is added if the table does not have it. A type
parameter is always added. -/
def intern (t : TypeTable) (kind : TypeKind) : TypeId × TypeTable :=
  match t.find? kind with
  | some id => (id, t)
  | none => t.register kind

/-- The kinds that need no declaration: the primitives, the error type and the
empty tuple. -/
def initialKinds : List TypeKind :=
  Primitive.all.map .primitive ++ [.error, .tuple []]

/-- The table of the types that need no declaration. -/
def new (hash : TypeKind → UInt64) : TypeTable :=
  initialKinds.foldl (fun t kind => (t.intern kind).2) (empty hash)

def initial : TypeTable := new TypeKind.hash

/-- What a parameter stands for while an instance is being made. -/
def replacement (t : TypeTable) (id : TypeId) : Option TypeId :=
  t.entries[id.index]?.bind (·.replacement)

/-- Lets `id` stand for a type, or again for itself. -/
def setReplacement (t : TypeTable) (id : TypeId) (replacement : Option TypeId) : TypeTable :=
  { t with
    entries := t.entries.modify id.index ({ · with replacement })
    inTable := by simpa using t.inTable
    filed := by
      intro i entry hentry hparam
      rw [Array.getElem?_modify] at hentry
      split at hentry
      · obtain ⟨old, hold, rfl⟩ := Option.map_eq_some_iff.mp hentry
        exact t.filed i old hold hparam
      · exact t.filed i entry hentry hparam }

def makeList (t : TypeTable) (element : TypeId) (length : Option UInt64) : TypeId × TypeTable :=
  t.intern (.list element length)

def makeTuple (t : TypeTable) (fields : List TypeField) : TypeId × TypeTable :=
  t.intern (.tuple fields)

/-- A tuple without names. -/
def makePlainTuple (t : TypeTable) (types : List TypeId) : TypeId × TypeTable :=
  t.makeTuple (types.map (⟨none, ·⟩))

def makeReference (t : TypeTable) (target : TypeId) : TypeId × TypeTable :=
  t.intern (.reference target)

def makeFunc (t : TypeTable) (arguments result : TypeId) : TypeId × TypeTable :=
  t.intern (.func arguments result)

/-- A new parameter, different from every other type. -/
def makeParam (t : TypeTable) (name : String) : TypeId × TypeTable :=
  t.intern (.param name)

end TypeTable
end BlockLang
