/-!
# Places in a source text

A position is a byte offset into a named source; a span is the stretch between
two positions. Offsets count bytes of the UTF-8 form of the text in 32 bits: in
texts of `2 ^ 32` bytes and more they start again at zero.
-/

namespace BlockLang

/-- A byte offset into the source shown under the name `file`. -/
structure Position where
  offset : UInt32
  file : String
deriving DecidableEq, Inhabited

/-- The position of byte `n`. -/
def Position.ofByte (n : Nat) (file : String) : Position := ⟨.ofNat n, file⟩

/-- The position of things that no source declares, such as built-in operators. -/
def Position.null : Position := ⟨0, "<null>"⟩

/-- The stretch of source from `start` up to, but not including, `stop`. -/
structure Span where
  start : Position
  stop : Position
deriving DecidableEq, Inhabited

def Span.null : Span := ⟨.null, .null⟩

/-- From byte `start` up to, but not including, byte `stop`. -/
def Span.ofBytes (start stop : Nat) (file : String) : Span :=
  ⟨.ofByte start file, .ofByte stop file⟩

/-- The span from where `first` starts to where `last` stops. -/
def Span.to (first last : Span) : Span := ⟨first.start, last.stop⟩

/-- Number of bytes of the UTF-8 form of `cs`. -/
def byteLength : List Char → Nat
  | [] => 0
  | c :: cs => c.utf8Size + byteLength cs

@[simp] theorem byteLength_nil : byteLength [] = 0 := rfl

@[simp] theorem byteLength_cons (c : Char) (cs : List Char) :
    byteLength (c :: cs) = c.utf8Size + byteLength cs := rfl

theorem byteLength_append (xs ys : List Char) :
    byteLength (xs ++ ys) = byteLength xs + byteLength ys := by
  induction xs with
  | nil => simp
  | cons c cs ih => simp [ih, Nat.add_assoc]

end BlockLang
