import BlockLang.Proofs.Grammar.Precedence
import BlockLang.Proofs.Source.Bytes
import BlockLang.Proofs.Token.Quoted
import BlockLang.Proofs.Value.Folding

/-!
# String literals as lists of bytes

The text that a literal denotes goes through UTF-8 before it becomes a list. So an escape by
two hexadecimal digits is the one byte of its code only below 128; from there on it is the
two bytes of the character with that code (`literal_of_parts`).
-/

namespace BlockLang

namespace Heap

variable {h k : Heap} {v : ValueId} {type : TypeId} {bytes : List UInt8}

/-- A list of eight-bit numbers, one for each byte, which is its two's complement. -/
structure ListsBytes (h : Heap) (v : ValueId) (type : TypeId) (bytes : List UInt8) : Prop where
  type : h.type? v = some type
  length : h.length? v = some bytes.length
  element : ∀ i b, bytes[i]? = some b → ∃ w k, h.element? v i = some (w, k) ∧
    k.type? w = some Primitive.int8.typeId ∧ k.primitive? w = some .int8 ∧
    k.int? w = some b.toInt8.toInt64

/-- A byte as an element of a packed sequence. -/
def byteElement (b : UInt8) : TypeId × Primitive × Scalar :=
  (Primitive.int8.typeId, .int8, .int b.toInt8.toInt64)

theorem encode_byte (b : UInt8) : (Scalar.int b.toInt8.toInt64).encode .int8 = [b] := by
  have hall : ∀ n : Fin 256, (Scalar.int (UInt8.ofNat n).toInt8.toInt64).encode .int8 =
      [UInt8.ofNat n] := by decide +kernel
  simpa using hall ⟨b.toNat, b.toNat_lt⟩

theorem decode_byte (b : UInt8) : Scalar.decode .int8 [b] = .ok (.int b.toInt8.toInt64) := by
  have hall : ∀ n : Fin 256, Scalar.decode .int8 [UInt8.ofNat n] =
      .ok (.int (UInt8.ofNat n).toInt8.toInt64) := by decide +kernel
  simpa using hall ⟨b.toNat, b.toNat_lt⟩

theorem buffer_pack_bytes (offset : Nat) (bytes : List UInt8) :
    (pack offset (bytes.map byteElement)).2 = bytes := by
  induction bytes generalizing offset with
  | nil => rfl
  | cons b bytes ih => simp [pack, byteElement, encode_byte, ih]

theorem layout_pack_bytes (offset : Nat) (bytes : List UInt8) (i : Nat) :
    (pack offset (bytes.map byteElement)).1[i]? =
      bytes[i]?.map fun _ => ⟨offset + i, Primitive.int8.typeId, .int8⟩ := by
  induction bytes generalizing offset i with
  | nil => rfl
  | cons b bytes ih =>
    cases i with
    | zero => rfl
    | succ i => simp [pack, byteElement, encode_byte, ih, Nat.add_comm 1 i, Nat.add_assoc]

theorem length_pack_bytes (offset : Nat) (bytes : List UInt8) :
    (pack offset (bytes.map byteElement)).1.length = bytes.length := by
  induction bytes generalizing offset with
  | nil => rfl
  | cons b bytes ih => simp [pack, byteElement, ih]

/-- A byte as a value of its own. -/
def ofByte (h : Heap) (b : UInt8) : ValueId × Heap :=
  h.ofScalar Primitive.int8.typeId .int8 (.int b.toInt8.toInt64)

/-- What a packed sequence takes over from an element. -/
def payload? (h : Heap) (v : ValueId) : Option (TypeId × Primitive × Scalar) := do
  let primitive ← h.primitive? v
  let s ← h.scalar? v
  let type ← h.type? v
  return (type, primitive, s)

theorem payload?_ofByte {b : UInt8} (hg : (h.ofByte b).2.Grows k) :
    k.payload? (h.ofByte b).1 = some (byteElement b) := by
  have hcell : k.cell (h.ofByte b).1 = .scalar Primitive.int8.typeId .int8 [b] := by
    rw [hg.cell (h.ofByte b).1 (has_alloc h _), ofByte, ofScalar, cell_alloc_self, encode_byte]
  simp [payload?, primitive?, scalar?, type?, hcell, decode_byte, byteElement, Except.toOption]

theorem mapM_payload? (bytes : List UInt8) (h : Heap) {k : Heap}
    (hg : (mapHeap ofByte h bytes).2.Grows k) :
    (mapHeap ofByte h bytes).1.mapM k.payload? = some (bytes.map byteElement) := by
  induction bytes generalizing h with
  | nil => rfl
  | cons b bytes ih =>
    have hrest : (h.ofByte b).2.Grows (mapHeap ofByte (h.ofByte b).2 bytes).2 :=
      Grammar.grows_mapHeap (fun h _ => grows_alloc h _) bytes _
    have hfirst := payload?_ofByte (hrest.trans hg)
    have hothers := ih (h.ofByte b).2 hg
    simp only [mapHeap, List.mapM_cons, hfirst, hothers]
    rfl

theorem cell_bytesValue (type : TypeId) (bytes : List UInt8) (h : Heap) :
    (Grammar.bytesValue type bytes h).2.cell (Grammar.bytesValue type bytes h).1 =
      if bytes = [] then .sequence type []
      else .packed type (pack 0 (bytes.map byteElement)).1 bytes := by
  have hvalue : Grammar.bytesValue type bytes h =
      (mapHeap ofByte h bytes).2.sequence type (mapHeap ofByte h bytes).1 := rfl
  have hpayloads : (mapHeap ofByte h bytes).1.mapM (mapHeap ofByte h bytes).2.payload? =
      some (bytes.map byteElement) := mapM_payload? bytes h (.refl _)
  unfold payload? at hpayloads
  rw [hvalue, sequence, hpayloads]
  cases bytes with
  | nil => exact cell_alloc_self _ _
  | cons b bytes =>
    have hbuffer := buffer_pack_bytes 0 (b :: bytes)
    rw [if_neg nofun]
    exact (cell_alloc_self _ _).trans (congrArg (Cell.packed type _) hbuffer)

theorem has_bytesValue (type : TypeId) (bytes : List UInt8) (h : Heap) :
    (Grammar.bytesValue type bytes h).2.Has (Grammar.bytesValue type bytes h).1 := by
  refine has_of_cell_ne ?_
  rw [cell_bytesValue]
  split <;> nofun

theorem listsBytes_of_cell (hv : h.cell v = if bytes = [] then .sequence type []
      else .packed type (pack 0 (bytes.map byteElement)).1 bytes) : h.ListsBytes v type bytes := by
  cases bytes with
  | nil =>
    rw [if_pos rfl] at hv
    exact ⟨by rw [type?, hv], by rw [length?, hv]; rfl, fun i c hc => by cases hc⟩
  | cons b bytes =>
    rw [if_neg (List.cons_ne_nil b bytes)] at hv
    refine ⟨by rw [type?, hv], by simp only [length?, hv, length_pack_bytes], fun i c hc => ?_⟩
    have hi : i < (b :: bytes).length := (List.getElem?_eq_some_iff.mp hc).1
    have helement : h.element? v i = some (h.alloc (.element v i)) := by
      simp only [element?, hv, length_pack_bytes, if_pos hi]
    have hview := cell_alloc_self h (.element v i)
    have hslot : (h.alloc (.element v i)).2.slot? v i =
        some (⟨0 + i, Primitive.int8.typeId, .int8⟩, b :: bytes) := by
      rw [slot?, (grows_alloc h _).cell v (has_of_cell_ne (by simp [hv])), hv]
      simp only [layout_pack_bytes, hc, Option.map_some]
    have hread : Slot.read? ⟨0 + i, Primitive.int8.typeId, .int8⟩ (b :: bytes) =
        some (.int c.toInt8.toInt64) := by
      have hbyte : ((b :: bytes).drop (0 + i)).take Primitive.int8.size = [c] := by
        rw [Nat.zero_add, List.drop_eq_getElem_cons hi, (List.getElem?_eq_some_iff.mp hc).2]
        rfl
      simp only [Slot.read?, hbyte, decode_byte]
      rfl
    refine ⟨(h.alloc (.element v i)).1, (h.alloc (.element v i)).2, helement, ?_, ?_, ?_⟩
    · rw [type?, hview]
      simp only [hslot, Option.map_some]
    · rw [primitive?, hview]
      simp only [hslot, Option.map_some]
    · rw [int?, scalar?, hview]
      simp only [hslot, Option.bind_eq_bind, Option.bind_some, hread]

end Heap

-- ---------------------------------------------------------------------------
-- Literals in parts
-- ---------------------------------------------------------------------------

namespace Token

/-- A character for itself, or an escape by two hexadecimal digits. -/
inductive Part where
  | plain (c : Char) (hquote : c ≠ '"') (hslash : c ≠ '\\')
  | code (d e : Char) {high low : Nat} (hd : hexDigit? d = some high) (he : hexDigit? e = some low)

namespace Part

def written : Part → List Char
  | plain c _ _ => [c]
  | code d e _ _ => ['\\', 'x', d, e]

def denoted : Part → Char
  | plain c _ _ => c
  | @code _ _ high low _ _ => Char.ofNat (16 * high + low)

/-- The bytes that a part adds to the list. -/
def bytes : Part → List UInt8
  | plain c _ _ => String.utf8EncodeChar c
  | @code _ _ high low _ _ =>
    let n := 16 * high + low
    if n < 128 then [.ofNat n] else [.ofNat (192 + n / 64), .ofNat (128 + n % 64)]

theorem hexDigit?_lt {c : Char} (h : hexDigit? c = some n) : n < 16 := by
  have hnat {c d : Char} (hle : c ≤ d) : c.toNat ≤ d.toNat := UInt32.le_iff_toNat_le.mp hle
  have hlast : '9'.toNat = '0'.toNat + 9 ∧ 'f'.toNat = 'a'.toNat + 5 ∧
      'F'.toNat = 'A'.toNat + 5 := ⟨rfl, rfl, rfl⟩
  unfold hexDigit? at h
  split at h
  · next hc =>
    have hle := hnat hc.2
    obtain rfl := Option.some.inj h
    omega
  split at h
  · next hc =>
    have hle := hnat hc.2
    obtain rfl := Option.some.inj h
    omega
  split at h
  · next hc =>
    have hle := hnat hc.2
    obtain rfl := Option.some.inj h
    omega
  · cases h

theorem bytes_eq (part : Part) : part.bytes = String.utf8EncodeChar part.denoted := by
  cases part with
  | plain => rfl
  | @code _ _ high low hd he =>
    have hhigh := hexDigit?_lt hd
    have hlow := hexDigit?_lt he
    have hall : ∀ m : Fin 256, String.utf8EncodeChar (Char.ofNat m) =
        if m.val < 128 then [.ofNat m] else [.ofNat (192 + m / 64), .ofNat (128 + m % 64)] := by
      decide +kernel
    exact (hall ⟨16 * high + low, by omega⟩).symm

/-- Only a code below 128 is a byte by itself. -/
theorem bytes_code_iff {d e : Char} {high low : Nat} (hd : hexDigit? d = some high)
    (he : hexDigit? e = some low) :
    (code d e hd he).bytes = [.ofNat (16 * high + low)] ↔ 16 * high + low < 128 := by
  simp [bytes]

theorem writes (parts : List Part) :
    Writes (parts.flatMap written) (parts.map denoted) := by
  induction parts with
  | nil => exact .nil
  | cons part parts ih =>
    cases part with
    | plain c hquote hslash => exact .plain hquote hslash ih
    | code d e hd he => exact .hex hd he ih

theorem flatMap_bytes (parts : List Part) :
    parts.flatMap bytes = (String.ofList (parts.map denoted)).toUTF8.toList := by
  rw [toList_toUTF8, List.flatMap_map]
  exact List.flatMap_congr fun part _ => part.bytes_eq

end Part
end Token

namespace Grammar

/-- The node of a literal that is a list of bytes. -/
structure SpellsBytes (s : Session) (token : Token) (bytes : List UInt8) (t : Tree) : Prop where
  leaf : ∃ i, t = .node i .literal []
  literal : ∃ scope type value,
    s.tree.label t.handle =
      some ⟨.literal, token.span, scope, ⟨some type, some value, false, none⟩⟩ ∧
    s.types.kind type = .list Primitive.int8.typeId (some (.ofNat bytes.length)) ∧
    s.values.ListsBytes value type bytes

theorem SpellsAtom.bytes {s : Session} {token : Token} {t : Tree} (h : SpellsAtom s token t)
    (hk : token.kind = .string) : SpellsBytes s token token.value.toUTF8.toList t := by
  cases h with
  | name hname =>
    rw [hk] at hname
    cases hname
  | literal hd hl hv =>
    cases hd with
    | int h | float h =>
      rw [hk] at h
      cases h
    | bool b h =>
      rw [hk] at h
      cases b <;> cases h
    | string _ htype =>
      refine ⟨⟨_, rfl⟩, _, _, _, hl, htype, Heap.listsBytes_of_cell ?_⟩
      rw [hv.cell _ (Heap.has_bytesValue _ _ _)]
      exact Heap.cell_bytesValue _ _ _

/-- A literal of plain characters and escapes by two hexadecimal digits is one token, and its
node has the list of the bytes of its parts. -/
theorem literal_of_parts (ps : List Token.Part) (file : String) :
    ∃ token last, tokenize (.ofList (Token.enclosed (ps.flatMap Token.Part.written))) file =
        .ok [token, last] ∧ token.kind = .string ∧ last.kind = .eof ∧
      ∀ (parts : Productions Power) (c : Cursor) (s : Session) (rest : List Token),
        c.rest = token :: rest → Makes (operand parts) c s [] rest fun t s' =>
          SpellsBytes s' token (ps.flatMap Token.Part.bytes) t := by
  refine ⟨_, _, (Token.Part.writes ps).tokenize file, rfl, rfl, fun parts c s rest hc => ?_⟩
  refine (makes_atom rfl hc).imp fun t s' ht => ?_
  rw [Token.Part.flatMap_bytes]
  exact ht.bytes rfl

end Grammar

end BlockLang
