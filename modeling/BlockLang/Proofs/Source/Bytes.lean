import BlockLang.Source.Position

/-!
# The bytes of a text

A text in UTF-8 is the bytes of its characters, one after another (`toList_toUTF8`), and no two
texts have the same bytes (`toList_toUTF8_injective`). The byte of a line break stands for a line
break and for nothing else, also as one of the bytes of a longer character
(`lineBreak_mem_utf8EncodeChar`), so the breaks of a text can be counted in its bytes.
-/

namespace BlockLang

open String (utf8EncodeChar)

-- ---------------------------------------------------------------------------
-- Characters one after another
-- ---------------------------------------------------------------------------

/-- The loop collects the bytes from `i` on behind those it has. -/
theorem toList_loop_bytes (bytes : ByteArray) (i : Nat) (front : List UInt8) :
    ByteArray.toList.loop bytes i front = front.reverse ++ bytes.data.toList.drop i := by
  fun_induction ByteArray.toList.loop bytes i front with
  | case1 i front hi ih =>
    have hi' : i < bytes.data.toList.length := by simpa using hi
    rw [ih, List.drop_eq_getElem_cons hi']
    simp [ByteArray.get!, hi]
  | case2 i front hi =>
    have hend : bytes.data.toList.length ≤ i := by simpa using Nat.le_of_not_lt hi
    simp [List.drop_eq_nil_of_le hend]

theorem toList_bytes (bytes : ByteArray) : bytes.toList = bytes.data.toList := by
  simp [ByteArray.toList, toList_loop_bytes]

theorem toList_toUTF8 (cs : List Char) :
    (String.ofList cs).toUTF8.toList = cs.flatMap utf8EncodeChar := by
  simp [toList_bytes, List.utf8Encode]

theorem toList_toUTF8_injective {s t : String} (h : s.toUTF8.toList = t.toUTF8.toList) : s = t := by
  rw [toList_bytes, toList_bytes] at h
  exact String.toByteArray_inj.mp (ByteArray.ext (Array.toList_inj.mp h))

theorem length_flatMap_utf8EncodeChar (cs : List Char) :
    (cs.flatMap utf8EncodeChar).length = byteLength cs := by
  induction cs with
  | nil => rfl
  | cons c cs ih =>
    rw [List.flatMap_cons, List.length_append, String.length_utf8EncodeChar, ih, byteLength_cons]

theorem byteLength_replicate (n : Nat) (c : Char) :
    byteLength (.replicate n c) = n * c.utf8Size := by
  induction n with
  | zero => simp
  | succ n ih => rw [List.replicate_succ, byteLength_cons, ih, Nat.succ_mul, Nat.add_comm]

theorem utf8ByteSize_eq (s : String) : s.utf8ByteSize = byteLength s.toList := by
  conv => lhs; rw [← String.ofList_toList (s := s), ← String.size_toByteArray]
  rw [← length_flatMap_utf8EncodeChar, String.toByteArray_ofList, List.utf8Encode,
    List.size_toByteArray]

-- ---------------------------------------------------------------------------
-- Line breaks
-- ---------------------------------------------------------------------------

/-- The byte of a line break. -/
def lineBreak : UInt8 := 10

/-- The bytes of a longer character are all from 128 on. -/
theorem lineBreak_mem_utf8EncodeChar {c : Char} : lineBreak ∈ utf8EncodeChar c ↔ c = '\n' := by
  have hbyte (n : Nat) : lineBreak = UInt8.ofNat n ↔ n % 256 = 10 := by
    rw [← UInt8.toNat_inj, UInt8.toNat_ofNat', eq_comm]
    rfl
  constructor
  · fun_cases utf8EncodeChar c with
    | case1 v hv =>
      intro h
      have hcode : v % 256 = 10 := (hbyte v).mp (List.mem_singleton.mp h)
      exact Char.toNat_inj.mp (show v = 10 by omega)
    | _ =>
      intro h
      simp only [List.mem_cons, List.not_mem_nil, or_false, hbyte] at h
      omega
  · rintro rfl
    decide

theorem lineBreak_mem_flatMap {cs : List Char} :
    lineBreak ∈ cs.flatMap utf8EncodeChar ↔ '\n' ∈ cs := by
  simp [List.mem_flatMap, lineBreak_mem_utf8EncodeChar]

theorem count_lineBreak (cs : List Char) :
    (cs.flatMap utf8EncodeChar).count lineBreak = cs.count '\n' := by
  induction cs with
  | nil => rfl
  | cons c cs ih =>
    rw [List.flatMap_cons, List.count_append, ih]
    by_cases hc : c = '\n'
    · subst hc
      rw [List.count_cons_self, Nat.add_comm]
      rfl
    · rw [List.count_cons_of_ne hc,
        List.count_eq_zero.mpr fun h => hc (lineBreak_mem_utf8EncodeChar.mp h), Nat.zero_add]

/-- A line break is the byte behind those before it. -/
theorem getElem?_lineBreak (front back : List Char) :
    ((front ++ '\n' :: back).flatMap utf8EncodeChar)[byteLength front]? = some lineBreak := by
  rw [List.flatMap_append, ← length_flatMap_utf8EncodeChar,
    List.getElem?_append_right (Nat.le_refl _), Nat.sub_self]
  rfl

end BlockLang
