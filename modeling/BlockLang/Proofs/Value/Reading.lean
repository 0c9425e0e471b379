import Mathlib.Logic.Relation
import BlockLang.Proofs.Token.Pieces
import BlockLang.Proofs.Value.Storage

/-!
# Reading values

Storage that was filled by requests can be read and written without leaving any cell's
bytes, and every value in it can be shown: no text of a value has a question mark, which
would stand for a part that cannot be read.
-/

namespace BlockLang

-- ---------------------------------------------------------------------------
-- Texts
-- ---------------------------------------------------------------------------

/-- No part of the text is left open. -/
def Legible (text : List Char) : Prop := '?' ∉ text

instance (text : List Char) : Decidable (Legible text) := inferInstanceAs (Decidable ('?' ∉ text))

namespace Legible

theorem append {xs ys : List Char} (hx : Legible xs) (hy : Legible ys) : Legible (xs ++ ys) :=
  fun h => (List.mem_append.mp h).elim hx hy

theorem cons {c : Char} {cs : List Char} (hc : c ≠ '?') (hcs : Legible cs) : Legible (c :: cs) :=
  fun h => (List.mem_cons.mp h).elim (fun heq => hc heq.symm) hcs

theorem of_subset {xs ys : List Char} (hy : Legible ys) (h : xs ⊆ ys) : Legible xs :=
  fun hx => hy (h hx)

theorem replicate (n : Nat) : Legible (List.replicate n '0') := fun h => by
  have := List.eq_of_mem_replicate h
  contradiction

theorem nat (n : Nat) : Legible (toString n).toList := fun h => by
  have := Piece.isDigit_of_mem_toString h
  contradiction

theorem int (i : Int) : Legible (toString i).toList := by
  cases i with
  | ofNat n => exact nat n
  | negSucc n =>
    show Legible ("-" ++ toString (n + 1)).toList
    rw [String.toList_append]
    exact append (by decide) (nat (n + 1))

theorem intercalate {sep : List Char} {parts : List (List Char)} (hsep : Legible sep)
    (hparts : ∀ part ∈ parts, Legible part) : Legible (sep.intercalate parts) := by
  induction parts with
  | nil => exact nofun
  | cons part parts ih =>
    obtain ⟨hpart, hrest⟩ := List.forall_mem_cons.mp hparts
    cases parts with
    | nil => simpa [List.intercalate] using hpart
    | cons next parts =>
      rw [List.intercalate_cons_cons]
      exact (hpart.append hsep).append (ih hrest)

end Legible

open Number (Decimal writeDouble)

theorem legible_plain {digits : List Char} (h : Legible digits) (exponent : Int) :
    Legible (Decimal.plain digits exponent) := by
  unfold Decimal.plain
  split
  · exact (h.append (.replicate _)).append (by decide)
  · have hpadded : Legible (List.replicate ((-exponent).toNat + 1 - digits.length) '0' ++ digits) :=
      (Legible.replicate _).append h
    exact ((hpadded.of_subset (List.take_subset _ _)).append (by decide)).append
      (hpadded.of_subset (List.drop_subset _ _))

theorem legible_scientific {digits : List Char} (h : Legible digits) (power : Int) :
    Legible (Decimal.scientific digits power) := by
  unfold Decimal.scientific
  have htail : Legible (if digits.length ≤ 1 then [] else '.' :: digits.drop 1) := by
    split
    · exact nofun
    · exact .cons (by decide) (h.of_subset (List.drop_subset _ _))
  exact (((h.of_subset (List.take_subset _ _)).append htail).append (by decide)).append (.int power)

theorem legible_write (style : Decimal.Style) (d : Decimal) : Legible (d.write style) := by
  unfold Decimal.write
  dsimp only
  split
  · exact legible_plain (.nat _) _
  · split
    · exact legible_plain (.nat _) _
    · exact legible_scientific (.nat _) _

theorem legible_scalar (s : Scalar) : Legible s.display.toList := by
  cases s with
  | bool b => cases b <;> decide
  | int i => exact .int i.toInt
  | float x =>
    have hsigned (negative : Bool) {text : String} (h : Legible text.toList) :
        Legible (if negative then "-" ++ text else text).toList := by
      cases negative with
      | true =>
        show Legible ("-" ++ text).toList
        rw [String.toList_append]
        exact .append (by decide) h
      | false => exact h
    show Legible (writeDouble Scalar.floatStyle x).toList
    unfold writeDouble
    dsimp only
    split
    · decide
    · exact hsigned _ (by decide)
    · refine hsigned _ ?_
      rw [String.toList_ofList]
      exact legible_write _ _

-- ---------------------------------------------------------------------------
-- Cells
-- ---------------------------------------------------------------------------

/-- The bytes of a slot that lies within its buffer are a payload. -/
theorem Slot.exists_decode {slot : Slot} {buffer : List UInt8}
    (h : slot.offset + slot.primitive.size ≤ buffer.length) :
    ∃ s, Scalar.decode slot.primitive ((buffer.drop slot.offset).take slot.primitive.size) =
      .ok s := by
  apply Scalar.exists_decode
  rw [List.length_take, List.length_drop]
  omega

theorem Slot.exists_read? {slot : Slot} {buffer : List UInt8}
    (h : slot.offset + slot.primitive.size ≤ buffer.length) :
    ∃ s, slot.read? buffer = some s := by
  obtain ⟨s, hs⟩ := slot.exists_decode h
  exact ⟨s, by rw [read?, hs]; rfl⟩

namespace Heap

/-- The cell of `v` refers to `w`. -/
def RefersTo (h : Heap) (v w : ValueId) : Prop := w ∈ (h.cell v).targets

/-- The layout of storage. -/
structure WellFormed (h : Heap) : Prop where
  scalar : ∀ {v type p bytes}, h.cell v = .scalar type p bytes → bytes.length = p.size
  offsets : ∀ {v type layout buffer}, h.cell v = .packed type layout buffer →
    ∀ i slot, layout[i]? = some slot → slot.offset = Slot.total (layout.take i)
  buffer : ∀ {v type layout buffer}, h.cell v = .packed type layout buffer →
    buffer.length = Slot.total layout
  view : ∀ {v whole i}, h.cell v = .element whole i →
    ∃ type layout buffer, h.cell whole = .packed type layout buffer ∧ i < layout.length
  acyclic : ∀ v, ¬ Relation.TransGen h.RefersTo v v

/-- Reading and writing stay within the bytes of a cell and always find something. -/
structure Accessible (h : Heap) : Prop where
  scalar : ∀ {v type p bytes}, h.cell v = .scalar type p bytes → ∃ s, Scalar.decode p bytes = .ok s
  read : ∀ {v type layout buffer slot}, h.cell v = .packed type layout buffer → slot ∈ layout →
    slot.offset + slot.primitive.size ≤ buffer.length ∧
      ∃ s, Scalar.decode slot.primitive ((buffer.drop slot.offset).take slot.primitive.size) = .ok s
  write : ∀ {v type layout buffer slot}, h.cell v = .packed type layout buffer → slot ∈ layout →
    ∀ s : Scalar, slot.offset + (s.encode slot.primitive).length ≤ buffer.length
  view : ∀ {v whole i}, h.cell v = .element whole i →
    (h.type? v).isSome ∧ (h.primitive? v).isSome ∧ (h.scalar? v).isSome
  display : ∀ v, '?' ∉ (h.display v).toList

variable {h : Heap} {v : ValueId}

theorem refersTo_target {type : TypeId} {w : ValueId} (hcell : h.cell v = .reference type w) :
    h.RefersTo v w := by
  rw [RefersTo, hcell]
  exact List.mem_cons_self

theorem refersTo_whole {w : ValueId} {i : Nat} (hcell : h.cell v = .element w i) :
    h.RefersTo v w := by
  rw [RefersTo, hcell]
  exact List.mem_cons_self

theorem refersTo_element {type : TypeId} {elements : List ValueId} {i : Nat} {w : ValueId}
    (hcell : h.cell v = .sequence type elements) (hw : elements[i]? = some w) :
    h.RefersTo v w := by
  rw [RefersTo, hcell]
  exact List.mem_of_getElem? hw

theorem Ordered.scalar {type : TypeId} {p : Primitive} {bytes : List UInt8} (ho : h.Ordered)
    (hcell : h.cell v = .scalar type p bytes) : bytes.length = p.size := by
  have hstores := ho.stores v
  rwa [hcell] at hstores

theorem Ordered.packed {type : TypeId} {layout : List Slot} {buffer : List UInt8}
    (ho : h.Ordered) (hcell : h.cell v = .packed type layout buffer) :
    Slot.InRow 0 layout buffer := by
  have hstores := ho.stores v
  rwa [hcell] at hstores

/-- A view has a slot within the bytes of a packed sequence. -/
theorem Ordered.view {whole : ValueId} {i : Nat} (ho : h.Ordered)
    (hcell : h.cell v = .element whole i) :
    ∃ type layout buffer, h.cell whole = .packed type layout buffer ∧ i < layout.length := by
  have hstores := ho.stores v
  rw [hcell] at hstores
  change i < (h.cell whole).slots.length at hstores
  cases hwhole : h.cell whole with
  | packed type layout buffer =>
    rw [hwhole] at hstores
    exact ⟨type, layout, buffer, rfl, hstores⟩
  | _ =>
    rw [hwhole] at hstores
    cases hstores

theorem Ordered.slot_fits {type : TypeId} {layout : List Slot} {buffer : List UInt8} {slot : Slot}
    (ho : h.Ordered) (hcell : h.cell v = .packed type layout buffer) (hslot : slot ∈ layout) :
    slot.offset + slot.primitive.size ≤ buffer.length := by
  obtain ⟨i, hi⟩ := List.getElem?_of_mem hslot
  exact (ho.packed hcell).le_length hi

theorem Ordered.exists_slot? {whole : ValueId} {i : Nat} (ho : h.Ordered)
    (hcell : h.cell v = .element whole i) :
    ∃ slot buffer s, h.slot? whole i = some (slot, buffer) ∧ slot.read? buffer = some s := by
  obtain ⟨type, layout, buffer, hwhole, hi⟩ := ho.view hcell
  obtain ⟨s, hs⟩ := Slot.exists_read? (ho.slot_fits hwhole (List.getElem_mem hi))
  refine ⟨layout[i], buffer, s, ?_, hs⟩
  rw [slot?, hwhole]
  simp only [List.getElem?_eq_getElem hi, Option.map_some]

theorem Ordered.exists_scalar? (ho : h.Ordered)
    (hcell : (∃ type p bytes, h.cell v = .scalar type p bytes) ∨
      ∃ whole i, h.cell v = .element whole i) : ∃ s, h.scalar? v = some s := by
  rcases hcell with ⟨type, p, bytes, hcell⟩ | ⟨whole, i, hcell⟩
  · obtain ⟨s, hs⟩ := Scalar.exists_decode (ho.scalar hcell)
    refine ⟨s, ?_⟩
    rw [scalar?, hcell]
    simp only [hs]
    rfl
  · obtain ⟨slot, buffer, s, hslot, hs⟩ := ho.exists_slot? hcell
    refine ⟨s, ?_⟩
    rw [scalar?, hcell]
    simp only [hslot]
    exact hs

theorem Ordered.acyclic (ho : h.Ordered) (v : ValueId) : ¬ Relation.TransGen h.RefersTo v v := by
  have hless {w : ValueId} (hw : Relation.TransGen h.RefersTo v w) : w.index < v.index := by
    induction hw with
    | single hlast => exact ho.earlier v _ hlast
    | tail _ hlast ih => exact Nat.lt_trans (ho.earlier _ _ hlast) ih
  exact fun hcycle => Nat.lt_irrefl _ (hless hcycle)

theorem Ordered.wellFormed (ho : h.Ordered) : h.WellFormed where
  scalar := ho.scalar
  offsets hcell i slot hslot := by rw [(ho.packed hcell).offsets i slot hslot, Nat.zero_add]
  buffer hcell := (ho.packed hcell).length
  view := ho.view
  acyclic := ho.acyclic

theorem legible_bracketed {parts : List String} (hparts : ∀ part ∈ parts, Legible part.toList) :
    Legible (bracketed parts).toList := by
  have hlist : ∀ part ∈ parts.map String.toList, Legible part := List.forall_mem_map.mpr hparts
  simp only [bracketed, String.toList_append, String.toList_intercalate]
  exact ((show Legible "[".toList by decide).append
    (.intercalate (by decide) hlist)).append (by decide)

theorem legible_payload {o : Option Scalar} (ho : ∃ s, o = some s) :
    Legible ((o.map Scalar.display).getD "?").toList := by
  obtain ⟨s, rfl⟩ := ho
  exact legible_scalar s

/-- The walk that shows a value ends before it has gone as deep as its handle. -/
theorem Ordered.legible_displayWithin (ho : h.Ordered) {depth : Nat} (hdepth : v.index < depth) :
    Legible (h.displayWithin depth v).toList := by
  induction depth generalizing v with
  | zero => exact absurd hdepth (Nat.not_lt_zero _)
  | succ depth ih =>
    have hparts : ∀ w ∈ (h.cell v).targets, Legible (h.displayWithin depth w).toList :=
      fun w hw => ih (Nat.lt_of_lt_of_le (ho.earlier v w hw) (Nat.lt_succ_iff.mp hdepth))
    unfold displayWithin
    cases hcell : h.cell v with
    | null =>
      show Legible "null".toList
      decide
    | error =>
      show Legible "<error>".toList
      decide
    | scalar type p bytes => exact legible_payload (ho.exists_scalar? (.inl ⟨_, _, _, hcell⟩))
    | element whole i => exact legible_payload (ho.exists_scalar? (.inr ⟨_, _, hcell⟩))
    | packed type layout buffer =>
      refine legible_bracketed (List.forall_mem_map.mpr fun slot hslot => ?_)
      exact legible_payload (Slot.exists_read? (ho.slot_fits hcell hslot))
    | sequence type elements =>
      rw [hcell] at hparts
      exact legible_bracketed (List.forall_mem_map.mpr hparts)
    | function decl type =>
      show Legible ("fn#" ++ toString decl.index).toList
      rw [String.toList_append]
      exact .append (by decide) (.nat _)
    | reference type target =>
      rw [hcell] at hparts
      show Legible ("@" ++ h.displayWithin depth target).toList
      rw [String.toList_append]
      exact .append (by decide) (hparts target List.mem_cons_self)

theorem Ordered.accessible (ho : h.Ordered) : h.Accessible where
  scalar hcell := Scalar.exists_decode (ho.scalar hcell)
  read hcell hslot :=
    have hfits := ho.slot_fits hcell hslot
    ⟨hfits, Slot.exists_decode hfits⟩
  write hcell hslot s := by
    rw [Scalar.length_encode]
    exact ho.slot_fits hcell hslot
  view hcell := by
    obtain ⟨s, hs⟩ := ho.exists_scalar? (.inr ⟨_, _, hcell⟩)
    obtain ⟨slot, buffer, _, hslot, -⟩ := ho.exists_slot? hcell
    refine ⟨?_, ?_, ?_⟩
    · rw [type?, hcell]
      simp only [hslot, Option.map_some, Option.isSome_some]
    · rw [primitive?, hcell]
      simp only [hslot, Option.map_some, Option.isSome_some]
    · rw [hs, Option.isSome_some]
  display v := ho.legible_displayWithin (Nat.lt_succ_self v.index)

/-- Whatever was asked of it, storage is laid out well: its reads and writes stay within the
bytes of a cell, and every value can be shown. -/
theorem storage_of_built (hb : h.Built) : h.WellFormed ∧ h.Accessible :=
  ⟨hb.ordered.wellFormed, hb.ordered.accessible⟩

/-- A byte and a wide float in one sequence, the float overwritten through a reference to a
view of it, and a copy of both. -/
def viewHeap : Heap := [
  .scalar Primitive.int8.typeId .int8 (.int 7),
  .scalar Primitive.float80.typeId .float80 (.int 2),
  .sequence .unit [⟨0⟩, ⟨1⟩],
  .element ⟨2⟩ 1,
  .reference .unit ⟨3⟩,
  .store ⟨4⟩ ⟨0⟩,
  .sequence .unit [⟨2⟩, ⟨4⟩],
  .retype ⟨5⟩ .error].foldl ValueRequest.answer empty

theorem built_viewHeap : viewHeap.Built := by
  have hint := Built.empty.request (.scalar Primitive.int8.typeId .int8 (.int 7)) nofun
  have hscalars := hint.request (.scalar Primitive.float80.typeId .float80 (.int 2)) nofun
  have hview := (hscalars.request (.sequence .unit [⟨0⟩, ⟨1⟩]) (by decide +kernel)).request
    (.element ⟨2⟩ 1) (by decide +kernel)
  have hstore := (hview.request (.reference .unit ⟨3⟩) (by decide +kernel)).request
    (.store ⟨4⟩ ⟨0⟩) (by decide +kernel)
  exact (hstore.request (.sequence .unit [⟨2⟩, ⟨4⟩]) (by decide +kernel)).request
    (.retype ⟨5⟩ .error) (by decide +kernel)

theorem storage_of_built_view : viewHeap.Built ∧ viewHeap.cell ⟨3⟩ = .element ⟨2⟩ 1 ∧
    viewHeap.WellFormed ∧ viewHeap.Accessible :=
  ⟨built_viewHeap, by decide +kernel, storage_of_built built_viewHeap⟩

end Heap

end BlockLang
