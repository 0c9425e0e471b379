import BlockLang.Proofs.Value.Reading

/-!
# Storing a payload

A payload lies in a cell of its own or in a slot of a packed sequence. A store follows
references to such a place and writes its bytes. Every other payload, all types and all
layouts stay, and a store that finds no payload or no place leaves the storage alone.
-/

namespace BlockLang

-- ---------------------------------------------------------------------------
-- Bytes of a slot
-- ---------------------------------------------------------------------------

namespace Slot

/-- The bytes of one element of a packed sequence. -/
def bytes (slot : Slot) (buffer : List UInt8) : List UInt8 :=
  (buffer.drop slot.offset).take slot.primitive.size

theorem read?_eq (slot : Slot) (buffer : List UInt8) :
    slot.read? buffer = (Scalar.decode slot.primitive (slot.bytes buffer)).toOption := rfl

variable {layout : List Slot} {buffer written : List UInt8} {a b : Slot} {i j : Nat}

theorem total_take_succ (ha : layout[i]? = some a) :
    total (layout.take (i + 1)) = total (layout.take i) + a.primitive.size := by
  rw [List.take_add_one, ha, total_append]
  rfl

theorem total_take_le (layout : List Slot) (h : i ≤ j) :
    total (layout.take i) ≤ total (layout.take j) := by
  have hsplit : layout.take i ++ (layout.take j).drop i = layout.take j := by
    conv_rhs => rw [← List.take_append_drop i (layout.take j), List.take_take, Nat.min_eq_left h]
  rw [← hsplit, total_append]
  exact Nat.le_add_right _ _

/-- A slot ends before the next one begins. -/
theorem InRow.le_offset (h : InRow 0 layout buffer) (ha : layout[i]? = some a)
    (hb : layout[j]? = some b) (hij : i < j) : a.offset + a.primitive.size ≤ b.offset := by
  rw [h.offsets i a ha, h.offsets j b hb, Nat.add_assoc, ← total_take_succ ha]
  exact Nat.add_le_add_left (total_take_le layout hij) 0

theorem bytes_overwrite (hfits : a.offset ≤ buffer.length)
    (hlength : written.length = a.primitive.size) :
    a.bytes (overwrite buffer a.offset written) = written := by
  have hfront : (buffer.take a.offset).length = a.offset := by
    rw [List.length_take, Nat.min_eq_left hfits]
  rw [bytes, overwrite, List.append_assoc, List.drop_left' hfront, List.take_left' hlength]

/-- Bytes before or behind what is overwritten stay. -/
theorem bytes_overwrite_of_apart (hfits : a.offset + written.length ≤ buffer.length)
    (hapart : b.offset + b.primitive.size ≤ a.offset ∨ a.offset + written.length ≤ b.offset) :
    b.bytes (overwrite buffer a.offset written) = b.bytes buffer := by
  apply List.ext_getElem?
  intro n
  simp only [bytes, overwrite, List.getElem?_take, List.getElem?_drop, List.getElem?_append,
    List.length_append, List.length_take]
  split
  · rcases hapart with hbefore | hbehind
    · rw [if_pos (by omega), if_pos (by omega), if_pos (by omega)]
    · rw [if_neg (by omega)]
      congr 1
      omega
  · rfl

end Slot

/-- Where the bytes of a payload lie. -/
inductive Place where
  /-- In a cell of their own. -/
  | cell (v : ValueId)
  /-- In one slot of a packed sequence. -/
  | slot (whole : ValueId) (index : Nat)
deriving DecidableEq

/-- The cell that has the bytes. -/
def Place.holder : Place → ValueId
  | cell v => v
  | slot whole _ => whole

/-- A cell without the bytes of its payloads. -/
def Cell.shape : Cell → Cell
  | scalar type primitive _ => scalar type primitive []
  | packed type layout _ => packed type layout []
  | cell => cell

/-- The place that the cell of a value reads: its own bytes, or those it is a view of. -/
def Cell.place? (v : ValueId) : Cell → Option Place
  | scalar .. => some (.cell v)
  | element whole index => some (.slot whole index)
  | _ => none

@[simp] theorem Cell.targets_shape (c : Cell) : c.shape.targets = c.targets := by
  cases c <;> rfl

@[simp] theorem Cell.place?_shape (v : ValueId) (c : Cell) : c.shape.place? v = c.place? v := by
  cases c <;> rfl

namespace Heap

/-- The place that a scalar or a view reads. -/
def place? (h : Heap) (v : ValueId) : Option Place := (h.cell v).place? v

/-- The primitive that is stored at a place, and its bytes. -/
def bytes? (h : Heap) : Place → Option (Primitive × List UInt8)
  | .cell v =>
    match h.cell v with
    | .scalar _ p bytes => some (p, bytes)
    | _ => none
  | .slot whole index =>
    (h.slot? whole index).map fun (slot, buffer) => (slot.primitive, slot.bytes buffer)

/-- Following references from a value ends at another one. -/
inductive LeadsTo (h : Heap) : ValueId → ValueId → Prop
  | here (hstop : ∀ type target, h.cell v ≠ .reference type target) : LeadsTo h v v
  | step (hcell : h.cell v = .reference type target) (hrest : LeadsTo h target w) : LeadsTo h v w

/-- The heap with the bytes of a payload at one place. -/
def write (h : Heap) (s : Scalar) : Place → Heap
  | .cell v =>
    match h.cell v with
    | .scalar type p _ => h.set v (.scalar type p (s.encode p))
    | _ => h
  | .slot whole index =>
    match h.cell whole with
    | .packed type layout buffer =>
      match layout[index]? with
      | some slot =>
        h.set whole (.packed type layout (overwrite buffer slot.offset (s.encode slot.primitive)))
      | none => h
    | _ => h

/-- The second heap is the first with the payload `s` at one place, and nothing else is
different: neither another payload nor a type or a layout. -/
structure Rewrites (h : Heap) (place : Place) (s : Scalar) (k : Heap) : Prop where
  size : k.cells.size = h.cells.size
  shape : ∀ v, (k.cell v).shape = (h.cell v).shape
  written : ∃ p bytes, h.bytes? place = some (p, bytes) ∧ k.bytes? place = some (p, s.encode p)
  others : ∀ other, other ≠ place → k.bytes? other = h.bytes? other

variable {h k : Heap} {v w : ValueId} {c : Cell} {s : Scalar} {place : Place}

-- ---------------------------------------------------------------------------
-- Reading a place
-- ---------------------------------------------------------------------------

/-- A payload is what the bytes at the place of the value stand for. -/
theorem scalar?_eq (h : Heap) (v : ValueId) : h.scalar? v = (h.place? v).bind fun place =>
    (h.bytes? place).bind fun (p, bytes) => (Scalar.decode p bytes).toOption := by
  unfold scalar? place? Cell.place?
  cases hcell : h.cell v with
  | scalar type p bytes => simp only [bytes?, hcell, Option.bind_some]
  | element whole i =>
    cases hslot : h.slot? whole i with
    | none => simp only [bytes?, hslot, Option.bind_some, Option.bind_eq_bind, Option.map_none,
        Option.bind_none]
    | some part => simp only [bytes?, hslot, Option.bind_some, Option.bind_eq_bind,
        Option.map_some, Slot.read?_eq]
  | _ => rfl

theorem primitive?_eq (h : Heap) (v : ValueId) :
    h.primitive? v = (h.place? v).bind fun place => (h.bytes? place).map (·.1) := by
  unfold primitive? place? Cell.place?
  cases hcell : h.cell v with
  | scalar type p bytes => simp only [bytes?, hcell, Option.bind_some, Option.map_some]
  | element whole i =>
    simp only [bytes?, Option.bind_some, Option.map_map]
    rfl
  | _ => rfl

/-- A place has as many bytes as its primitive takes. -/
theorem Ordered.length_bytes? (ho : h.Ordered) {p : Primitive} {bytes : List UInt8}
    (hb : h.bytes? place = some (p, bytes)) : bytes.length = p.size := by
  cases place with
  | cell v =>
    unfold Heap.bytes? at hb
    dsimp only at hb
    split at hb
    · next hcell =>
      cases hb
      exact ho.scalar hcell
    · cases hb
  | slot whole i =>
    obtain ⟨⟨slot, buffer⟩, hslot, hpart⟩ := Option.map_eq_some_iff.mp hb
    cases hpart
    unfold slot? at hslot
    split at hslot
    · next hcell =>
      obtain ⟨_, hi, hparts⟩ := Option.map_eq_some_iff.mp hslot
      cases hparts
      have hfits := (ho.packed hcell).le_length hi
      rw [Slot.bytes, List.length_take, List.length_drop]
      omega
    · cases hslot

theorem place?_congr (hshape : (k.cell v).shape = (h.cell v).shape) :
    k.place? v = h.place? v := by
  rw [place?, ← Cell.place?_shape, hshape, Cell.place?_shape, place?]

/-- What a write leaves of the payloads that are read elsewhere. -/
theorem Rewrites.scalar? (hr : h.Rewrites place s k) (hv : h.place? v ≠ some place) :
    k.scalar? v = h.scalar? v := by
  rw [scalar?_eq, scalar?_eq, place?_congr (hr.shape v)]
  cases hplace : h.place? v with
  | none => rfl
  | some other =>
    rw [Option.bind_some, Option.bind_some, hr.others other fun heq => hv (heq ▸ hplace)]

/-- Values that read the place that was written have the payload, as its primitive
stores it. -/
theorem Rewrites.reads (hr : h.Rewrites place s k) :
    ∃ p, ∀ v, h.place? v = some place →
      h.primitive? v = some p ∧ k.scalar? v = (Scalar.decode p (s.encode p)).toOption := by
  obtain ⟨p, bytes, hbefore, hafter⟩ := hr.written
  refine ⟨p, fun v hv => ⟨?_, ?_⟩⟩
  · rw [primitive?_eq, hv, Option.bind_some, hbefore, Option.map_some]
  · rw [scalar?_eq, place?_congr (hr.shape v), hv, Option.bind_some, hafter, Option.bind_some]

-- ---------------------------------------------------------------------------
-- Writing a place
-- ---------------------------------------------------------------------------

theorem cell_set_self (hv : h.Has v) : (h.set v c).cell v = c := by
  simp only [cell, set, Array.getElem?_setIfInBounds_self_of_lt hv, Option.getD_some]

theorem cell_set_of_ne (hne : w ≠ v) : (h.set v c).cell w = h.cell w :=
  (cell_set_cases h v w c).resolve_right fun hw => hne hw.1

@[simp] theorem size_set (h : Heap) (v : ValueId) (c : Cell) :
    (h.set v c).cells.size = h.cells.size := by
  simp [set]

theorem slot?_set_of_ne {whole : ValueId} (hne : whole ≠ v) (i : Nat) :
    (h.set v c).slot? whole i = h.slot? whole i := by
  unfold slot?
  rw [cell_set_of_ne hne]

theorem shape_set (hshape : c.shape = (h.cell v).shape) (w : ValueId) :
    ((h.set v c).cell w).shape = (h.cell w).shape := by
  rcases cell_set_cases h v w c with hcell | ⟨rfl, hcell⟩
  · rw [hcell]
  · rw [hcell, hshape]

theorem bytes?_set_of_ne {other : Place} (hne : other.holder ≠ v) :
    (h.set v c).bytes? other = h.bytes? other := by
  cases other with
  | cell w =>
    have hcell : (h.set v c).cell w = h.cell w := cell_set_of_ne hne
    simp only [bytes?, hcell]
  | slot whole i =>
    have hslot : (h.set v c).slot? whole i = h.slot? whole i := slot?_set_of_ne hne i
    simp only [bytes?, hslot]

theorem rewrites_cell {type : TypeId} {p : Primitive} {bytes : List UInt8}
    (hcell : h.cell v = .scalar type p bytes) (s : Scalar) :
    h.Rewrites (.cell v) s (h.set v (.scalar type p (s.encode p))) := by
  have hv : h.Has v := has_of_cell_ne (by rw [hcell]; nofun)
  refine ⟨size_set .., shape_set (by rw [hcell]; rfl), ⟨p, bytes, ?_, ?_⟩, fun other hne => ?_⟩
  · simp only [bytes?, hcell]
  · simp only [bytes?, cell_set_self hv]
  · by_cases hholder : other.holder = v
    · -- a slot in a cell that is a scalar reads nothing, before and after
      cases other with
      | cell w => exact absurd (congrArg Place.cell hholder) hne
      | slot whole i =>
        obtain rfl : whole = v := hholder
        simp only [bytes?, slot?, cell_set_self hv, hcell]
    · exact bytes?_set_of_ne hholder

theorem slot?_packed {type : TypeId} {layout : List Slot} {buffer : List UInt8}
    (hcell : h.cell v = .packed type layout buffer) (i : Nat) :
    h.slot? v i = layout[i]?.map (·, buffer) := by
  rw [slot?, hcell]

theorem Ordered.rewrites_slot (ho : h.Ordered) {type : TypeId} {layout : List Slot}
    {buffer : List UInt8} {i : Nat} {slot : Slot} (hcell : h.cell v = .packed type layout buffer)
    (hslot : layout[i]? = some slot) (s : Scalar) :
    h.Rewrites (.slot v i) s
      (h.set v (.packed type layout (overwrite buffer slot.offset (s.encode slot.primitive)))) := by
  have hv : h.Has v := has_of_cell_ne (by rw [hcell]; nofun)
  have hrow : Slot.InRow 0 layout buffer := ho.packed hcell
  have hlength : (s.encode slot.primitive).length = slot.primitive.size := s.length_encode _
  have hfits : slot.offset + (s.encode slot.primitive).length ≤ buffer.length := by
    rw [hlength]
    exact hrow.le_length hslot
  refine ⟨size_set .., shape_set (by rw [hcell]; rfl),
    ⟨slot.primitive, slot.bytes buffer, ?_, ?_⟩, fun other hne => ?_⟩
  · simp only [bytes?, slot?_packed hcell, hslot, Option.map_some]
  · simp only [bytes?, slot?_packed (cell_set_self hv), hslot, Option.map_some]
    rw [Slot.bytes_overwrite (Nat.le_trans (Nat.le_add_right _ _) hfits) hlength]
  · by_cases hholder : other.holder = v
    · cases other with
      | cell w =>
        obtain rfl : w = v := hholder
        simp only [bytes?, cell_set_self hv, hcell]
      | slot whole j =>
        obtain rfl : whole = v := hholder
        have hij : j ≠ i := fun heq => hne (heq ▸ rfl)
        simp only [bytes?, slot?_packed (cell_set_self hv), slot?_packed hcell]
        cases hother : layout[j]? with
        | none => rfl
        | some b =>
          have hapart : b.offset + b.primitive.size ≤ slot.offset ∨
              slot.offset + (s.encode slot.primitive).length ≤ b.offset := by
            rw [hlength]
            rcases Nat.lt_or_gt_of_ne hij with hji | hij
            · exact .inl (hrow.le_offset hother hslot hji)
            · exact .inr (hrow.le_offset hslot hother hij)
          simp only [Option.map_some, Slot.bytes_overwrite_of_apart hfits hapart]
    · exact bytes?_set_of_ne hholder

/-- A place that a value reads can be written. -/
theorem Ordered.rewrites_write (ho : h.Ordered) (hplace : h.place? v = some place) (s : Scalar) :
    h.Rewrites place s (h.write s place) := by
  unfold place? Cell.place? at hplace
  split at hplace
  · next type p bytes hcell =>
    obtain rfl := Option.some.inj hplace
    simp only [write, hcell]
    exact rewrites_cell hcell s
  · next whole i hcell =>
    obtain rfl := Option.some.inj hplace
    obtain ⟨type, layout, buffer, hwhole, hi⟩ := ho.view hcell
    simp only [write, hwhole, List.getElem?_eq_getElem hi]
    exact ho.rewrites_slot hwhole (List.getElem?_eq_getElem hi) s
  · cases hplace

-- ---------------------------------------------------------------------------
-- Stores
-- ---------------------------------------------------------------------------

/-- Every chain of references ends. -/
theorem Ordered.exists_leadsTo (ho : h.Ordered) (v : ValueId) : ∃ w, h.LeadsTo v w := by
  induction hindex : v.index using Nat.strongRecOn generalizing v with
  | ind n ih =>
    cases hcell : h.cell v with
    | reference type target =>
      have hearlier : target.index < v.index := ho.earlier v target (refersTo_target hcell)
      obtain ⟨w, hw⟩ := ih target.index (hindex ▸ hearlier) target rfl
      exact ⟨w, .step hcell hw⟩
    | _ => exact ⟨v, .here fun type target h => by rw [hcell] at h; cases h⟩

/-- A store goes as far as the references do, and writes the place at their end. -/
theorem Ordered.storeWithin_eq (ho : h.Ordered) (hl : h.LeadsTo v w) {depth : Nat}
    (hdepth : v.index < depth) : Heap.storeWithin s depth h v =
      ((h.place? w).isSome, ((h.place? w).map (h.write s)).getD h) := by
  induction hl generalizing depth with
  | @here v hstop =>
    cases depth with
    | zero => exact absurd hdepth (Nat.not_lt_zero _)
    | succ depth =>
      cases hcell : h.cell v with
      | reference type target => exact absurd hcell (hstop type target)
      | scalar type p bytes => simp [Heap.storeWithin, place?, Cell.place?, write, hcell]
      | element whole i =>
        obtain ⟨type, layout, buffer, hwhole, hi⟩ := ho.view hcell
        simp [Heap.storeWithin, place?, Cell.place?, write, hcell, hwhole,
          List.getElem?_eq_getElem hi]
      | _ => simp [Heap.storeWithin, place?, Cell.place?, hcell]
  | @step v type target w hcell _ ih =>
    cases depth with
    | zero => exact absurd hdepth (Nat.not_lt_zero _)
    | succ depth =>
      have hearlier : target.index < v.index := ho.earlier v target (refersTo_target hcell)
      simp only [Heap.storeWithin, hcell]
      exact ih (Nat.lt_of_lt_of_le hearlier (Nat.lt_succ_iff.mp hdepth))

theorem Ordered.store_eq (ho : h.Ordered) (hl : h.LeadsTo v w) {source : ValueId}
    (hs : h.scalar? source = some s) :
    h.store v source = ((h.place? w).isSome, ((h.place? w).map (h.write s)).getD h) := by
  rw [Heap.store, hs]
  exact ho.storeWithin_eq hl (Nat.lt_succ_self v.index)

theorem store_of_no_payload {source : ValueId} (hs : h.scalar? source = none) :
    h.store v source = (false, h) := by
  rw [store, hs]

/-- A store finds a payload in the source, and through references from its destination a
place to write, or it does nothing. Then whatever reads that place, the source included, has
the payload as the primitive of the place stores it, and all else in the storage stays. -/
theorem store_writes_one_place (hb : h.Built) (v source : ValueId) :
    ((h.store v source).1 = true ↔
      (∃ s, h.scalar? source = some s) ∧ ∃ w place, h.LeadsTo v w ∧ h.place? w = some place) ∧
    ((h.store v source).1 = false → (h.store v source).2 = h) ∧
    ∀ s w place, h.scalar? source = some s → h.LeadsTo v w → h.place? w = some place →
      h.Rewrites place s (h.store v source).2 ∧
      (∃ p x, Scalar.decode p (s.encode p) = .ok x ∧ ∀ u, h.place? u = some place →
        h.primitive? u = some p ∧ (h.store v source).2.scalar? u = some x) ∧
      ∀ u, h.place? u ≠ some place → (h.store v source).2.scalar? u = h.scalar? u := by
  have ho := hb.ordered
  refine ⟨?_, ?_, ?_⟩
  · obtain ⟨w, hw⟩ := ho.exists_leadsTo v
    constructor
    · intro htrue
      cases hs : h.scalar? source with
      | none =>
        rw [store_of_no_payload hs] at htrue
        cases htrue
      | some s =>
        rw [ho.store_eq hw hs] at htrue
        obtain ⟨place, hplace⟩ := Option.isSome_iff_exists.mp htrue
        exact ⟨⟨s, rfl⟩, w, place, hw, hplace⟩
    · rintro ⟨⟨s, hs⟩, w, place, hw, hplace⟩
      rw [ho.store_eq hw hs, hplace]
      rfl
  · intro hfalse
    cases hs : h.scalar? source with
    | none => rw [store_of_no_payload hs]
    | some s =>
      obtain ⟨w, hw⟩ := ho.exists_leadsTo v
      rw [ho.store_eq hw hs] at hfalse ⊢
      rw [Option.isSome_eq_false_iff, Option.isNone_iff_eq_none] at hfalse
      rw [hfalse]
      rfl
  · intro s w place hs hw hplace
    have hwrite : (h.store v source).2 = h.write s place := by
      rw [ho.store_eq hw hs, hplace]
      rfl
    rw [hwrite]
    have hr := ho.rewrites_write hplace s
    obtain ⟨p, hreads⟩ := hr.reads
    obtain ⟨x, hx⟩ := Scalar.exists_decode (s.length_encode p)
    refine ⟨hr, ⟨p, x, hx, fun u hu => ⟨(hreads u hu).1, ?_⟩⟩, fun u => hr.scalar?⟩
    rw [(hreads u hu).2, hx]
    rfl

/-- A byte stored through a reference to a view of a float: the byte next to the float in the
sequence stays. -/
theorem store_writes_one_place_view :
    viewHeap.Built ∧ (viewHeap.store ⟨4⟩ ⟨0⟩).1 = true ∧
      viewHeap.Rewrites (.slot ⟨2⟩ 1) (.int 7) (viewHeap.store ⟨4⟩ ⟨0⟩).2 ∧
      (viewHeap.store ⟨4⟩ ⟨0⟩).2.bytes? (.slot ⟨2⟩ 0) = viewHeap.bytes? (.slot ⟨2⟩ 0) := by
  obtain ⟨hstores, -, hwrites⟩ := store_writes_one_place built_viewHeap ⟨4⟩ ⟨0⟩
  have hsource : viewHeap.scalar? ⟨0⟩ = some (.int 7) := by decide +kernel
  have hview : viewHeap.cell ⟨3⟩ = .element ⟨2⟩ 1 := by decide +kernel
  have hplace : viewHeap.place? ⟨3⟩ = some (.slot ⟨2⟩ 1) := by rw [place?, hview]; rfl
  have hreference : viewHeap.cell ⟨4⟩ = .reference .unit ⟨3⟩ := by decide +kernel
  have hends : viewHeap.LeadsTo ⟨4⟩ ⟨3⟩ :=
    .step hreference (.here fun type target => by rw [hview]; nofun)
  obtain ⟨hrewrites, -⟩ := hwrites _ _ _ hsource hends hplace
  exact ⟨built_viewHeap, hstores.mpr ⟨⟨_, hsource⟩, _, _, hends, hplace⟩, hrewrites,
    hrewrites.others _ (by decide)⟩

end Heap

end BlockLang
