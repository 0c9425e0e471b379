import BlockLang.Value.Heap

/-!
# Storage of values

Cells share bytes through views and references and are written in place. What keeps them
readable is that a cell refers to earlier cells only and that a sequence never changes its
slots (`Heap.Ordered`). Every request to the storage keeps both.
-/

namespace BlockLang

-- ---------------------------------------------------------------------------
-- Bytes
-- ---------------------------------------------------------------------------

namespace Scalar

/-- A scalar is stored in as many bytes as its primitive has. -/
@[simp] theorem length_encode (s : Scalar) (p : Primitive) : (s.encode p).length = p.size := by
  cases s with
  | bool b => cases p <;> rfl
  | int i => cases p <;> rfl
  | float x => cases p <;> rfl

theorem exists_decode {p : Primitive} {bytes : List UInt8} (h : bytes.length = p.size) :
    ∃ s, decode p bytes = .ok s := by
  have hlast : p.size - 1 < bytes.length := by
    rw [h]
    cases p <;> decide
  have hbyte := List.getElem?_eq_getElem hlast
  cases p with
  | bool => exact ⟨_, rfl⟩
  | int8 | int16 | int32 | int64 => exact ⟨_, by simp only [decode, hbyte]; rfl⟩
  | float32 => exact ⟨_, if_neg (Nat.not_lt_of_le (Nat.le_of_eq h.symm))⟩
  | float64 => exact ⟨_, if_neg (Nat.not_lt_of_le (Nat.le_of_eq h.symm))⟩
  | float80 => exact ⟨_, if_neg (Nat.not_lt_of_le (h ▸ by decide))⟩

end Scalar

/-- The bytes that the slots take together. -/
def Slot.total : List Slot → Nat
  | [] => 0
  | slot :: layout => slot.primitive.size + total layout

@[simp] theorem Slot.total_cons (slot : Slot) (layout : List Slot) :
    total (slot :: layout) = slot.primitive.size + total layout := rfl

@[simp] theorem Slot.total_append (front back : List Slot) :
    total (front ++ back) = total front + total back := by
  induction front with
  | nil => simp [total]
  | cons slot front ih => simp [ih, Nat.add_assoc]

/-- Slots side by side from byte `offset` on, and the bytes they lie in. -/
structure Slot.InRow (offset : Nat) (layout : List Slot) (buffer : List UInt8) : Prop where
  offsets : ∀ i slot, layout[i]? = some slot → slot.offset = offset + total (layout.take i)
  length : buffer.length = total layout

theorem Slot.inRow_pack (offset : Nat) (parts : List (TypeId × Primitive × Scalar)) :
    InRow offset (Heap.pack offset parts).1 (Heap.pack offset parts).2 := by
  induction parts generalizing offset with
  | nil => exact ⟨nofun, rfl⟩
  | cons part parts ih =>
    obtain ⟨type, p, s⟩ := part
    obtain ⟨hoffsets, hlength⟩ := ih (offset + (s.encode p).length)
    rw [Scalar.length_encode] at hoffsets hlength
    simp only [Heap.pack, Scalar.length_encode]
    refine ⟨fun i slot hslot => ?_, ?_⟩
    · cases i with
      | zero =>
        obtain rfl := Option.some.inj hslot
        rfl
      | succ i =>
        rw [hoffsets i slot hslot, List.take_succ_cons, total_cons, Nat.add_assoc]
    · rw [List.length_append, Scalar.length_encode, hlength, total_cons]

/-- A slot lies within the bytes of its row. -/
theorem Slot.InRow.le_length {layout : List Slot} {buffer : List UInt8} {i : Nat} {slot : Slot}
    (h : InRow 0 layout buffer) (hslot : layout[i]? = some slot) :
    slot.offset + slot.primitive.size ≤ buffer.length := by
  obtain ⟨hi, rfl⟩ := List.getElem?_eq_some_iff.mp hslot
  have hsplit : layout.take i ++ layout[i] :: layout.drop (i + 1) = layout := by
    rw [← List.drop_eq_getElem_cons hi, List.take_append_drop]
  have htotal : total layout = total (layout.take i) + layout[i].primitive.size +
      total (layout.drop (i + 1)) := by
    rw [Nat.add_assoc, ← total_cons, ← total_append, hsplit]
  rw [h.offsets i _ hslot, h.length, htotal]
  omega

theorem length_overwrite {buffer bytes : List UInt8} {offset : Nat}
    (h : offset + bytes.length ≤ buffer.length) :
    (overwrite buffer offset bytes).length = buffer.length := by
  simp only [overwrite, List.length_append, List.length_take, List.length_drop]
  omega

-- ---------------------------------------------------------------------------
-- Cells
-- ---------------------------------------------------------------------------

namespace Cell

/-- The cells that a cell refers to. -/
def targets : Cell → List ValueId
  | sequence _ elements => elements
  | reference _ target => [target]
  | element whole _ => [whole]
  | _ => []

/-- The slots of a packed sequence. -/
def slots : Cell → List Slot
  | packed _ layout _ => layout
  | _ => []

@[simp] theorem targets_withType (type : TypeId) (c : Cell) :
    (c.withType type).targets = c.targets := by
  cases c <;> rfl

@[simp] theorem slots_withType (type : TypeId) (c : Cell) :
    (c.withType type).slots = c.slots := by
  cases c <;> rfl

end Cell

namespace Heap

/-- The handle was handed out. -/
def Has (h : Heap) (v : ValueId) : Prop := v.index < h.cells.size

instance (h : Heap) (v : ValueId) : Decidable (h.Has v) := inferInstanceAs (Decidable (_ < _))

/-- The bytes of the cell are those its primitives take, and a view has a slot. -/
def Stores (h : Heap) : Cell → Prop
  | .scalar _ p bytes => bytes.length = p.size
  | .packed _ layout buffer => Slot.InRow 0 layout buffer
  | .element sequence index => index < (h.cell sequence).slots.length
  | _ => True

/-- Every cell is stored as it should be and refers to earlier cells only. -/
structure Ordered (h : Heap) : Prop where
  stores : ∀ v, h.Stores (h.cell v)
  earlier : ∀ v, ∀ w ∈ (h.cell v).targets, w.index < v.index

/-- Every cell of `h` is the same in `k`. -/
structure Grows (h k : Heap) : Prop where
  size : h.cells.size ≤ k.cells.size
  cell : ∀ v, h.Has v → k.cell v = h.cell v

variable {h k : Heap} {v : ValueId} {c : Cell}

theorem Grows.refl (h : Heap) : h.Grows h := ⟨Nat.le_refl _, fun _ _ => rfl⟩

theorem Grows.has (hg : h.Grows k) (hv : h.Has v) : k.Has v := Nat.lt_of_lt_of_le hv hg.size

theorem Grows.trans {l : Heap} (hk : h.Grows k) (hl : k.Grows l) : h.Grows l :=
  ⟨Nat.le_trans hk.size hl.size, fun v hv => (hl.cell v (hk.has hv)).trans (hk.cell v hv)⟩

theorem cell_of_not_has (hv : ¬ h.Has v) : h.cell v = .error := by
  rw [cell, Array.getElem?_eq_none (Nat.le_of_not_lt hv), Option.getD_none]

theorem has_of_cell_ne (hne : h.cell v ≠ .error) : h.Has v :=
  Nat.lt_of_not_le fun hle => hne (cell_of_not_has (Nat.not_lt_of_le hle))

theorem Ordered.has_target (ho : h.Ordered) {v w : ValueId} (hw : w ∈ (h.cell v).targets) :
    h.Has w := by
  have hv : h.Has v := has_of_cell_ne fun hcell => by
    rw [hcell] at hw
    cases hw
  exact Nat.lt_trans (ho.earlier v w hw) hv

theorem cell_alloc (h : Heap) (c : Cell) (v : ValueId) :
    (h.alloc c).2.cell v = if v.index = h.cells.size then c else h.cell v := by
  simp only [cell, alloc, Array.getElem?_push]
  split <;> rfl

theorem cell_alloc_self (h : Heap) (c : Cell) : (h.alloc c).2.cell (h.alloc c).1 = c := by
  rw [cell_alloc]
  exact if_pos rfl

theorem has_alloc (h : Heap) (c : Cell) : (h.alloc c).2.Has (h.alloc c).1 := by
  simp [Has, alloc]

theorem grows_alloc (h : Heap) (c : Cell) : h.Grows (h.alloc c).2 := by
  refine ⟨?_, fun v hv => ?_⟩
  · simp [alloc]
  · rw [cell_alloc, if_neg (Nat.ne_of_lt hv)]

/-- A view keeps its slot as long as sequences keep theirs. -/
theorem Stores.congr (hs : h.Stores c)
    (hslots : ∀ v ∈ c.targets, (k.cell v).slots = (h.cell v).slots) : k.Stores c := by
  cases c with
  | element sequence index =>
    have hsame : (k.cell sequence).slots = (h.cell sequence).slots :=
      hslots sequence List.mem_cons_self
    rw [Stores, hsame]
    exact hs
  | _ => exact hs

theorem Ordered.alloc (ho : h.Ordered) (hc : h.Stores c) (ht : ∀ w ∈ c.targets, h.Has w) :
    (h.alloc c).2.Ordered := by
  have hslots {d : Cell} (hd : ∀ w ∈ d.targets, h.Has w) :
      ∀ w ∈ d.targets, ((h.alloc c).2.cell w).slots = (h.cell w).slots := fun w hw => by
    rw [(grows_alloc h c).cell w (hd w hw)]
  constructor
  · intro v
    rw [cell_alloc]
    split
    · exact hc.congr (hslots ht)
    · exact (ho.stores v).congr (hslots fun w => ho.has_target)
  · intro v w hw
    rw [cell_alloc] at hw
    split at hw
    · next hv => exact hv ▸ ht w hw
    · exact ho.earlier v w hw

theorem cell_set_cases (h : Heap) (v w : ValueId) (c : Cell) :
    (h.set v c).cell w = h.cell w ∨ w = v ∧ (h.set v c).cell w = c := by
  simp only [cell, set, Array.getElem?_setIfInBounds]
  split
  · next hv =>
    obtain rfl : v = w := congrArg ValueId.mk hv
    split
    · exact .inr ⟨rfl, rfl⟩
    · next hsize =>
      left
      rw [Array.getElem?_eq_none (Nat.le_of_not_lt hsize)]
  · exact .inl rfl

/-- A cell may be overwritten by one that has its slots and refers to the same cells. -/
theorem Ordered.set (ho : h.Ordered) (hc : h.Stores c) (ht : c.targets = (h.cell v).targets)
    (hslots : c.slots = (h.cell v).slots) : (h.set v c).Ordered := by
  have hkeeps (w : ValueId) : ((h.set v c).cell w).slots = (h.cell w).slots := by
    rcases cell_set_cases h v w c with hcell | ⟨rfl, hcell⟩
    · rw [hcell]
    · rw [hcell, hslots]
  constructor
  · intro w
    rcases cell_set_cases h v w c with hcell | ⟨rfl, hcell⟩
    · rw [hcell]
      exact (ho.stores w).congr fun w _ => hkeeps w
    · rw [hcell]
      exact hc.congr fun w _ => hkeeps w
  · intro w x hx
    rcases cell_set_cases h v w c with hcell | ⟨rfl, hcell⟩
    · rw [hcell] at hx
      exact ho.earlier w x hx
    · rw [hcell, ht] at hx
      exact ho.earlier w x hx

theorem stores_withType (type : TypeId) (hc : h.Stores c) : h.Stores (c.withType type) := by
  cases c <;> exact hc

-- ---------------------------------------------------------------------------
-- Requests
-- ---------------------------------------------------------------------------

/-- A value was made, and the storage behind it only grew. -/
structure Gives (h : Heap) (r : ValueId × Heap) : Prop where
  ordered : r.2.Ordered
  grows : h.Grows r.2
  has : r.2.Has r.1

theorem Ordered.gives_alloc (ho : h.Ordered) (hc : h.Stores c) (ht : ∀ w ∈ c.targets, h.Has w) :
    h.Gives (h.alloc c) :=
  ⟨ho.alloc hc ht, grows_alloc h c, has_alloc h c⟩

theorem Ordered.gives_ofScalar (ho : h.Ordered) (type : TypeId) (p : Primitive) (s : Scalar) :
    h.Gives (h.ofScalar type p s) :=
  ho.gives_alloc (s.length_encode p) nofun

theorem Ordered.gives_sequence (ho : h.Ordered) (type : TypeId) {elements : List ValueId}
    (he : ∀ v ∈ elements, h.Has v) : h.Gives (h.sequence type elements) := by
  unfold sequence
  dsimp only
  split
  · exact ho.gives_alloc (Slot.inRow_pack 0 _) nofun
  · exact ho.gives_alloc trivial he

theorem Ordered.gives_element? (ho : h.Ordered) {i : Nat} {r : ValueId × Heap}
    (hr : h.element? v i = some r) : h.Gives r := by
  unfold element? at hr
  split at hr
  · next hcell =>
    split at hr
    · next hi =>
      obtain rfl := Option.some.inj hr
      refine ho.gives_alloc ?_ fun w hw => ?_
      · rw [Stores, hcell]
        exact hi
      · rw [List.mem_singleton.mp hw]
        exact has_of_cell_ne fun herror => by rw [herror] at hcell; cases hcell
    · cases hr
  · next elements hcell =>
    obtain ⟨w, hw, rfl⟩ := Option.map_eq_some_iff.mp hr
    have htarget : w ∈ (h.cell v).targets := by
      rw [hcell]
      exact List.mem_of_getElem? hw
    exact ⟨ho, .refl h, ho.has_target htarget⟩
  · cases hr

theorem Ordered.gives_deref? (ho : h.Ordered) {r : ValueId × Heap} (hr : h.deref? v = some r) :
    h.Gives r := by
  unfold deref? at hr
  split at hr
  · next target hcell =>
    obtain rfl := Option.some.inj hr
    have htarget : target ∈ (h.cell v).targets := by
      rw [hcell]
      exact List.mem_cons_self
    exact ⟨ho, .refl h, ho.has_target htarget⟩
  · simp only [Option.bind_eq_bind, Option.bind_eq_some_iff] at hr
    obtain ⟨type, -, p, -, s, -, hr⟩ := hr
    obtain rfl := Option.some.inj hr
    exact ho.gives_ofScalar type p s
  · cases hr

theorem gives_mapHeap {f : Heap → ValueId → ValueId × Heap}
    (hf : ∀ (h : Heap) (v : ValueId), h.Ordered → h.Has v → h.Gives (f h v))
    {h : Heap} (ho : h.Ordered) {vs : List ValueId} (hvs : ∀ v ∈ vs, h.Has v) :
    (mapHeap f h vs).2.Ordered ∧ h.Grows (mapHeap f h vs).2 ∧
      ∀ w ∈ (mapHeap f h vs).1, (mapHeap f h vs).2.Has w := by
  induction vs generalizing h with
  | nil => exact ⟨ho, .refl h, nofun⟩
  | cons v vs ih =>
    have hfirst := hf h v ho (hvs v List.mem_cons_self)
    obtain ⟨hordered, hgrows, hhas⟩ := ih hfirst.ordered fun w hw =>
      hfirst.grows.has (hvs w (List.mem_cons_of_mem v hw))
    refine ⟨hordered, hfirst.grows.trans hgrows, fun w hw => ?_⟩
    rcases List.mem_cons.mp hw with rfl | hw
    · exact hgrows.has hfirst.has
    · exact hhas w hw

theorem Gives.alloc {r : ValueId × Heap} (hr : h.Gives r) (hc : r.2.Stores c)
    (ht : ∀ w ∈ c.targets, r.2.Has w) : h.Gives (r.2.alloc c) :=
  ⟨hr.ordered.alloc hc ht, hr.grows.trans (grows_alloc r.2 c), has_alloc r.2 c⟩

/-- A copy has the slots of what it copies. -/
theorem Ordered.gives_duplicateWithin (ho : h.Ordered) (hv : h.Has v) (depth : Nat) :
    h.Gives (duplicateWithin depth h v) ∧
      ((duplicateWithin depth h v).2.cell (duplicateWithin depth h v).1).slots =
        (h.cell v).slots := by
  induction depth generalizing h v with
  | zero => exact ⟨⟨ho, .refl h, hv⟩, rfl⟩
  | succ depth ih =>
    have hcopy : ∀ (h : Heap) (v : ValueId), h.Ordered → h.Has v →
        h.Gives (duplicateWithin depth h v) := fun h v ho hv => (ih ho hv).1
    have hstores := ho.stores v
    have htargets : ∀ w ∈ (h.cell v).targets, h.Has w := fun w => ho.has_target
    cases hcell : h.cell v with
    | sequence type elements =>
      rw [hcell] at htargets
      obtain ⟨hordered, hgrows, hhas⟩ := gives_mapHeap hcopy ho htargets
      simp only [duplicateWithin, hcell]
      refine ⟨⟨hordered.alloc trivial hhas, hgrows.trans (grows_alloc _ _), has_alloc _ _⟩, ?_⟩
      rw [cell_alloc_self]
      rfl
    | reference type target =>
      rw [hcell] at htargets
      have hgives := hcopy h target ho (htargets target List.mem_cons_self)
      simp only [duplicateWithin, hcell]
      refine ⟨hgives.alloc trivial ?_, ?_⟩
      · exact List.forall_mem_singleton.mpr hgives.has
      · rw [cell_alloc_self]
        rfl
    | element whole i =>
      rw [hcell] at htargets hstores
      obtain ⟨hgives, hslots⟩ := ih ho (htargets whole List.mem_cons_self)
      simp only [duplicateWithin, hcell]
      refine ⟨hgives.alloc ?_ ?_, ?_⟩
      · rw [Stores, hslots]
        exact hstores
      · exact List.forall_mem_singleton.mpr hgives.has
      · rw [cell_alloc_self]
        rfl
    | _ =>
      rw [hcell] at htargets hstores
      simp only [duplicateWithin, hcell]
      refine ⟨ho.gives_alloc hstores htargets, ?_⟩
      rw [cell_alloc_self]

theorem Ordered.retyped (ho : h.Ordered) (hv : h.Has v) (type : TypeId) :
    (h.retyped v type).2.Ordered := by
  obtain ⟨hgives, -⟩ := ho.gives_duplicateWithin hv (v.index + 1)
  exact hgives.ordered.set (stores_withType type (hgives.ordered.stores _))
    (Cell.targets_withType type _) (Cell.slots_withType type _)

theorem Ordered.storeWithin (ho : h.Ordered) (s : Scalar) (depth : Nat) (v : ValueId) :
    (storeWithin s depth h v).2.Ordered := by
  induction depth generalizing v with
  | zero => exact ho
  | succ depth ih =>
    unfold Heap.storeWithin
    split
    · exact ih _
    · next type p bytes hcell =>
      refine ho.set (s.length_encode p) ?_ ?_
      · rw [hcell]
        rfl
      · rw [hcell]
        rfl
    · next whole i hcell =>
      split
      · next type layout buffer hwhole =>
        split
        · next slot hslot =>
          have hrow : Slot.InRow 0 layout buffer := by
            have hstores := ho.stores whole
            rw [hwhole] at hstores
            exact hstores
          have hfits : slot.offset + (s.encode slot.primitive).length ≤ buffer.length := by
            rw [Scalar.length_encode]
            exact hrow.le_length hslot
          refine ho.set ⟨hrow.offsets, (length_overwrite hfits).trans hrow.length⟩ ?_ ?_
          · rw [hwhole]
            rfl
          · rw [hwhole]
            rfl
        · exact ho
      · exact ho
    · exact ho

theorem Ordered.store (ho : h.Ordered) (v source : ValueId) : (h.store v source).2.Ordered := by
  unfold Heap.store
  split
  · exact ho
  · exact ho.storeWithin _ (v.index + 1) v

theorem Ordered.gives_fold (ho : h.Ordered) {b : Builtin} {type : TypeId} {args : List ValueId}
    {r : ValueId × Heap} (hr : h.fold b type args = .value r) : h.Gives r := by
  unfold fold at hr
  split at hr
  · cases hr
  · split at hr
    · cases hr
      exact ho.gives_ofScalar type b.result _
    · cases hr
    · cases hr

end Heap

/-- What the storage can be asked for. -/
inductive ValueRequest where
  | null
  | error
  | scalar (type : TypeId) (primitive : Primitive) (payload : Scalar)
  | function (decl : DeclId) (type : TypeId)
  | reference (type : TypeId) (target : ValueId)
  | sequence (type : TypeId) (elements : List ValueId)
  | element (v : ValueId) (index : Nat)
  | deref (v : ValueId)
  | duplicate (v : ValueId)
  | retype (v : ValueId) (type : TypeId)
  | cast (v : ValueId) (type : TypeId) (primitive : Primitive)
  | fold (b : Builtin) (type : TypeId) (args : List ValueId)
  | store (v source : ValueId)

namespace ValueRequest

/-- The storage after a request; a request without an answer leaves it as it was. -/
def answer (h : Heap) : ValueRequest → Heap
  | null => (h.alloc .null).2
  | error => (h.alloc .error).2
  | scalar type primitive payload => (h.ofScalar type primitive payload).2
  | function decl type => (h.alloc (.function decl type)).2
  | reference type target => (h.alloc (.reference type target)).2
  | sequence type elements => (h.sequence type elements).2
  | element v index => ((h.element? v index).map (·.2)).getD h
  | deref v => ((h.deref? v).map (·.2)).getD h
  | duplicate v => (h.duplicate v).2
  | retype v type => (h.retyped v type).2
  | cast v type primitive => ((h.cast? v type primitive).map (·.2)).getD h
  | fold b type args =>
    match h.fold b type args with
    | .value result => result.2
    | _ => h
  | store v source => (h.store v source).2

/-- The handles a request is made with. -/
def handles : ValueRequest → List ValueId
  | reference _ target => [target]
  | sequence _ elements => elements
  | element v _ | deref v | duplicate v | retype v _ | cast v _ _ => [v]
  | fold _ _ args => args
  | store v source => [v, source]
  | _ => []

end ValueRequest

namespace Heap

/-- Filled by requests with handles that were handed out before. -/
inductive Built : Heap → Prop
  | empty : Built empty
  | request {h : Heap} (hb : Built h) (r : ValueRequest) (hr : ∀ v ∈ r.handles, h.Has v) :
    Built (r.answer h)

variable {h : Heap}

theorem ordered_empty : empty.Ordered := ⟨fun _ => trivial, fun _ => nofun⟩

theorem Ordered.getD_map {o : Option (ValueId × Heap)} (ho : h.Ordered)
    (hr : ∀ r, o = some r → h.Gives r) : ((o.map (·.2)).getD h).Ordered := by
  cases o with
  | none => exact ho
  | some r => exact (hr r rfl).ordered

theorem Ordered.answer (ho : h.Ordered) (r : ValueRequest) (hr : ∀ v ∈ r.handles, h.Has v) :
    (r.answer h).Ordered := by
  cases r with
  | null => exact ho.alloc trivial nofun
  | error => exact ho.alloc trivial nofun
  | scalar type primitive payload => exact (ho.gives_ofScalar type primitive payload).ordered
  | function decl type => exact ho.alloc trivial nofun
  | reference type target => exact ho.alloc trivial hr
  | sequence type elements => exact (ho.gives_sequence type hr).ordered
  | element v index => exact ho.getD_map fun r => ho.gives_element?
  | deref v => exact ho.getD_map fun r => ho.gives_deref?
  | duplicate v =>
    exact (ho.gives_duplicateWithin (hr v List.mem_cons_self) (v.index + 1)).1.ordered
  | retype v type => exact ho.retyped (hr v List.mem_cons_self) type
  | cast v type primitive =>
    refine ho.getD_map fun r hcast => ?_
    obtain ⟨s, -, rfl⟩ := Option.map_eq_some_iff.mp hcast
    exact ho.gives_ofScalar type primitive (s.convert primitive)
  | fold b type args =>
    unfold ValueRequest.answer
    dsimp only
    split
    · next hvalue => exact (ho.gives_fold hvalue).ordered
    · exact ho
  | store v source => exact ho.store v source

theorem Built.ordered (hb : h.Built) : h.Ordered := by
  induction hb with
  | empty => exact ordered_empty
  | request _ r hr ih => exact ih.answer r hr

end Heap

end BlockLang
