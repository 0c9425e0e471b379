import BlockLang.Proofs.Value.Reading

/-!
# Values that read the same

Two values mirror each other if they are built alike from cells that hold the same. Then
no request tells them apart, neither about the values themselves nor about the elements
and the targets that can be asked for through them.
-/

namespace BlockLang

namespace Heap

/-- `w` can be got from `v` through elements, references and views. -/
def Reaches (h : Heap) : ValueId → ValueId → Prop := Relation.ReflTransGen h.RefersTo

/-- Cells that hold the same, down to the last ones. -/
inductive Mirrors (h k : Heap) : ValueId → ValueId → Prop
  | leaf (left : h.cell v = c) (right : k.cell w = c) (hleaf : c.targets = []) : Mirrors h k v w
  | sequence (left : h.cell v = .sequence type xs) (right : k.cell w = .sequence type ys)
    (hlength : ys.length = xs.length)
    (each : ∀ (i : Nat) x y, xs[i]? = some x → ys[i]? = some y → Mirrors h k x y) :
    Mirrors h k v w
  | reference (left : h.cell v = .reference type x) (right : k.cell w = .reference type y)
    (target : Mirrors h k x y) : Mirrors h k v w
  | element (left : h.cell v = .element x i) (right : k.cell w = .element y i)
    (whole : Mirrors h k x y) : Mirrors h k v w

/-- What can be asked about a value by itself has the same answers. -/
structure ShowsAs (h : Heap) (v : ValueId) (k : Heap) (w : ValueId) : Prop where
  kind : (h.cell v).kindName = (k.cell w).kindName
  type : h.type? v = k.type? w
  primitive : h.primitive? v = k.primitive? w
  scalar : h.scalar? v = k.scalar? w
  function : h.function? v = k.function? w
  length : h.length? v = k.length? w

/-- No request tells the values apart, and none tells what is got through them apart. -/
inductive Alike : Heap → ValueId → Heap → ValueId → Prop
  | intro (shown : h.ShowsAs v k w)
    (element : ∀ i,
      Option.Rel (fun x y => Alike x.2 x.1 y.2 y.1) (h.element? v i) (k.element? w i))
    (behind : Option.Rel (fun x y => Alike x.2 x.1 y.2 y.1) (h.deref? v) (k.deref? w)) :
    Alike h v k w

variable {h k l : Heap} {v w x y : ValueId} {c : Cell}

-- ---------------------------------------------------------------------------
-- Reaching
-- ---------------------------------------------------------------------------

theorem Ordered.has_of_reaches (ho : h.Ordered) (hv : h.Has v) (hr : h.Reaches v w) :
    h.Has w := by
  induction hr with
  | refl => exact hv
  | tail _ hlast _ => exact ho.has_target hlast

/-- New cells cannot be got from old ones. -/
theorem Grows.reaches (hg : h.Grows k) (ho : h.Ordered) (hv : h.Has v) (hr : k.Reaches v w) :
    h.Reaches v w := by
  induction hr with
  | refl => exact .refl
  | tail _ hlast ih =>
    rw [RefersTo, hg.cell _ (ho.has_of_reaches hv ih)] at hlast
    exact ih.tail hlast

-- ---------------------------------------------------------------------------
-- Mirrors
-- ---------------------------------------------------------------------------

/-- Only the cells that can be reached matter. -/
theorem Mirrors.congr {h' k' : Heap} (hm : Mirrors h k v w)
    (hleft : ∀ x, h.Reaches v x → h'.cell x = h.cell x)
    (hright : ∀ y, k.Reaches w y → k'.cell y = k.cell y) : Mirrors h' k' v w := by
  have hbelow {h h' : Heap} {v x : ValueId} (hsame : ∀ x, h.Reaches v x → h'.cell x = h.cell x)
      (hx : h.RefersTo v x) : ∀ y, h.Reaches x y → h'.cell y = h.cell y :=
    fun y hy => hsame y (.head hx hy)
  induction hm with
  | leaf left right hleaf =>
    exact .leaf ((hleft _ .refl).trans left) ((hright _ .refl).trans right) hleaf
  | sequence left right hlength _ ih =>
    exact .sequence ((hleft _ .refl).trans left) ((hright _ .refl).trans right) hlength
      fun i x y hx hy => ih i x y hx hy (hbelow hleft (refersTo_element left hx))
        (hbelow hright (refersTo_element right hy))
  | reference left right _ ih =>
    exact .reference ((hleft _ .refl).trans left) ((hright _ .refl).trans right)
      (ih (hbelow hleft (refersTo_target left)) (hbelow hright (refersTo_target right)))
  | element left right _ ih =>
    exact .element ((hleft _ .refl).trans left) ((hright _ .refl).trans right)
      (ih (hbelow hleft (refersTo_whole left)) (hbelow hright (refersTo_whole right)))

theorem Ordered.mirrors_self (ho : h.Ordered) (v : ValueId) : Mirrors h h v v := by
  -- a value mirrors itself if its parts do, and they have smaller handles
  induction hindex : v.index using Nat.strongRecOn generalizing v with
  | ind n ih =>
    have hbelow : ∀ w, h.RefersTo v w → Mirrors h h w w := fun w hw =>
      ih w.index (hindex ▸ ho.earlier v w hw) w rfl
    cases hcell : h.cell v with
    | sequence type elements =>
      refine .sequence hcell hcell rfl fun i x y hx hy => ?_
      obtain rfl := Option.some.inj (hx.symm.trans hy)
      exact hbelow x (refersTo_element hcell hx)
    | reference type target => exact .reference hcell hcell (hbelow target (refersTo_target hcell))
    | element whole i => exact .element hcell hcell (hbelow whole (refersTo_whole hcell))
    | _ => exact .leaf hcell hcell rfl

/-- More cells in the second heap change nothing. -/
theorem Mirrors.grow (hm : Mirrors h k v w) (ho : k.Ordered) (hw : k.Has w) (hg : k.Grows l) :
    Mirrors h l v w :=
  hm.congr (fun _ _ => rfl) fun y hy => hg.cell y (ho.has_of_reaches hw hy)

/-- What mirrors a value in a later heap mirrors it in the one that had it before. -/
theorem Mirrors.ungrow (hm : Mirrors k l v w) (ho : h.Ordered) (hv : h.Has v) (hg : h.Grows k) :
    Mirrors h l v w :=
  hm.congr (fun x hx => (hg.cell x (ho.has_of_reaches hv (hg.reaches ho hv hx))).symm)
    fun _ _ => rfl

theorem Mirrors.slot?_eq (hm : Mirrors h k v w) (i : Nat) : h.slot? v i = k.slot? w i := by
  unfold slot?
  cases hm with
  | leaf left right => rw [left, right]
  | sequence left right => rw [left, right]
  | reference left right => rw [left, right]
  | element left right => rw [left, right]

-- ---------------------------------------------------------------------------
-- Reading mirrored values
-- ---------------------------------------------------------------------------

/-- A value whose cell has no parts answers from the cell alone. -/
theorem showsAs_of_cell_eq (hv : h.cell v = c) (hw : k.cell w = c) (hleaf : c.targets = []) :
    h.ShowsAs v k w := by
  cases c with
  | reference | element => cases hleaf
  | _ => constructor <;> simp only [type?, primitive?, scalar?, function?, length?, hv, hw]

/-- Neither elements nor anything behind it can be got from such a value. -/
theorem nothing_behind (hv : h.cell v = c) (hleaf : c.targets = []) (hslots : c.slots = []) :
    (∀ i, h.element? v i = none) ∧ h.deref? v = none := by
  unfold element? deref?
  rw [hv]
  cases c with
  | reference | element => cases hleaf
  | packed type layout buffer =>
    obtain rfl : layout = [] := hslots
    exact ⟨fun i => if_neg (Nat.not_lt_zero i), rfl⟩
  | sequence type elements =>
    obtain rfl : elements = [] := hleaf
    exact ⟨fun _ => rfl, rfl⟩
  | _ => exact ⟨fun _ => rfl, rfl⟩

/-- Values through which nothing can be got read alike if their cells are the same. -/
theorem alike_of_single (hv : h.cell v = c) (hw : k.cell w = c) (hleaf : c.targets = [])
    (hslots : c.slots = []) : Alike h v k w := by
  obtain ⟨helement, hbehind⟩ := nothing_behind hv hleaf hslots
  obtain ⟨helement', hbehind'⟩ := nothing_behind hw hleaf hslots
  refine .intro (showsAs_of_cell_eq hv hw hleaf) (fun i => ?_) ?_
  · rw [helement, helement']
    exact .none
  · rw [hbehind, hbehind']
    exact .none

/-- Views read alike if their slots do. -/
theorem alike_of_view {i : Nat} (hv : h.cell v = .element x i) (hw : k.cell w = .element y i)
    (hslot : h.slot? x i = k.slot? y i) : Alike h v k w := by
  have hshown : h.ShowsAs v k w := by
    constructor <;> simp only [type?, primitive?, scalar?, function?, length?, hv, hw, hslot]
    rfl
  refine .intro hshown (fun i => ?_) ?_
  · simp only [element?, hv, hw]
    exact .none
  · simp only [deref?, hv, hw, hshown.type, hshown.primitive, hshown.scalar]
    cases k.type? w with
    | none => exact .none
    | some type =>
      cases k.primitive? w with
      | none => exact .none
      | some p =>
        cases k.scalar? w with
        | none => exact .none
        | some s =>
          -- a copy of the payload in a cell of its own
          exact .some (alike_of_single (cell_alloc_self ..) (cell_alloc_self ..) rfl rfl)

/-- A packed sequence hands out views of its own slots. -/
theorem alike_of_packed {type : TypeId} {layout : List Slot} {buffer : List UInt8}
    (hv : h.cell v = .packed type layout buffer) (hw : k.cell w = .packed type layout buffer) :
    Alike h v k w := by
  refine .intro (showsAs_of_cell_eq hv hw rfl) (fun i => ?_) ?_
  · simp only [element?, hv, hw]
    split
    · have hkept {h : Heap} {v : ValueId} (hv : h.cell v = .packed type layout buffer) (c : Cell) :
          (h.alloc c).2.cell v = .packed type layout buffer := by
        rw [(grows_alloc h c).cell v (has_of_cell_ne (by rw [hv]; nofun)), hv]
      refine .some (alike_of_view (cell_alloc_self ..) (cell_alloc_self ..) ?_)
      simp only [slot?, hkept hv, hkept hw]
    · exact .none
  · simp only [deref?, hv, hw]
    exact .none

/-- Views of packed sequences apart, what is got through mirrored values are parts of theirs,
which mirror each other. -/
theorem Mirrors.alike (hm : Mirrors h k v w) : Alike h v k w := by
  induction hm with
  | @leaf v c w left right hleaf =>
    cases c with
    | packed type layout buffer => exact alike_of_packed left right
    | _ => exact alike_of_single left right hleaf rfl
  | @sequence v type xs w ys left right hlength _ ih =>
    refine .intro ?_ (fun i => ?_) ?_
    · constructor <;>
        simp only [Cell.kindName, type?, primitive?, scalar?, function?, length?, left, right,
          hlength]
    · simp only [element?, left, right]
      cases hx : xs[i]? with
      | none =>
        have hy : ys[i]? = none := by
          rw [List.getElem?_eq_none_iff, hlength]
          exact List.getElem?_eq_none_iff.mp hx
        rw [hy]
        exact .none
      | some x =>
        have hi : i < ys.length := hlength ▸ (List.getElem?_eq_some_iff.mp hx).1
        rw [List.getElem?_eq_getElem hi]
        exact .some (ih i x ys[i] hx (List.getElem?_eq_getElem hi))
    · simp only [deref?, left, right]
      exact .none
  | reference left right _ ih =>
    refine .intro ?_ (fun i => ?_) ?_
    · constructor <;>
        simp only [Cell.kindName, type?, primitive?, scalar?, function?, length?, left, right]
    · simp only [element?, left, right]
      exact .none
    · simp only [deref?, left, right]
      exact .some ih
  | element left right whole => exact alike_of_view left right (whole.slot?_eq _)

end Heap

end BlockLang
