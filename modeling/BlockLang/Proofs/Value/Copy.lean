import BlockLang.Proofs.Value.Alike
import BlockLang.Proofs.Value.Store

/-!
# Copies share nothing

A copy mirrors its original and is made of new cells only. Two values that share no cell
stay apart: whatever is stored through one of them, the other reads as before.
-/

namespace BlockLang

namespace Heap

/-- A copy of `v` was made of new cells. -/
structure Copies (h : Heap) (v : ValueId) (r : ValueId × Heap) : Prop extends Gives h r where
  mirrors : Mirrors h r.2 v r.1
  fresh : ∀ w, r.2.Reaches r.1 w → ¬ h.Has w

/-- `d` can be got from `v`, or is a view of a sequence that can. -/
def Owns (h : Heap) (v d : ValueId) : Prop :=
  h.Reaches v d ∨ ∃ whole i, h.cell d = .element whole i ∧ h.Reaches v whole

/-- Requests are made one after another, and every store among them goes to what `v` owns
at that time. -/
inductive StoresTo (v : ValueId) (h : Heap) : Heap → Prop
  | refl : StoresTo v h h
  | request (hrun : StoresTo v h k) (r : ValueRequest) (hr : ∀ u ∈ r.handles, k.Has u)
    (hstore : ∀ d source, r = .store d source → k.Owns v d) : StoresTo v h (r.answer k)

/-- The cells stay that cannot be got from `v`; what the others refer to stays too. -/
structure Spares (h : Heap) (v : ValueId) (k : Heap) : Prop where
  size : h.cells.size ≤ k.cells.size
  targets : ∀ w, h.Has w → (k.cell w).targets = (h.cell w).targets
  cell : ∀ w, h.Has w → ¬ h.Reaches v w → k.cell w = h.cell w

variable {h k l : Heap} {v w d : ValueId} {c : Cell} {s : Scalar} {place : Place}

-- ---------------------------------------------------------------------------
-- Making a copy
-- ---------------------------------------------------------------------------

/-- A new cell over new parts. -/
theorem fresh_alloc (ho : k.Ordered) (hg : h.Grows k)
    (ht : ∀ x ∈ c.targets, k.Has x ∧ ∀ w, k.Reaches x w → ¬ h.Has w)
    (hr : (k.alloc c).2.Reaches (k.alloc c).1 w) : ¬ h.Has w := by
  rcases Relation.ReflTransGen.cases_head hr with rfl | ⟨x, hx, hr⟩
  · exact fun hw => Nat.lt_irrefl _ (hg.has hw)
  · rw [RefersTo, cell_alloc_self] at hx
    obtain ⟨hhas, hfresh⟩ := ht x hx
    exact hfresh w ((grows_alloc k c).reaches ho hhas hr)

theorem copies_mapHeap {f : Heap → ValueId → ValueId × Heap} {P : ValueId → Prop}
    (hf : ∀ (h : Heap) (v : ValueId), h.Ordered → h.Has v → P v → h.Copies v (f h v))
    {h : Heap} (ho : h.Ordered) {vs : List ValueId} (hvs : ∀ v ∈ vs, h.Has v ∧ P v) :
    (mapHeap f h vs).2.Ordered ∧ h.Grows (mapHeap f h vs).2 ∧
      (mapHeap f h vs).1.length = vs.length ∧
      ∀ (i : Nat) x y, vs[i]? = some x → (mapHeap f h vs).1[i]? = some y →
        Mirrors h (mapHeap f h vs).2 x y ∧ (mapHeap f h vs).2.Has y ∧
          ∀ w, (mapHeap f h vs).2.Reaches y w → ¬ h.Has w := by
  induction vs generalizing h with
  | nil => exact ⟨ho, .refl h, rfl, nofun⟩
  | cons v vs ih =>
    obtain ⟨hv, hP⟩ := hvs v List.mem_cons_self
    have hfirst := hf h v ho hv hP
    have hrest : ∀ w ∈ vs, (f h v).2.Has w ∧ P w := fun w hw =>
      have hw := hvs w (List.mem_cons_of_mem v hw)
      ⟨hfirst.grows.has hw.1, hw.2⟩
    obtain ⟨hordered, hgrows, hlength, heach⟩ := ih hfirst.ordered hrest
    refine ⟨hordered, hfirst.grows.trans hgrows, congrArg (· + 1) hlength, fun i x y hx hy => ?_⟩
    cases i with
    | zero =>
      obtain rfl := Option.some.inj hx
      obtain rfl := Option.some.inj hy
      refine ⟨hfirst.mirrors.grow hfirst.ordered hfirst.has hgrows, hgrows.has hfirst.has,
        fun w hw => ?_⟩
      exact hfirst.fresh w (hgrows.reaches hfirst.ordered hfirst.has hw)
    | succ i =>
      obtain ⟨hmirrors, hhas, hfresh⟩ := heach i x y hx hy
      have hx := (hvs x (List.mem_of_getElem? hx)).1
      exact ⟨hmirrors.ungrow ho hx hfirst.grows, hhas,
        fun w hw h => hfresh w hw (hfirst.grows.has h)⟩

/-- A new cell over the copy of a part, where the old cell was over the part. -/
theorem Copies.over {part : ValueId} {r : ValueId × Heap} (hpart : h.Copies part r)
    (hgives : h.Gives (r.2.alloc c)) (ht : c.targets = [r.1])
    (hmirrors : Mirrors h (r.2.alloc c).2 part r.1 → Mirrors h (r.2.alloc c).2 v (r.2.alloc c).1) :
    h.Copies v (r.2.alloc c) := by
  refine ⟨hgives, ?_, fun w => fresh_alloc hpart.ordered hpart.grows ?_⟩
  · exact hmirrors (hpart.mirrors.grow hpart.ordered hpart.has (grows_alloc ..))
  · rw [ht]
    exact List.forall_mem_singleton.mpr ⟨hpart.has, hpart.fresh⟩

/-- The walk that copies a value ends before it has gone as deep as its handle. -/
theorem Ordered.copies_duplicateWithin (ho : h.Ordered) (hv : h.Has v) {depth : Nat}
    (hdepth : v.index < depth) : h.Copies v (duplicateWithin depth h v) := by
  induction depth generalizing h v with
  | zero => exact absurd hdepth (Nat.not_lt_zero _)
  | succ depth ih =>
    have hgives := (ho.gives_duplicateWithin hv (depth + 1)).1
    have hparts : ∀ w ∈ (h.cell v).targets, h.Has w ∧ w.index < depth := fun w hw =>
      ⟨ho.has_target hw, Nat.lt_of_lt_of_le (ho.earlier v w hw) (Nat.lt_succ_iff.mp hdepth)⟩
    cases hcell : h.cell v with
    | sequence type elements =>
      rw [hcell] at hparts
      obtain ⟨hordered, hgrows, hlength, heach⟩ :=
        copies_mapHeap (fun h v ho hv hdepth => ih ho hv hdepth) ho hparts
      simp only [duplicateWithin, hcell] at hgives ⊢
      refine ⟨hgives, .sequence hcell (cell_alloc_self ..) hlength fun i x y hx hy => ?_,
        fun w => fresh_alloc hordered hgrows fun y hy => ?_⟩
      · obtain ⟨hmirrors, hhas, -⟩ := heach i x y hx hy
        exact hmirrors.grow hordered hhas (grows_alloc ..)
      · obtain ⟨i, hi⟩ := List.getElem?_of_mem hy
        have hx : i < elements.length := hlength ▸ (List.getElem?_eq_some_iff.mp hi).1
        exact (heach i _ y (List.getElem?_eq_getElem hx) hi).2
    | reference type target =>
      obtain ⟨hhas, hdepth⟩ := hparts target (refersTo_target hcell)
      simp only [duplicateWithin, hcell] at hgives ⊢
      exact (ih ho hhas hdepth).over hgives rfl (.reference hcell (cell_alloc_self ..))
    | element whole i =>
      obtain ⟨hhas, hdepth⟩ := hparts whole (refersTo_whole hcell)
      simp only [duplicateWithin, hcell] at hgives ⊢
      exact (ih ho hhas hdepth).over hgives rfl (.element hcell (cell_alloc_self ..))
    | _ =>
      simp only [duplicateWithin, hcell] at hgives ⊢
      exact ⟨hgives, .leaf hcell (cell_alloc_self ..) rfl,
        fun w => fresh_alloc ho (.refl h) fun x hx => absurd hx List.not_mem_nil⟩

theorem Ordered.copies_duplicate (ho : h.Ordered) (hv : h.Has v) :
    h.Copies v (h.duplicate v) :=
  ho.copies_duplicateWithin hv (Nat.lt_succ_self v.index)

-- ---------------------------------------------------------------------------
-- What requests change
-- ---------------------------------------------------------------------------

theorem Spares.refl (h : Heap) (v : ValueId) : h.Spares v h :=
  ⟨Nat.le_refl _, fun _ _ => rfl, fun _ _ _ => rfl⟩

theorem Spares.reaches (hs : h.Spares v k) (ho : h.Ordered) (hd : h.Has d)
    (hr : k.Reaches d w) : h.Reaches d w := by
  induction hr with
  | refl => exact .refl
  | tail _ hlast ih =>
    rw [RefersTo, hs.targets _ (ho.has_of_reaches hd ih)] at hlast
    exact ih.tail hlast

theorem Spares.trans (hk : h.Spares v k) (hl : k.Spares v l) (ho : h.Ordered) (hv : h.Has v) :
    h.Spares v l := by
  have hhas {w : ValueId} (hw : h.Has w) : k.Has w := Nat.lt_of_lt_of_le hw hk.size
  refine ⟨Nat.le_trans hk.size hl.size, fun w hw => ?_, fun w hw hapart => ?_⟩
  · rw [hl.targets w (hhas hw), hk.targets w hw]
  · rw [hl.cell w (hhas hw) fun hr => hapart (hk.reaches ho hv hr), hk.cell w hw hapart]

theorem Grows.spares (hg : h.Grows k) (v : ValueId) : h.Spares v k :=
  ⟨hg.size, fun w hw => by rw [hg.cell w hw], fun w hw _ => hg.cell w hw⟩

theorem LeadsTo.reaches (hl : h.LeadsTo v w) : h.Reaches v w := by
  induction hl with
  | here => exact .refl
  | step hcell _ ih => exact .head (refersTo_target hcell) ih

/-- The bytes that a value reads are its own or those of a cell it refers to. -/
theorem reaches_holder (hplace : h.place? v = some place) : h.Reaches v place.holder := by
  unfold place? Cell.place? at hplace
  split at hplace
  · obtain rfl := Option.some.inj hplace
    exact .refl
  · next whole i hcell =>
    obtain rfl := Option.some.inj hplace
    exact .single (refersTo_whole hcell)
  · cases hplace

/-- The place behind something owned belongs to the owner. -/
theorem Owns.reaches_holder (hd : h.Owns v d) (hl : h.LeadsTo d w)
    (hplace : h.place? w = some place) : h.Reaches v place.holder := by
  rcases hd with hreaches | ⟨whole, i, hcell, hwhole⟩
  · exact (hreaches.trans hl.reaches).trans (Heap.reaches_holder hplace)
  · cases hl with
    | here =>
      rw [place?, hcell] at hplace
      obtain rfl := Option.some.inj hplace
      exact hwhole
    | step href => rw [hcell] at href; cases href

theorem cell_write_of_ne (hne : w ≠ place.holder) : (h.write s place).cell w = h.cell w := by
  unfold write
  split
  · split
    · exact cell_set_of_ne hne
    · rfl
  · split
    · split
      · exact cell_set_of_ne hne
      · rfl
    · rfl

theorem Ordered.spares_store (ho : h.Ordered) (hd : h.Owns v d) (source : ValueId) :
    h.Spares v (h.store d source).2 := by
  cases hs : h.scalar? source with
  | none =>
    rw [store_of_no_payload hs]
    exact .refl h v
  | some s =>
    obtain ⟨w, hw⟩ := ho.exists_leadsTo d
    rw [ho.store_eq hw hs]
    cases hplace : h.place? w with
    | none => exact .refl h v
    | some place =>
      have hr := ho.rewrites_write hplace s
      refine ⟨Nat.le_of_eq hr.size.symm, fun u _ => ?_, fun u _ hapart => ?_⟩
      · show ((h.write s place).cell u).targets = (h.cell u).targets
        rw [← Cell.targets_shape, hr.shape u, Cell.targets_shape]
      · exact cell_write_of_ne fun heq => hapart (heq ▸ hd.reaches_holder hw hplace)

theorem Ordered.grows_retyped (ho : h.Ordered) (hv : h.Has v) (type : TypeId) :
    h.Grows (h.retyped v type).2 := by
  have hcopy := ho.copies_duplicate hv
  refine ⟨?_, fun w hw => ?_⟩
  · simpa only [Heap.retyped, size_set] using hcopy.grows.size
  · have hne : w ≠ (h.duplicate v).1 := fun heq => hcopy.fresh w (heq ▸ .refl) hw
    simp only [Heap.retyped, cell_set_of_ne hne]
    exact hcopy.grows.cell w hw

theorem grows_getD {o : Option (ValueId × Heap)} (hr : ∀ r, o = some r → h.Gives r) :
    h.Grows ((o.map (·.2)).getD h) := by
  cases o with
  | none => exact .refl h
  | some r => exact (hr r rfl).grows

/-- Only a store changes cells that are there. -/
theorem Ordered.grows_answer (ho : h.Ordered) {r : ValueRequest} (hr : ∀ v ∈ r.handles, h.Has v)
    (hstore : ∀ d source, r ≠ .store d source) : h.Grows (r.answer h) := by
  cases r with
  | null | error | function | reference => exact grows_alloc ..
  | scalar type primitive payload => exact (ho.gives_ofScalar type primitive payload).grows
  | sequence type elements => exact (ho.gives_sequence type hr).grows
  | element v index => exact grows_getD fun r => ho.gives_element?
  | deref v => exact grows_getD fun r => ho.gives_deref?
  | duplicate v => exact (ho.copies_duplicate (hr v List.mem_cons_self)).grows
  | retype v type => exact ho.grows_retyped (hr v List.mem_cons_self) type
  | cast v type primitive =>
    refine grows_getD fun r hcast => ?_
    obtain ⟨s, -, rfl⟩ := Option.map_eq_some_iff.mp hcast
    exact ho.gives_ofScalar type primitive (s.convert primitive)
  | fold b type args =>
    unfold ValueRequest.answer
    dsimp only
    split
    · next hvalue => exact (ho.gives_fold hvalue).grows
    · exact .refl h
  | store d source => exact absurd rfl (hstore d source)

theorem Ordered.spares_answer (ho : h.Ordered) {r : ValueRequest}
    (hr : ∀ u ∈ r.handles, h.Has u) (hstore : ∀ d source, r = .store d source → h.Owns v d) :
    h.Spares v (r.answer h) := by
  cases r with
  | store d source => exact ho.spares_store (hstore d source rfl) source
  | _ => exact (ho.grows_answer hr nofun).spares v

theorem StoresTo.spares (hrun : StoresTo v k l) (ho : k.Ordered) (hv : k.Has v) :
    l.Ordered ∧ k.Spares v l := by
  induction hrun with
  | refl => exact ⟨ho, .refl k v⟩
  | request _ r hr hstore ih =>
    obtain ⟨hordered, hspares⟩ := ih
    exact ⟨hordered.answer r hr, hspares.trans (hordered.spares_answer hr hstore) ho hv⟩

-- ---------------------------------------------------------------------------
-- Apart
-- ---------------------------------------------------------------------------

/-- Of what a value owns only the value itself may be out of reach. -/
theorem Owns.reaches (hd : h.Owns v d) (hr : h.Reaches d w) : w = d ∨ h.Reaches v w := by
  rcases hd with hreaches | ⟨whole, i, hcell, hwhole⟩
  · exact .inr (hreaches.trans hr)
  · rcases Relation.ReflTransGen.cases_head hr with rfl | ⟨x, hx, hr⟩
    · exact .inl rfl
    · rw [RefersTo, hcell] at hx
      obtain rfl := List.mem_singleton.mp hx
      exact .inr (hwhole.trans hr)

/-- Values that share no cell stay apart: what is stored through `v` does not show in
anything that `w` owns. -/
theorem StoresTo.unchanged (hrun : StoresTo v k l) (ho : k.Ordered) (hv : k.Has v) (hw : k.Has w)
    (hapart : ∀ x, k.Reaches v x → ¬ k.Reaches w x) (hd : k.Owns w d) :
    l.cell d = k.cell d ∧ Alike k d l d := by
  obtain ⟨-, hspares⟩ := hrun.spares ho hv
  have hhas : k.Has d := by
    rcases hd with hreaches | ⟨whole, i, hcell, -⟩
    · exact ho.has_of_reaches hw hreaches
    · exact has_of_cell_ne (by rw [hcell]; nofun)
  have hdistant : ¬ k.Reaches v d := fun hreach => by
    rcases hd with hreaches | ⟨whole, i, hcell, hwhole⟩
    · exact hapart d hreach hreaches
    · exact hapart whole (hreach.tail (refersTo_whole hcell)) hwhole
  have hcells : ∀ x, k.Reaches d x → l.cell x = k.cell x := fun x hx => by
    refine hspares.cell x (ho.has_of_reaches hhas hx) ?_
    rcases hd.reaches hx with rfl | hx
    · exact hdistant
    · exact fun hreach => hapart x hreach hx
  exact ⟨hcells d .refl, ((ho.mirrors_self d).congr (fun _ _ => rfl) hcells).alike⟩

/-- A copy reads like its original and consists of new cells. From then on the two are
independent: whatever is stored through one of them or through views of its parts, all that
can be got through the other reads as before. -/
theorem independent_of_duplicate (hb : h.Built) (hv : h.Has v) :
    ∃ c k, h.duplicate v = (c, k) ∧ h.Grows k ∧ Mirrors k k v c ∧ Alike k v k c ∧
      (∀ w, k.Reaches c w → k.Has w ∧ ¬ h.Has w) ∧
      (∀ l, StoresTo c k l → ∀ d, k.Owns v d → l.cell d = k.cell d ∧ Alike k d l d) ∧
      ∀ l, StoresTo v k l → ∀ d, k.Owns c d → l.cell d = k.cell d ∧ Alike k d l d := by
  have ho := hb.ordered
  rcases hdup : h.duplicate v with ⟨c, k⟩
  have hcopy := ho.copies_duplicate hv
  rw [hdup] at hcopy
  have hk := hcopy.ordered
  have hold : k.Has v := hcopy.grows.has hv
  have hmirrors : Mirrors k k v c := hcopy.mirrors.congr
    (fun x hx => hcopy.grows.cell x (ho.has_of_reaches hv hx)) fun _ _ => rfl
  have hapart (x : ValueId) (hc : k.Reaches c x) : ¬ k.Reaches v x := fun hx =>
    hcopy.fresh x hc (ho.has_of_reaches hv (hcopy.grows.reaches ho hv hx))
  refine ⟨c, k, rfl, hcopy.grows, hmirrors, hmirrors.alike, fun w hw => ?_, ?_, ?_⟩
  · exact ⟨hk.has_of_reaches hcopy.has hw, hcopy.fresh w hw⟩
  · exact fun l hrun d => hrun.unchanged hk hcopy.has hold hapart
  · exact fun l hrun d => hrun.unchanged hk hold hcopy.has fun x hx hc => hapart x hc hx

/-- A sequence with a view behind a reference is copied, and a payload is stored through the
reference in the copy. The bytes in the copy change, and nothing of the original does. -/
theorem independent_of_duplicate_view :
    viewHeap.Built ∧ viewHeap.Has ⟨5⟩ ∧ ∃ c k l, viewHeap.duplicate ⟨5⟩ = (c, k) ∧
      StoresTo c k l ∧ l.cell ⟨12⟩ ≠ k.cell ⟨12⟩ ∧ ∀ d, k.Owns ⟨5⟩ d → Alike k d l d := by
  have hv : viewHeap.Has ⟨5⟩ := by decide +kernel
  obtain ⟨c, k, hdup, -, -, -, -, hcopy, -⟩ := independent_of_duplicate built_viewHeap hv
  have hc : c = ⟨15⟩ := (congrArg Prod.fst hdup).symm.trans (by decide +kernel)
  have hk : k = (viewHeap.duplicate ⟨5⟩).2 := (congrArg Prod.snd hdup).symm
  have howns : k.Owns c ⟨14⟩ := by
    refine .inl (.single ?_)
    rw [RefersTo, hc, hk]
    decide +kernel
  have hrun : StoresTo c k (k.store ⟨14⟩ ⟨1⟩).2 := by
    refine StoresTo.refl.request (.store ⟨14⟩ ⟨1⟩) ?_ fun d source hd => ?_
    · rw [hk]
      decide +kernel
    · obtain ⟨rfl, -⟩ := ValueRequest.store.inj hd
      exact howns
  refine ⟨built_viewHeap, hv, c, k, _, hdup, hrun, ?_, fun d hd => (hcopy _ hrun d hd).2⟩
  rw [hk]
  decide +kernel

end Heap

end BlockLang
