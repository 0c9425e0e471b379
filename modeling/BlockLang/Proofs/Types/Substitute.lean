import Mathlib.Data.List.Forall2
import BlockLang.Types.Instance
import BlockLang.Proofs.Types.Unfold

/-!
# Replacing parameters

Walking a type with the parameters that stand for others replaced gives a handle of
the substituted tree (`after_substituteWithin`). Interning on the way keeps the table
canonical, and adds nothing when the table already has a type of that tree.
-/

namespace BlockLang

namespace TypeTable

/-- What a parameter stands for, as a tree. -/
def meaning (t : TypeTable) (p : TypeId) : TypeTree :=
  ((t.replacement p).map t.unfold).getD (.param p)

/-- The table has a type of this tree. -/
def Knows (t : TypeTable) (tree : TypeTree) : Prop := ∃ id, t.Has id ∧ t.unfold id = tree

variable {t u : TypeTable} {k : TypeKind} {id : TypeId}

theorem Canonical.unfold_intern (h : t.Canonical) (hparts : ∀ part ∈ k.parts, t.Has part) :
    (t.intern k).2.unfold (t.intern k).1 = k.tree (t.intern k).1 t.unfold := by
  have h' := h.intern hparts
  rw [h'.unfold_eq, kind_intern]
  exact TypeKind.tree_congr fun part hpart =>
    h.unfold_extends h' (extends_intern t k) (hparts part hpart)

theorem Knows.part (h : t.Canonical) {f : TypeId → TypeTree} (hparam : k.isParam = false)
    (hknows : t.Knows (k.tree id f)) {part : TypeId} (hpart : part ∈ k.parts) :
    t.Knows (f part) := by
  obtain ⟨known, hknown, htree⟩ := hknows
  rw [h.unfold_eq] at htree
  have hparts := TypeKind.parts_of_tree_eq hparam htree.symm
  obtain ⟨p, hp, heq⟩ := List.mem_map.mp (hparts ▸ List.mem_map_of_mem hpart)
  exact ⟨p, h.has_part hknown hp, heq⟩

theorem Knows.intern (h : t.Canonical) (hparam : k.isParam = false)
    (hparts : ∀ part ∈ k.parts, t.Has part) (hknows : t.Knows (k.tree id t.unfold)) :
    (t.intern k).2 = t := by
  obtain ⟨known, hknown, htree⟩ := hknows
  rw [h.unfold_eq] at htree
  have hkind : k = t.kind known :=
    TypeKind.eq_of_tree_eq hparam htree.symm fun p hp q hq hpq =>
      h.eq_of_unfold_eq (hparts p hp) (h.has_part hknown hq) hpq
  rw [hkind, h.intern_kind hknown (hkind ▸ hparam)]

end TypeTable

namespace Rebuild

open TypeTable

/-- `m` from `r` ends with a result and a state of `Q`. -/
def After (m : StateM Rebuild α) (r : Rebuild) (Q : α → Rebuild → Prop) : Prop :=
  Q (m.run r).1 (m.run r).2

variable {t : TypeTable} {r r' : Rebuild}

theorem After.bind {m : StateM Rebuild α} {f : α → StateM Rebuild β} {Q : α → Rebuild → Prop}
    {Q' : β → Rebuild → Prop} (h : After m r Q) (hf : ∀ a r', Q a r' → After (f a) r' Q') :
    After (m >>= f) r Q' :=
  hf _ _ h

theorem after_get_bind {f : Rebuild → StateM Rebuild α} {Q : α → Rebuild → Prop} :
    After (get >>= f) r Q ↔ After (f r) r Q :=
  Iff.rfl

/-- `image` is a handle of `id` with its parameters replaced, as they stand in `t`. -/
def Image (t u : TypeTable) (id image : TypeId) : Prop :=
  u.Has image ∧ u.unfold image = (t.unfold id).subst t.meaning

/-- A walk of a type of `t`: the table has grown from `t`, parameters stand for what they
did, and what has been replaced is right. -/
structure Walking (t : TypeTable) (r : Rebuild) : Prop where
  canonical : r.table.Canonical
  grown : t.Extends r.table
  held : r.table.replacement = t.replacement
  done : ∀ id image, r.done.find? id.index = some image → Image t r.table id image

/-- From `r`, a part of the walk leads to `r'`; if the table is still `t` and has what is
asked for, nothing is added. -/
structure Advances (t : TypeTable) (asked : Prop) (r r' : Rebuild) : Prop where
  walking : Walking t r'
  grown : r.table.Extends r'.table
  idle : asked → r.table = t → r'.table = t

theorem Advances.trans {asked asked' : Prop} (h : Advances t asked r r')
    (h' : Advances t asked' r' r'') : Advances t (asked ∧ asked') r r'' :=
  ⟨h'.walking, h.grown.trans h'.grown, fun ⟨ha, ha'⟩ ht => h'.idle ha' (h.idle ha ht)⟩

theorem Advances.weaken {asked asked' : Prop} (h : Advances t asked r r')
    (ha : asked' → asked) : Advances t asked' r r' :=
  ⟨h.walking, h.grown, fun h' => h.idle (ha h')⟩

theorem Image.mono {id image : TypeId} (h : Image t r.table id image) (hr : Walking t r)
    (hr' : Advances t asked r r') : Image t r'.table id image :=
  ⟨hr'.grown.has h.1,
    (hr.canonical.unfold_extends hr'.walking.canonical hr'.grown h.1).trans h.2⟩

/-- Parts are walked one after the other. -/
theorem after_mapM {f : α → StateM Rebuild β} {R : TypeTable → α → β → Prop} {asked : α → Prop}
    (hmono : ∀ {r r' asked a b}, Walking t r → Advances t asked r r' → R r.table a b →
      R r'.table a b)
    (xs : List α)
    (hf : ∀ x ∈ xs, ∀ r, Walking t r →
      After (f x) r fun y r' => Advances t (asked x) r r' ∧ R r'.table x y)
    (hr : Walking t r) :
    After (xs.mapM f) r fun ys r' =>
      Advances t (∀ x ∈ xs, asked x) r r' ∧ List.Forall₂ (R r'.table) xs ys := by
  induction xs generalizing r with
  | nil =>
    rw [List.mapM_nil]
    exact ⟨⟨hr, .refl _, fun _ ht => ht⟩, .nil⟩
  | cons x xs ih =>
    rw [List.mapM_cons]
    refine (hf x List.mem_cons_self r hr).bind fun y r₁ ⟨hadv, hy⟩ => ?_
    have hrest := ih (fun x hx => hf x (List.mem_cons_of_mem _ hx)) hadv.walking
    refine hrest.bind fun ys r₂ ⟨hadv', hys⟩ => ?_
    refine ⟨(hadv.trans hadv').weaken fun h => ?_, .cons (hmono hadv.walking hadv' hy) hys⟩
    exact ⟨h x List.mem_cons_self, fun x hx => h x (List.mem_cons_of_mem _ hx)⟩

/-- The table has `id` with its parameters replaced. -/
def Asks (t : TypeTable) (id : TypeId) : Prop := t.Knows ((t.unfold id).subst t.meaning)

variable {id : TypeId}

theorem subst_unfold (ht : t.Canonical) (hparam : (t.kind id).isParam = false) :
    (t.unfold id).subst t.meaning =
      (t.kind id).tree id fun p => (t.unfold p).subst t.meaning := by
  rw [ht.unfold_eq, TypeKind.subst_tree hparam]

theorem Asks.part (ht : t.Canonical) (hparam : (t.kind id).isParam = false) (h : Asks t id)
    {part : TypeId} (hpart : part ∈ (t.kind id).parts) : Asks t part := by
  rw [Asks, subst_unfold ht hparam] at h
  exact h.part ht hparam hpart

/-- After its parts, a type that is no parameter is asked for, made of their images. -/
theorem Advances.make (ht : t.Canonical) (hparam : (t.kind id).isParam = false) {asked : Prop}
    (hadv : Advances t asked r₀ r) (hasked : Asks t id → asked) {k : TypeKind}
    (hk : k.isParam = false) (hparts : ∀ part ∈ k.parts, r.table.Has part)
    (htree : k.tree id r.table.unfold =
      (t.kind id).tree id fun p => (t.unfold p).subst t.meaning) :
    After (make (·.intern k)) r fun image r' =>
      Advances t (Asks t id) r₀ r' ∧ Image t r'.table id image := by
  have hr := hadv.walking
  have hcanonical := hr.canonical.intern hparts
  have hgrown := extends_intern r.table k
  rw [← subst_unfold ht hparam] at htree
  refine ⟨⟨⟨hcanonical, hr.grown.trans hgrown, ?_, ?_⟩, hadv.grown.trans hgrown, ?_⟩,
    has_intern r.table k, ?_⟩
  · exact (replacement_intern r.table k).trans hr.held
  · intro id image hdone
    obtain ⟨himage, htree⟩ := hr.done id image hdone
    exact ⟨hgrown.has himage, (hr.canonical.unfold_extends hcanonical hgrown himage).trans htree⟩
  · intro hasks hstart
    have hsame := hadv.idle (hasked hasks) hstart
    rw [hsame] at hparts htree
    rw [Asks, ← htree] at hasks
    show (r.table.intern k).2 = t
    rw [hsame]
    exact hasks.intern ht hk hparts
  · exact (hr.canonical.unfold_intern hparts).trans ((TypeKind.tree_handle hk).trans htree)

/-- `m` replaces the parameters of `id`. -/
def Replaces (t : TypeTable) (id : TypeId) (m : StateM Rebuild TypeId) : Prop :=
  ∀ r, Walking t r → After m r fun image r' =>
    Advances t (Asks t id) r r' ∧ Image t r'.table id image

theorem Image.self (ht : t.Canonical) (hr : Walking t r) (hid : t.Has id)
    (hsame : (t.unfold id).subst t.meaning = t.unfold id) : Image t r.table id id :=
  ⟨hr.grown.has hid, (ht.unfold_extends hr.canonical hr.grown hid).trans hsame.symm⟩

theorem image_param (ht : t.Canonical) (hheld : ∀ p a, t.replacement p = some a → t.Has a)
    (hr : Walking t r) (hid : t.Has id) {name : String} (hkind : t.kind id = .param name) :
    Image t r.table id ((r.table.replacement id).getD id) := by
  have htree : t.unfold id = .param id := by rw [ht.unfold_eq, hkind, TypeKind.tree]
  rw [Image, hr.held, htree, TypeTree.subst, meaning]
  cases hreplaced : t.replacement id with
  | none => exact ⟨hr.grown.has hid, (ht.unfold_extends hr.canonical hr.grown hid).trans htree⟩
  | some a =>
    have ha := hheld id a hreplaced
    exact ⟨hr.grown.has ha, ht.unfold_extends hr.canonical hr.grown ha⟩

/-- What was found is remembered. -/
theorem Advances.remember {asked : Prop} {image : TypeId} (h : Advances t asked r r')
    (himage : Image t r'.table id image) :
    Advances t asked r { r' with done := r'.done.insert id.index image } := by
  refine ⟨⟨h.walking.canonical, h.walking.grown, h.walking.held, ?_⟩, h.grown, h.idle⟩
  rintro ⟨other⟩ image' hdone
  rw [KeyTree.find?_insert] at hdone
  split at hdone
  · next heq =>
    obtain rfl : other = id.index := heq
    obtain rfl := Option.some.inj hdone
    exact himage
  · exact h.walking.done ⟨other⟩ image' hdone

/-- The place `field'` is `field` with its parameters replaced. -/
def FieldImage (t u : TypeTable) (field field' : TypeField) : Prop :=
  field'.name = field.name ∧ Image t u field.type field'.type

section Lists

variable {u : TypeTable}

theorem has_of_images {ids images : List TypeId} (h : List.Forall₂ (Image t u) ids images) :
    ∀ image ∈ images, u.Has image := by
  induction h with
  | nil => simp
  | cons hhead _ ih => simpa using ⟨hhead.1, ih⟩

theorem unfold_images {ids images : List TypeId} (h : List.Forall₂ (Image t u) ids images) :
    images.map u.unfold = ids.map fun id => (t.unfold id).subst t.meaning := by
  induction h with
  | nil => rfl
  | cons hhead _ ih => rw [List.map_cons, List.map_cons, ih, hhead.2]

theorem images_of_fields {fields fields' : List TypeField}
    (h : List.Forall₂ (FieldImage t u) fields fields') :
    List.Forall₂ (Image t u) (fields.map (·.type)) (fields'.map (·.type)) := by
  induction h with
  | nil => exact .nil
  | cons hhead _ ih => exact .cons hhead.2 ih

theorem unfold_fields {fields fields' : List TypeField}
    (h : List.Forall₂ (FieldImage t u) fields fields') :
    (fields'.map fun field => (field.name, u.unfold field.type)) =
      fields.map fun field => (field.name, (t.unfold field.type).subst t.meaning) := by
  induction h with
  | nil => rfl
  | cons hhead _ ih => rw [List.map_cons, List.map_cons, ih, hhead.1, hhead.2.2]

end Lists

theorem after_field {field : TypeField} {visit : TypeId → StateM Rebuild TypeId}
    (hvisit : Replaces t field.type (visit field.type)) (r : Rebuild) (hr : Walking t r) :
    After (do return ({ field with type := ← visit field.type } : TypeField)) r fun field' r' =>
      Advances t (Asks t field.type) r r' ∧ FieldImage t r'.table field field' := by
  refine (hvisit r hr).bind ?_
  rintro type r' ⟨hadv, himage⟩
  exact ⟨hadv, rfl, himage⟩

/-- One level of the walk, given how the parts are walked. -/
theorem replaces_rebuild (ht : t.Canonical)
    (hheld : ∀ p a, t.replacement p = some a → t.Has a) (hid : t.Has id)
    {visit : TypeId → StateM Rebuild TypeId}
    (hvisit : ∀ part ∈ (t.kind id).parts, Replaces t part (visit part)) :
    Replaces t id (rebuild visit id (t.kind id)) := by
  intro r hr
  have hstay : Advances t (Asks t id) r r := ⟨hr, .refl _, fun _ h => h⟩
  cases hkind : t.kind id with
  | param name => exact ⟨hstay, image_param ht hheld hr hid hkind⟩
  | primitive p =>
    refine ⟨hstay, Image.self ht hr hid ?_⟩
    rw [ht.unfold_eq, hkind, TypeKind.tree, TypeTree.subst]
  | error =>
    refine ⟨hstay, Image.self ht hr hid ?_⟩
    rw [ht.unfold_eq, hkind, TypeKind.tree, TypeTree.subst]
  | list element length =>
    have hparam : (t.kind id).isParam = false := by rw [hkind]; rfl
    have helement : element ∈ (t.kind id).parts := by simp [hkind, TypeKind.parts]
    refine (hvisit element helement r hr).bind ?_
    rintro element' r₁ ⟨hadv, himage⟩
    refine hadv.make ht hparam (fun h => h.part ht hparam helement) (k := .list element' length)
      rfl (by simpa [TypeKind.parts] using himage.1) ?_
    rw [hkind, TypeKind.tree, TypeKind.tree, himage.2]
  | reference target =>
    have hparam : (t.kind id).isParam = false := by rw [hkind]; rfl
    have htarget : target ∈ (t.kind id).parts := by simp [hkind, TypeKind.parts]
    refine (hvisit target htarget r hr).bind ?_
    rintro target' r₁ ⟨hadv, himage⟩
    refine hadv.make ht hparam (fun h => h.part ht hparam htarget) (k := .reference target')
      rfl (by simpa [TypeKind.parts] using himage.1) ?_
    rw [hkind, TypeKind.tree, TypeKind.tree, himage.2]
  | tuple fields =>
    have hparam : (t.kind id).isParam = false := by rw [hkind]; rfl
    have hfield : ∀ field ∈ fields, field.type ∈ (t.kind id).parts := fun field h => by
      simpa [hkind, TypeKind.parts] using ⟨field, h, rfl⟩
    have hfields := after_mapM (fun hr hadv h => ⟨h.1, h.2.mono hr hadv⟩) fields
      (fun field h => after_field (hvisit _ (hfield field h))) hr
    refine hfields.bind ?_
    rintro fields' r₁ ⟨hadv, himages⟩
    refine hadv.make ht hparam (fun h field hfield' => h.part ht hparam (hfield field hfield'))
      (k := .tuple fields') rfl (has_of_images (images_of_fields himages)) ?_
    rw [hkind, TypeKind.tree, TypeKind.tree, unfold_fields himages]
  | named name args expanded =>
    have hparam : (t.kind id).isParam = false := by rw [hkind]; rfl
    have hexpanded : expanded ∈ (t.kind id).parts := by simp [hkind, TypeKind.parts]
    have harg : ∀ arg ∈ args, arg ∈ (t.kind id).parts := fun arg h => by
      simp [hkind, TypeKind.parts, h]
    have hargs := after_mapM (fun hr hadv h => Image.mono h hr hadv) args
      (fun arg h => hvisit arg (harg arg h)) hr
    refine hargs.bind ?_
    rintro args' r₁ ⟨hadv, himages⟩
    refine (hvisit expanded hexpanded r₁ hadv.walking).bind ?_
    rintro expanded' r₂ ⟨hadv', himage⟩
    have himages := himages.imp fun _ _ h => h.mono hadv.walking hadv'
    refine (hadv.trans hadv').make ht hparam
      (fun h => ⟨fun arg harg' => h.part ht hparam (harg arg harg'), h.part ht hparam hexpanded⟩)
      (k := .named name args' expanded') rfl ?_ ?_
    · simpa [TypeKind.parts, or_imp, forall_and] using ⟨has_of_images himages, himage.1⟩
    · rw [hkind, TypeKind.tree, TypeKind.tree, himage.2, unfold_images himages]
  | func arguments result =>
    have hparam : (t.kind id).isParam = false := by rw [hkind]; rfl
    have harguments : arguments ∈ (t.kind id).parts := by simp [hkind, TypeKind.parts]
    have hresult : result ∈ (t.kind id).parts := by simp [hkind, TypeKind.parts]
    refine (hvisit arguments harguments r hr).bind ?_
    rintro arguments' r₁ ⟨hadv, himage⟩
    refine (hvisit result hresult r₁ hadv.walking).bind ?_
    rintro result' r₂ ⟨hadv', himage'⟩
    have himage := himage.mono hadv.walking hadv'
    refine (hadv.trans hadv').make ht hparam
      (fun h => ⟨h.part ht hparam harguments, h.part ht hparam hresult⟩)
      (k := .func arguments' result') rfl ?_ ?_
    · simpa [TypeKind.parts] using ⟨himage.1, himage'.1⟩
    · rw [hkind, TypeKind.tree, TypeKind.tree, himage.2, himage'.2]

/-- One level of the walk, given the level below. -/
theorem replaces_succ (ht : t.Canonical) (hheld : ∀ p a, t.replacement p = some a → t.Has a)
    {depth : Nat} (hid : t.Has id)
    (hparts : ∀ part ∈ (t.kind id).parts, Replaces t part (substituteWithin depth part)) :
    Replaces t id (substituteWithin (depth + 1) id) := by
  intro r hr
  rw [substituteWithin, after_get_bind]
  split
  · rename_i image hdone
    exact ⟨⟨hr, .refl _, fun _ h => h⟩, hr.done id image hdone⟩
  · rw [after_get_bind, hr.grown.kind hid]
    exact (replaces_rebuild ht hheld hid hparts r hr).bind fun image r' ⟨hadv, himage⟩ =>
      ⟨hadv.remember himage, himage⟩

theorem replaces_substituteWithin (ht : t.Canonical)
    (hheld : ∀ p a, t.replacement p = some a → t.Has a) {depth : Nat} {id : TypeId}
    (hdepth : id.index < depth) (hid : t.Has id) : Replaces t id (substituteWithin depth id) := by
  induction depth generalizing id with
  | zero => exact absurd hdepth (Nat.not_lt_zero _)
  | succ depth ih =>
    refine replaces_succ ht hheld hid fun part hpart => ?_
    have hlt := ht.ordered id part hpart
    exact ih (by omega) (ht.has_part hid hpart)

end Rebuild

namespace TypeTable

variable {t : TypeTable}

/-- What `substitute` does to a type and the table. -/
structure Substituted (t : TypeTable) (id image : TypeId) (u : TypeTable) : Prop where
  canonical : u.Canonical
  grown : t.Extends u
  held : u.replacement = t.replacement
  has : u.Has image
  tree : u.unfold image = (t.unfold id).subst t.meaning
  /-- Nothing is added when the table has the result. -/
  idle : t.Knows ((t.unfold id).subst t.meaning) → u = t

theorem Canonical.substitute (h : t.Canonical)
    (hheld : ∀ p a, t.replacement p = some a → t.Has a) {id : TypeId} (hid : t.Has id) :
    t.Substituted id (t.substitute id).1 (t.substitute id).2 := by
  have hstart : Rebuild.Walking t ⟨t, .empty⟩ := ⟨h, .refl t, rfl, by simp⟩
  obtain ⟨hadv, himage⟩ :=
    Rebuild.replaces_substituteWithin h hheld (Nat.lt_succ_self _) hid _ hstart
  exact ⟨hadv.walking.canonical, hadv.walking.grown, hadv.walking.held, himage.1, himage.2,
    fun hknows => hadv.idle hknows rfl⟩

end TypeTable
end BlockLang
