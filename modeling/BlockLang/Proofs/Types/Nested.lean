import BlockLang.Proofs.Types.Built

/-!
# Instances inside instances

Replacing parameters in an instance of a definition gives the instance of the same
definition at the replaced arguments (`Built.instance_through_outer`): the arguments of a
named type and its body are walked one after the other, but stay in step. For trees this is
the law that two substitutions make one, `subst_subst`.
-/

namespace BlockLang

namespace TypeTree

variable {σ τ : TypeId → TypeTree}

mutual

/-- Only the parameters that occur matter. -/
theorem subst_congr : ∀ tree : TypeTree, (∀ p ∈ tree.params, σ p = τ p) →
    tree.subst σ = tree.subst τ
  | primitive _, _ | error, _ => rfl
  | list element _, h => by
    rw [subst, subst, subst_congr element h]
  | tuple fields, h => by
    rw [subst, subst, substFields_congr fields h]
  | reference target, h => by
    rw [subst, subst, subst_congr target h]
  | named name args expanded, h => by
    rw [subst, subst, substAll_congr args fun p hp => h p (List.mem_append_left _ hp),
      subst_congr expanded fun p hp => h p (List.mem_append_right _ hp)]
  | param id, h => h id List.mem_cons_self
  | func arguments result, h => by
    rw [subst, subst, subst_congr arguments fun p hp => h p (List.mem_append_left _ hp),
      subst_congr result fun p hp => h p (List.mem_append_right _ hp)]

theorem substAll_congr : ∀ trees : List TypeTree, (∀ p ∈ paramsOfAll trees, σ p = τ p) →
    substAll σ trees = substAll τ trees
  | [], _ => rfl
  | tree :: rest, h => by
    rw [substAll, substAll, subst_congr tree fun p hp => h p (List.mem_append_left _ hp),
      substAll_congr rest fun p hp => h p (List.mem_append_right _ hp)]

theorem substFields_congr : ∀ fields : List (Option String × TypeTree),
    (∀ p ∈ paramsOfFields fields, σ p = τ p) → substFields σ fields = substFields τ fields
  | [], _ => rfl
  | (_, tree) :: rest, h => by
    rw [substFields, substFields, subst_congr tree fun p hp => h p (List.mem_append_left _ hp),
      substFields_congr rest fun p hp => h p (List.mem_append_right _ hp)]

end

mutual

/-- Two substitutions make one. -/
theorem subst_subst : ∀ tree : TypeTree,
    (tree.subst σ).subst τ = tree.subst fun p => (σ p).subst τ
  | primitive _ | error | param _ => rfl
  | list element _ => by
    rw [subst, subst, subst, subst_subst element]
  | tuple fields => by
    rw [subst, subst, subst, substFields_substFields fields]
  | reference target => by
    rw [subst, subst, subst, subst_subst target]
  | named name args expanded => by
    rw [subst, subst, subst, substAll_substAll args, subst_subst expanded]
  | func arguments result => by
    rw [subst, subst, subst, subst_subst arguments, subst_subst result]

theorem substAll_substAll : ∀ trees : List TypeTree,
    substAll τ (substAll σ trees) = substAll (fun p => (σ p).subst τ) trees
  | [] => rfl
  | tree :: rest => by
    rw [substAll, substAll, substAll, subst_subst tree, substAll_substAll rest]

theorem substFields_substFields : ∀ fields : List (Option String × TypeTree),
    substFields τ (substFields σ fields) = substFields (fun p => (σ p).subst τ) fields
  | [] => rfl
  | (_, tree) :: rest => by
    rw [substFields, substFields, substFields, subst_subst tree, substFields_substFields rest]

end

end TypeTree

namespace TypeTable

variable {t u : TypeTable} {params args : List TypeId} {σ τ : TypeId → TypeTree}

/-! ## Replaced types -/

/-- `σ` puts the trees of `args` in for `params` and keeps other parameters. -/
structure PutsIn (t : TypeTable) (params args : List TypeId) (σ : TypeId → TypeTree) : Prop where
  param : ∀ p a, (p, a) ∈ params.zip args → σ p = t.unfold a
  other : ∀ p, p ∉ params → σ p = .param p

/-- `image` is `id` with `params` replaced by `args`, all at once. -/
def Replaced (t : TypeTable) (params args : List TypeId) (id image : TypeId) : Prop :=
  t.Has image ∧ ∃ σ, t.PutsIn params args σ ∧ t.unfold image = (t.unfold id).subst σ

theorem exists_mem_zip {params args : List TypeId} (hlength : args.length = params.length)
    {p : TypeId} (hp : p ∈ params) : ∃ a, (p, a) ∈ params.zip args := by
  obtain ⟨i, hi, rfl⟩ := List.mem_iff_getElem.mp hp
  have hi' : i < (params.zip args).length := by simp [hlength, hi]
  exact ⟨args[i], by simpa using List.getElem_mem hi'⟩

/-- With an argument for every parameter, there is nothing left open. -/
theorem PutsIn.unique (h : t.PutsIn params args σ) (h' : t.PutsIn params args τ)
    (hlength : args.length = params.length) : σ = τ := by
  funext p
  by_cases hp : p ∈ params
  · obtain ⟨a, ha⟩ := exists_mem_zip hlength hp
    rw [h.param p a ha, h'.param p a ha]
  · rw [h.other p hp, h'.other p hp]

theorem PutsIn.mono (h : t.PutsIn params args σ) (ht : t.Canonical) (hu : u.Canonical)
    (hgrown : t.Extends u) (hargs : ∀ a ∈ args, t.Has a) : u.PutsIn params args σ :=
  ⟨fun p a hpa => (h.param p a hpa).trans
    (ht.unfold_extends hu hgrown (hargs a (List.of_mem_zip hpa).2)).symm, h.other⟩

theorem Replaced.unique (h : t.Canonical) (hlength : args.length = params.length)
    {id a b : TypeId} (ha : t.Replaced params args id a) (hb : t.Replaced params args id b) :
    a = b := by
  obtain ⟨ha, σ, hσ, htree⟩ := ha
  obtain ⟨hb, τ, hτ, htree'⟩ := hb
  refine h.eq_of_unfold_eq ha hb ?_
  rw [htree, htree', hσ.unique hτ hlength]

theorem Replaced.mono (ht : t.Canonical) (hu : u.Canonical) (hgrown : t.Extends u)
    (hargs : ∀ a ∈ args, t.Has a) {id image : TypeId} (hid : t.Has id)
    (h : t.Replaced params args id image) : u.Replaced params args id image := by
  obtain ⟨himage, σ, hσ, htree⟩ := h
  refine ⟨hgrown.has himage, σ, hσ.mono ht hu hgrown hargs, ?_⟩
  rw [ht.unfold_extends hu hgrown himage, htree, ht.unfold_extends hu hgrown hid]

theorem eq_of_forall₂_replaced (h : t.Canonical) (hlength : args.length = params.length)
    {ids as bs : List TypeId} (ha : List.Forall₂ (t.Replaced params args) ids as)
    (hb : List.Forall₂ (t.Replaced params args) ids bs) : as = bs := by
  induction ha generalizing bs with
  | nil =>
    cases hb
    rfl
  | cons ha _ ih =>
    cases hb with
    | cons hb hbs => rw [ha.unique h hlength hb, ih hbs]

theorem forall₂_replaced_mono (ht : t.Canonical) (hu : u.Canonical) (hgrown : t.Extends u)
    (hargs : ∀ a ∈ args, t.Has a) {ids images : List TypeId} (hids : ∀ id ∈ ids, t.Has id)
    (h : List.Forall₂ (t.Replaced params args) ids images) :
    List.Forall₂ (u.Replaced params args) ids images := by
  induction h with
  | nil => exact .nil
  | cons h _ ih =>
    exact .cons (h.mono ht hu hgrown hargs (hids _ List.mem_cons_self))
      (ih fun id hid => hids id (List.mem_cons_of_mem _ hid))

theorem has_of_forall₂_replaced {ids images : List TypeId}
    (h : List.Forall₂ (t.Replaced params args) ids images) : ∀ image ∈ images, t.Has image := by
  induction h with
  | nil => simp
  | cons h _ ih => exact List.forall_mem_cons.mpr ⟨h.1, ih⟩

/-- Trees that are the substituted trees of `ids`, one by one, are those of their images. -/
theorem forall₂_replaced_of_map {ids images : List TypeId} (hσ : t.PutsIn params args σ)
    (hhas : ∀ image ∈ images, t.Has image)
    (h : images.map t.unfold = ids.map fun id => (t.unfold id).subst σ) :
    List.Forall₂ (t.Replaced params args) ids images := by
  induction ids generalizing images with
  | nil => rw [List.map_eq_nil_iff.mp h]; exact .nil
  | cons id ids ih =>
    cases images with
    | nil => cases h
    | cons image images =>
      obtain ⟨hhead, htail⟩ := List.cons.inj h
      obtain ⟨hhas, hrest⟩ := List.forall_mem_cons.mp hhas
      exact .cons ⟨hhas, σ, hσ, hhead⟩ (ih hrest htail)

/-! ## Instances in a table -/

variable {body id : TypeId} {name : String}

/-- `params` are different parameters of the table. -/
structure Parameters (t : TypeTable) (params : List TypeId) : Prop where
  has : ∀ p ∈ params, t.Has p
  isParam : ∀ p ∈ params, (t.kind p).isParam = true
  distinct : params.Nodup

/-- `args` are types of the table, one for each of `params`. -/
structure Arguments (t : TypeTable) (params args : List TypeId) : Prop where
  has : ∀ a ∈ args, t.Has a
  length : args.length = params.length

/-- `body` is the body of a definition with the parameters `params` and has no others. -/
structure Definition (t : TypeTable) (body : TypeId) (params : List TypeId) : Prop
    extends t.Parameters params where
  hasBody : t.Has body
  own : ∀ p ∈ (t.unfold body).params, p ∈ params

theorem Parameters.mono (h : t.Parameters params) (hgrown : t.Extends u) : u.Parameters params :=
  ⟨fun p hp => hgrown.has (h.has p hp),
    fun p hp => (hgrown.kind (h.has p hp)).symm ▸ h.isParam p hp, h.distinct⟩

theorem Arguments.mono (h : t.Arguments params args) (hgrown : t.Extends u) :
    u.Arguments params args :=
  ⟨fun a ha => hgrown.has (h.has a ha), h.length⟩

theorem Definition.mono (h : t.Definition body params) (ht : t.Canonical) (hu : u.Canonical)
    (hgrown : t.Extends u) : u.Definition body params :=
  ⟨h.toParameters.mono hgrown, hgrown.has h.hasBody,
    (ht.unfold_extends hu hgrown h.hasBody).symm ▸ h.own⟩

/-- `id` is the instance of the definition `name` with the body `body` at `args`, one for
each of `params`. -/
structure InstanceOf (t : TypeTable) (body : TypeId) (name : String) (params args : List TypeId)
    (id : TypeId) : Prop where
  has : t.Has id
  expanded : ∃ expanded, t.kind id = .named name args expanded ∧
    t.Replaced params args body expanded

theorem InstanceOf.mono (ht : t.Canonical) (hu : u.Canonical) (hgrown : t.Extends u)
    (hbody : t.Has body) (hargs : t.Arguments params args)
    (h : t.InstanceOf body name params args id) : u.InstanceOf body name params args id := by
  obtain ⟨expanded, hkind, hreplaced⟩ := h.expanded
  exact ⟨hgrown.has h.has, expanded, (hgrown.kind h.has).trans hkind,
    hreplaced.mono ht hu hgrown hargs.has hbody⟩

theorem InstanceOf.unique (ht : t.Canonical) (hlength : args.length = params.length) {a b : TypeId}
    (ha : t.InstanceOf body name params args a) (hb : t.InstanceOf body name params args b) :
    a = b := by
  obtain ⟨expanded, hkind, hreplaced⟩ := ha.expanded
  obtain ⟨expanded', hkind', hreplaced'⟩ := hb.expanded
  refine ht.shared a b ha.has hb.has (by rw [hkind]; rfl) ?_
  rw [hkind, hkind', hreplaced.unique ht hlength hreplaced']

/-- A definition without parameters stands for its body. -/
theorem InstanceOf.kind_nil (ht : t.Canonical) (hbody : t.Has body)
    (h : t.InstanceOf body name [] [] id) : t.kind id = .named name [] body := by
  obtain ⟨expanded, hkind, hreplaced⟩ := h.expanded
  have hself : t.Replaced [] [] body body :=
    ⟨hbody, .param, ⟨nofun, fun _ _ => rfl⟩, (TypeTree.subst_eq_self _ fun _ _ => rfl).symm⟩
  rw [hkind, hreplaced.unique ht rfl hself]

/-- What is known of a request for an instance with as many arguments as parameters. -/
theorem Settled.exists_makeNamed (h : t.Settled) (name : String) (hbody : t.Has body)
    (hparams : t.Parameters params) (hargs : t.Arguments params args) :
    ∃ expanded u, t.makeNamed body name params args = u.intern (.named name args expanded) ∧
      t.Instantiated body name params args [] expanded u ∧
      u.Replaced params args body expanded := by
  obtain ⟨missing, expanded, u, hmake, hu⟩ :=
    exists_instantiated name h.canonical h.clear hbody hparams.has hargs.has
  obtain rfl : missing = [] := by
    obtain ⟨v, hfresh, -⟩ := hu.fresh
    have hnamed := hfresh.named
    rwa [List.drop_eq_nil_of_le (Nat.le_of_eq hargs.length.symm), List.map_nil,
      List.map_eq_nil_iff] at hnamed
  obtain ⟨σ, htree, hother, hparam⟩ := hu.tree
  have hgiven : args.take params.length ++ [] = args := by
    rw [List.append_nil, ← hargs.length, List.take_length]
  rw [hgiven] at hmake hparam
  refine ⟨expanded, u, hmake, hu, hu.has, σ, ⟨hparam hparams.distinct, hother⟩, ?_⟩
  rw [htree, h.canonical.unfold_extends hu.canonical hu.grown hbody]

/-- A table before and after a request for an instance. -/
structure Instances (t : TypeTable) (body : TypeId) (name : String) (params args : List TypeId)
    (id : TypeId) (u : TypeTable) : Prop where
  settled : u.Settled
  grown : t.Extends u
  isInstance : u.InstanceOf body name params args id

theorem Settled.instances (h : t.Settled) (hbody : t.Has body) (hparams : t.Parameters params)
    (hargs : t.Arguments params args) (hid : t.makeNamed body name params args = (id, u)) :
    t.Instances body name params args id u := by
  obtain ⟨expanded, v, hmake, hv, hreplaced⟩ := h.exists_makeNamed name hbody hparams hargs
  have hargs' := hargs.mono hv.grown
  have hsettled := hv.settled.intern (k := .named name args expanded) (by
    simpa [TypeKind.parts, or_imp, forall_and] using ⟨hargs'.has, hv.has⟩)
  have hgrown := extends_intern v (.named name args expanded)
  rw [← hmake, hid] at hsettled hgrown
  refine ⟨hsettled, hv.grown.trans hgrown, ?_, expanded, ?_, ?_⟩
  · simpa [← hmake, hid] using has_intern v (.named name args expanded)
  · simpa [← hmake, hid] using kind_intern v (.named name args expanded)
  · exact hreplaced.mono hv.canonical hsettled.canonical hgrown hargs'.has (hv.grown.has hbody)

/-- An instance that the table has is found, and nothing is added. -/
theorem Settled.makeNamed_eq (h : t.Settled) (hbody : t.Has body) (hparams : t.Parameters params)
    (hargs : t.Arguments params args) (hid : t.InstanceOf body name params args id) :
    t.makeNamed body name params args = (id, t) := by
  obtain ⟨expanded, u, hmake, hu, hreplaced⟩ := h.exists_makeNamed name hbody hparams hargs
  obtain ⟨known, hkind, hknown⟩ := hid.expanded
  obtain rfl : known = expanded := by
    refine Replaced.unique hu.canonical hargs.length ?_ hreplaced
    exact hknown.mono h.canonical hu.canonical hu.grown hargs.has hbody
  rw [hmake, hu.idle rfl hknown.1, ← hkind, h.canonical.intern_kind hid.has (by rw [hkind]; rfl)]

/-! ## Instances of instances -/

/-- A member of a zipped list, found in another list that agrees place by place. -/
theorem exists_mem_zip_of_map_eq {α β : Type} {f g : α → β} {params : List TypeId}
    {as bs : List α} (h : bs.map f = as.map g) {p : TypeId} {b : α} (hpb : (p, b) ∈ params.zip bs) :
    ∃ a, (p, a) ∈ params.zip as ∧ f b = g a := by
  induction params generalizing as bs with
  | nil => simp at hpb
  | cons q params ih =>
    cases bs with
    | nil => simp at hpb
    | cons b' bs =>
      cases as with
      | nil => cases h
      | cons a as =>
        obtain ⟨hhead, htail⟩ := List.cons.inj h
        rcases List.mem_cons.mp hpb with heq | hpb
        · cases heq
          exact ⟨a, List.mem_cons_self, hhead⟩
        · obtain ⟨a', hmem, heq⟩ := ih htail hpb
          exact ⟨a', List.mem_cons_of_mem _ hmem, heq⟩

/-- Replacing parameters in an instance, whose definition has none but its own, replaces them
in the arguments. -/
theorem InstanceOf.replaced (ht : t.Canonical) (hown : ∀ p ∈ (t.unfold body).params, p ∈ params)
    (h : t.InstanceOf body name params args id) {holes fillers : List TypeId} {image : TypeId}
    (himage : t.Replaced holes fillers id image) :
    ∃ args', List.Forall₂ (t.Replaced holes fillers) args args' ∧
      t.InstanceOf body name params args' image := by
  obtain ⟨expanded, hkind, -, σ, hσ, hexpanded⟩ := h.expanded
  obtain ⟨hhas, τ, hτ, htree⟩ := himage
  rw [ht.unfold_eq id, hkind, TypeKind.tree, TypeTree.subst, ht.unfold_eq image] at htree
  cases hkind' : t.kind image with
  | named name' args' expanded' =>
    have hpart : ∀ part ∈ args' ++ [expanded'], t.Has part := fun part hpart =>
      ht.has_part hhas (by rw [hkind']; exact hpart)
    rw [hkind', TypeKind.tree] at htree
    obtain ⟨rfl, hargs, hbody⟩ := TypeTree.named.inj htree
    rw [TypeTree.substAll_eq_map, List.map_map] at hargs
    have hreplaced := forall₂_replaced_of_map hτ
      (fun a ha => hpart a (List.mem_append_left _ ha)) hargs
    refine ⟨args', hreplaced, hhas, expanded', hkind', hpart _ (by simp),
      fun p => if p ∈ params then (σ p).subst τ else .param p, ⟨fun p a' hpa => ?_, ?_⟩, ?_⟩
    · obtain ⟨a, ha, htree⟩ := exists_mem_zip_of_map_eq hargs hpa
      rw [if_pos (List.of_mem_zip ha).1, hσ.param p a ha, htree]
      rfl
    · exact fun p hp => if_neg hp
    · rw [hbody, hexpanded, TypeTree.subst_subst]
      exact TypeTree.subst_congr _ fun p hp => (if_pos (hown p hp)).symm
  | _ =>
    rw [hkind', TypeKind.tree] at htree
    cases htree

/-- An instance of `inst`, which is an instance itself, is made of the instance at the replaced
arguments. -/
theorem InstanceOf.through {inst : TypeId} {outer : String} {holes fillers : List TypeId}
    (ht : t.Canonical) (hown : ∀ p ∈ (t.unfold body).params, p ∈ params)
    (hinst : t.InstanceOf body name params args inst)
    (h : t.InstanceOf inst outer holes fillers id) :
    ∃ args' direct, t.kind id = .named outer fillers direct ∧
      List.Forall₂ (t.Replaced holes fillers) args args' ∧
      t.InstanceOf body name params args' direct := by
  obtain ⟨direct, hkind, hreplaced⟩ := h.expanded
  obtain ⟨args', hargs', hdirect⟩ := hinst.replaced ht hown hreplaced
  exact ⟨args', direct, hkind, hargs', hdirect⟩

/-- The outer instance is asked for first. -/
theorem Settled.exists_through (h : t.Settled) (hdef : t.Definition body params)
    (hargs : t.Arguments params args) {inst : TypeId}
    (hinst : t.InstanceOf body name params args inst) (outer : String)
    {holes fillers : List TypeId} (hholes : t.Parameters holes)
    (hfillers : t.Arguments holes fillers) :
    ∃ id u args' direct, t.makeNamed inst outer holes fillers = (id, u) ∧
      u.kind id = .named outer fillers direct ∧
      List.Forall₂ (u.Replaced holes fillers) args args' ∧
      u.makeNamed body name params args' = (direct, u) := by
  rcases hid : t.makeNamed inst outer holes fillers with ⟨id, u⟩
  have hu := h.instances hinst.has hholes hfillers hid
  have hdef' := hdef.mono h.canonical hu.settled.canonical hu.grown
  have hinst' := hinst.mono h.canonical hu.settled.canonical hu.grown hdef.hasBody hargs
  obtain ⟨args', direct, hkind, hreplaced, hdirect⟩ :=
    hinst'.through hu.settled.canonical hdef'.own hu.isInstance
  refine ⟨id, u, args', direct, rfl, hkind, hreplaced, ?_⟩
  have hargs' : u.Arguments params args' :=
    ⟨has_of_forall₂_replaced hreplaced, hreplaced.length_eq.symm.trans hargs.length⟩
  exact hu.settled.makeNamed_eq hdef'.hasBody hdef'.toParameters hargs' hdirect

/-- The instance at the replaced arguments is asked for first. -/
theorem Settled.exists_direct (h : t.Settled) (hdef : t.Definition body params)
    (hargs : t.Arguments params args) {inst : TypeId}
    (hinst : t.InstanceOf body name params args inst) (outer : String)
    {holes fillers args' : List TypeId} (hholes : t.Parameters holes)
    (hfillers : t.Arguments holes fillers)
    (hreplaced : List.Forall₂ (t.Replaced holes fillers) args args') :
    ∃ direct u id v, t.makeNamed body name params args' = (direct, u) ∧
      u.makeNamed inst outer holes fillers = (id, v) ∧
      v.kind id = .named outer fillers direct := by
  have hargs' : t.Arguments params args' :=
    ⟨has_of_forall₂_replaced hreplaced, hreplaced.length_eq.symm.trans hargs.length⟩
  rcases hdirect : t.makeNamed body name params args' with ⟨direct, u⟩
  have hu := h.instances hdef.hasBody hdef.toParameters hargs' hdirect
  rcases hid : u.makeNamed inst outer holes fillers with ⟨id, v⟩
  have hv := hu.settled.instances (hu.grown.has hinst.has) (hholes.mono hu.grown)
    (hfillers.mono hu.grown) hid
  refine ⟨direct, u, id, v, rfl, hid, ?_⟩
  have hgrown := hu.grown.trans hv.grown
  have hcanonical := hv.settled.canonical
  have hdef' := hdef.mono h.canonical hcanonical hgrown
  have hinst' := hinst.mono h.canonical hcanonical hgrown hdef.hasBody hargs
  obtain ⟨args'', direct', hkind, hreplaced', hdirect'⟩ :=
    hinst'.through hcanonical hdef'.own hv.isInstance
  -- Arguments are replaced in one way only, and an instance has one handle.
  obtain rfl : args'' = args' := eq_of_forall₂_replaced hcanonical hfillers.length hreplaced'
    (forall₂_replaced_mono h.canonical hcanonical hgrown hfillers.has hargs.has hreplaced)
  rw [hkind, hdirect'.unique hcanonical hargs'.length
    (hu.isInstance.mono hu.settled.canonical hcanonical hv.grown (hu.grown.has hdef.hasBody)
      (hargs'.mono hu.grown))]

/-- Let `inst` be an instance of a definition, and let parameters `holes` be replaced in it in
the course of making an instance of another definition. What it becomes is the instance of
its definition at the replaced arguments, the very handle, whichever of the two is asked for
first. -/
theorem Built.instance_through_outer (h : t.Built) (hdef : t.Definition body params)
    (hargs : t.Arguments params args) {inst : TypeId} {t' : TypeTable}
    (hinst : t.makeNamed body name params args = (inst, t')) {u : TypeTable} (hu : u.Built)
    (hlater : t'.Extends u) (outer : String) {holes fillers : List TypeId}
    (hholes : u.Parameters holes) (hfillers : u.Arguments holes fillers) :
    (∃ id v args' direct, u.makeNamed inst outer holes fillers = (id, v) ∧
      v.kind id = .named outer fillers direct ∧
      List.Forall₂ (v.Replaced holes fillers) args args' ∧
      v.makeNamed body name params args' = (direct, v)) ∧
    ∀ args', List.Forall₂ (u.Replaced holes fillers) args args' →
      ∃ direct v id w, u.makeNamed body name params args' = (direct, v) ∧
        v.makeNamed inst outer holes fillers = (id, w) ∧
        w.kind id = .named outer fillers direct := by
  have ht := h.settled
  have hmade := ht.instances hdef.hasBody hdef.toParameters hargs hinst
  have hgrown := hmade.grown.trans hlater
  have hdef' := hdef.mono ht.canonical hu.settled.canonical hgrown
  have hargs' := hargs.mono hgrown
  have hinst' : u.InstanceOf body name params args inst :=
    hmade.isInstance.mono hmade.settled.canonical hu.settled.canonical hlater
      (hmade.grown.has hdef.hasBody) (hargs.mono hmade.grown)
  exact ⟨hu.settled.exists_through hdef' hargs' hinst' outer hholes hfillers,
    fun args' => hu.settled.exists_direct hdef' hargs' hinst' outer hholes hfillers⟩

/-- `Pair<U, bool>` becomes `Pair<int8, bool>`, also where `U` is a parameter of `Pair`
itself. -/
theorem instance_through_outer_pairTable :
    (pairTable.Built ∧ pairTable.Definition ⟨12⟩ [⟨10⟩, ⟨11⟩] ∧
      pairTable.Arguments [⟨10⟩, ⟨11⟩] [⟨11⟩, ⟨0⟩]) ∧
    ∃ inst t, pairTable.makeNamed ⟨12⟩ "Pair" [⟨10⟩, ⟨11⟩] [⟨11⟩, ⟨0⟩] = (inst, t) ∧
      (t.Built ∧ t.Parameters [⟨11⟩] ∧ t.Arguments [⟨11⟩] [⟨1⟩]) ∧
      ∃ id v args' direct, t.makeNamed inst "Box" [⟨11⟩] [⟨1⟩] = (id, v) ∧
        v.kind id = .named "Box" [⟨1⟩] direct ∧
        List.Forall₂ (v.Replaced [⟨11⟩] [⟨1⟩]) [⟨11⟩, ⟨0⟩] args' ∧
        v.makeNamed ⟨12⟩ "Pair" [⟨10⟩, ⟨11⟩] args' = (direct, v) := by
  have hdef : pairTable.Definition ⟨12⟩ [⟨10⟩, ⟨11⟩] :=
    ⟨⟨by decide, by decide, by decide⟩, by decide, by decide⟩
  have hargs : pairTable.Arguments [⟨10⟩, ⟨11⟩] [⟨11⟩, ⟨0⟩] := ⟨by decide, by decide⟩
  have hbuilt := built_pairTable.request (.named ⟨12⟩ "Pair" [⟨10⟩, ⟨11⟩] [⟨11⟩, ⟨0⟩]) (by decide)
  rw [TypeRequest.answer] at hbuilt
  rcases hinst : pairTable.makeNamed ⟨12⟩ "Pair" [⟨10⟩, ⟨11⟩] [⟨11⟩, ⟨0⟩] with ⟨inst, t⟩
  rw [hinst] at hbuilt
  have hmade := built_pairTable.settled.instances hdef.hasBody hdef.toParameters hargs hinst
  have hholes : t.Parameters [⟨11⟩] :=
    Parameters.mono (t := pairTable) ⟨by decide, by decide, by decide⟩ hmade.grown
  have hfillers : t.Arguments [⟨11⟩] [⟨1⟩] :=
    Arguments.mono (t := pairTable) ⟨by decide, by decide⟩ hmade.grown
  refine ⟨⟨built_pairTable, hdef, hargs⟩, inst, t, rfl, ⟨hbuilt, hholes, hfillers⟩, ?_⟩
  exact (built_pairTable.instance_through_outer hdef hargs hinst hbuilt (.refl t) "Box" hholes
    hfillers).1

end TypeTable
end BlockLang
