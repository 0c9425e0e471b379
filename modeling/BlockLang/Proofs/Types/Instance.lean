import BlockLang.Proofs.Types.Substitute

/-!
# Instances of generic definitions

`exists_instantiated` says what making an instance does, stage by stage: new
parameters for the missing arguments, parameters that stand for arguments, the walk
of the body, and parameters that stand for themselves again.
-/

namespace BlockLang.TypeTable

variable {t u : TypeTable} {p : TypeId} {params args : List TypeId} {name : String}

/-! ## Parameters that stand for arguments -/

theorem unfold_congr (h : u.kind = t.kind) : u.unfold = t.unfold := by
  have hwithin : ∀ depth, u.unfoldWithin depth = t.unfoldWithin depth := by
    intro depth
    induction depth with
    | zero => rfl
    | succ depth ih =>
      funext id
      rw [unfoldWithin, unfoldWithin, h, ih]
  funext id
  rw [unfold, unfold, hwithin]

theorem ext_of_views (hhash : u.hash = t.hash) (hbuckets : u.buckets = t.buckets)
    (hsize : u.size = t.size) (hkind : u.kind = t.kind)
    (hreplacement : u.replacement = t.replacement) : u = t := by
  have hentries : u.entries = t.entries := by
    refine Array.ext hsize fun i hu ht => ?_
    have hk := congrFun hkind ⟨i⟩
    have hr := congrFun hreplacement ⟨i⟩
    simp only [kind, replacement, Array.getElem?_eq_getElem hu, Array.getElem?_eq_getElem ht,
      Option.map_some, Option.getD_some, Option.bind_some] at hk hr
    cases hui : u.entries[i]
    cases hti : t.entries[i]
    simp_all
  cases u; cases t
  simp_all

/-- Only what parameters stand for differs. -/
structure SameTypes (t u : TypeTable) : Prop where
  hash : u.hash = t.hash
  buckets : u.buckets = t.buckets
  size : u.size = t.size
  kind : u.kind = t.kind

theorem SameTypes.refl (t : TypeTable) : t.SameTypes t := ⟨rfl, rfl, rfl, rfl⟩

theorem SameTypes.trans (h : t.SameTypes u) (h' : u.SameTypes v) : t.SameTypes v :=
  ⟨h'.hash.trans h.hash, h'.buckets.trans h.buckets, h'.size.trans h.size, h'.kind.trans h.kind⟩

theorem SameTypes.has (h : t.SameTypes u) {id : TypeId} : u.Has id ↔ t.Has id := by
  rw [Has, Has, h.size]

theorem SameTypes.canonical (h : t.SameTypes u) (ht : t.Canonical) : u.Canonical where
  ordered := by simpa [h.kind] using ht.ordered
  shared := by simpa [h.kind, h.has] using ht.shared

theorem sameTypes_setReplacement (t : TypeTable) (p : TypeId) (r : Option TypeId) :
    t.SameTypes (t.setReplacement p r) :=
  ⟨rfl, rfl, size_setReplacement t p r, kind_setReplacement t p r⟩

theorem has_setReplacement_of_tail {q : TypeId} {r : Option TypeId}
    (hparams : ∀ p ∈ q :: params, t.Has p) : ∀ p ∈ params, (t.setReplacement q r).Has p :=
  fun p hp => (sameTypes_setReplacement t q r).has.mpr (hparams p (List.mem_cons_of_mem _ hp))

theorem sameTypes_replaceAll (t : TypeTable) (params args : List TypeId) :
    t.SameTypes (t.replaceAll params args) := by
  unfold replaceAll
  induction params.zip args generalizing t with
  | nil => exact .refl t
  | cons pair pairs ih => exact (sameTypes_setReplacement t pair.1 (some pair.2)).trans (ih _)

theorem sameTypes_restoreAll (t : TypeTable) (params : List TypeId) :
    t.SameTypes (t.restoreAll params) := by
  unfold restoreAll
  induction params generalizing t with
  | nil => exact .refl t
  | cons p params ih => exact (sameTypes_setReplacement t p none).trans (ih _)

theorem replacement_restoreAll (hparams : ∀ p ∈ params, t.Has p) :
    (t.restoreAll params).replacement p = if p ∈ params then none else t.replacement p := by
  unfold restoreAll
  induction params generalizing t with
  | nil => simp
  | cons q params ih =>
    have hq := hparams q List.mem_cons_self
    rw [List.foldl_cons, ih (has_setReplacement_of_tail hparams),
      replacement_setReplacement _ _ _ hq]
    by_cases hmem : p ∈ params <;> by_cases hpq : p = q <;> simp [hmem, hpq]

theorem replacement_replaceAll_of_not_mem (hparams : ∀ q ∈ params, t.Has q) (hp : p ∉ params) :
    (t.replaceAll params args).replacement p = t.replacement p := by
  unfold replaceAll
  induction params generalizing t args with
  | nil => rfl
  | cons q params ih =>
    cases args with
    | nil => rfl
    | cons a args =>
      obtain ⟨hpq, hp⟩ := not_or.mp (mt List.mem_cons.mpr hp)
      have hq := hparams q List.mem_cons_self
      rw [List.zip_cons_cons, List.foldl_cons, ih (has_setReplacement_of_tail hparams) hp,
        replacement_setReplacement _ _ _ hq, if_neg hpq]

theorem replacement_replaceAll (hparams : ∀ q ∈ params, t.Has q) (hdistinct : params.Nodup)
    {a : TypeId} (hpa : (p, a) ∈ params.zip args) :
    (t.replaceAll params args).replacement p = some a := by
  induction params generalizing t args with
  | nil => simp at hpa
  | cons q params ih =>
    cases args with
    | nil => simp at hpa
    | cons b args =>
      have hq := hparams q List.mem_cons_self
      obtain ⟨hnew, hdistinct⟩ := List.nodup_cons.mp hdistinct
      show ((t.setReplacement q (some b)).replaceAll params args).replacement p = some a
      rcases List.mem_cons.mp hpa with heq | hpa
      · cases heq
        rw [replacement_replaceAll_of_not_mem (has_setReplacement_of_tail hparams) hnew,
          replacement_setReplacement _ _ _ hq, if_pos rfl]
      · exact ih (has_setReplacement_of_tail hparams) hdistinct hpa

/-- A parameter stands for an argument, or for what it stood for before. -/
theorem mem_of_replacement_replaceAll (hparams : ∀ q ∈ params, t.Has q) {a : TypeId}
    (ha : (t.replaceAll params args).replacement p = some a) :
    a ∈ args ∨ t.replacement p = some a := by
  induction params generalizing t args with
  | nil => exact .inr ha
  | cons q params ih =>
    cases args with
    | nil => exact .inr ha
    | cons b args =>
      have hq := hparams q List.mem_cons_self
      rcases ih (has_setReplacement_of_tail hparams) ha with hmem | hold
      · exact .inl (List.mem_cons_of_mem _ hmem)
      · rw [replacement_setReplacement _ _ _ hq] at hold
        split at hold
        · exact .inl (by simp_all)
        · exact .inr hold

/-! ## New parameters for missing arguments -/

/-- The parameters `missing` are new in `u` and named after those of `params` and the
definition `name`. -/
structure Fresh (t u : TypeTable) (name : String) (params missing : List TypeId) : Prop where
  canonical : u.Canonical
  grown : t.Extends u
  held : u.replacement = t.replacement
  new : ∀ m ∈ missing, t.size ≤ m.index ∧ u.Has m
  distinct : missing.Nodup
  named : missing.map u.kind =
    params.map fun p => .param ("<" ++ t.paramName p ++ " in " ++ name ++ ">")

theorem exists_makeParam (h : t.Canonical) (label : String) :
    ∃ u, t.makeParam label = (⟨t.size⟩, u) ∧ u.Canonical ∧ t.Extends u ∧
      u.replacement = t.replacement ∧ u.size = t.size + 1 ∧ u.kind ⟨t.size⟩ = .param label :=
  ⟨(t.makeParam label).2, rfl, h.intern (k := .param label) (by simp [TypeKind.parts]),
    extends_intern t (.param label), replacement_intern t (.param label),
    size_register t (.param label), kind_intern t (.param label)⟩

theorem Extends.paramName (h : t.Extends u) (hp : t.Has p) : u.paramName p = t.paramName p := by
  unfold TypeTable.paramName
  rw [h.kind hp]

theorem fresh_makeMissing (h : t.Canonical) (hparams : ∀ p ∈ params, t.Has p) :
    t.Fresh (t.makeMissing name params).2 name params (t.makeMissing name params).1 := by
  induction params generalizing t with
  | nil => exact ⟨h, .refl t, rfl, by simp [makeMissing, mapTable], .nil, rfl⟩
  | cons p params ih =>
    obtain ⟨u, hmake, hcanonical, hgrown, hheld, hsize, hkind⟩ :=
      exists_makeParam h ("<" ++ t.paramName p ++ " in " ++ name ++ ">")
    have hparams' := fun q hq => hparams q (List.mem_cons_of_mem p hq)
    have hrest := ih hcanonical fun q hq => hgrown.has (hparams' q hq)
    have hhas : u.Has ⟨t.size⟩ := by simp [Has, hsize]
    have hcons : t.makeMissing name (p :: params) =
        (⟨t.size⟩ :: (u.makeMissing name params).1, (u.makeMissing name params).2) := by
      simp [makeMissing, mapTable, hmake]
    rw [hcons]
    refine ⟨hrest.canonical, hgrown.trans hrest.grown, hrest.held.trans hheld, ?_, ?_, ?_⟩
    · intro m hm
      rcases List.mem_cons.mp hm with rfl | hm
      · exact ⟨Nat.le_refl _, hrest.grown.has hhas⟩
      · obtain ⟨hlater, hm⟩ := hrest.new m hm
        exact ⟨by omega, hm⟩
    · refine List.nodup_cons.mpr ⟨fun hmem => ?_, hrest.distinct⟩
      have hlater := (hrest.new _ hmem).1
      simp only at hlater
      omega
    · rw [List.map_cons, List.map_cons, hrest.grown.kind hhas, hkind, hrest.named]
      congr 1
      exact List.map_congr_left fun q hq => by rw [hgrown.paramName (hparams' q hq)]

/-! ## Instances -/

/-- What making an instance of the body `base` has done to the table `t` before the
instance itself is asked for. -/
structure Instantiated (t : TypeTable) (base : TypeId) (name : String)
    (params args missing : List TypeId) (expanded : TypeId) (u : TypeTable) : Prop where
  canonical : u.Canonical
  grown : t.Extends u
  /-- Every parameter stands for itself again. -/
  clear : ∀ p, u.replacement p = none
  fresh : ∃ v, t.Fresh v name (params.drop args.length) missing ∧ v.Extends u
  has : u.Has expanded
  /-- The arguments have been put in for the parameters. -/
  tree : ∃ σ : TypeId → TypeTree, u.unfold expanded = (t.unfold base).subst σ ∧
    (∀ p, p ∉ params → σ p = .param p) ∧
    (params.Nodup → ∀ p a, (p, a) ∈ params.zip (args.take params.length ++ missing) →
      σ p = u.unfold a)
  /-- Nothing is added when the table has the instantiated body. -/
  idle : missing = [] → t.Has expanded → u = t

theorem drop_length_take (params args : List TypeId) :
    params.drop (args.take params.length).length = params.drop args.length := by
  rw [List.length_take]
  rcases Nat.le_total params.length args.length with hle | hle
  · rw [Nat.min_eq_left hle, List.drop_length, List.drop_eq_nil_of_le hle]
  · rw [Nat.min_eq_right hle]

/-- What the stages after the missing arguments do, in the table `v` that has them. -/
theorem instantiated_of_fresh {v w u : TypeTable} {missing : List TypeId} {base expanded : TypeId}
    (h : t.Canonical) (hclear : ∀ p, t.replacement p = none) (hbase : t.Has base)
    (hparams : ∀ p ∈ params, t.Has p) (hargs : ∀ a ∈ args, t.Has a)
    (hfresh : t.Fresh v name (params.drop args.length) missing) (hnone : missing = [] → v = t)
    (hw : v.replaceAll params (args.take params.length ++ missing) = w)
    (hu : w.substitute base = (expanded, u)) :
    t.Instantiated base name params args missing expanded (u.restoreAll params) := by
  have hparams' : ∀ p ∈ params, v.Has p := fun p hp => hfresh.grown.has (hparams p hp)
  have hargs' : ∀ a ∈ args.take params.length ++ missing, v.Has a := by
    intro a ha
    rcases List.mem_append.mp ha with ha | ha
    · exact hfresh.grown.has (hargs a (List.mem_of_mem_take ha))
    · exact (hfresh.new a ha).2
  have hset : v.SameTypes w := hw ▸ sameTypes_replaceAll v params _
  have hback := sameTypes_restoreAll u params
  have hheld : ∀ p a, w.replacement p = some a → w.Has a := by
    intro p a ha
    rw [← hw] at ha
    rcases mem_of_replacement_replaceAll hparams' ha with ha | ha
    · exact hset.has.mpr (hargs' a ha)
    · rw [hfresh.held, hclear] at ha
      cases ha
  have hbase' : w.Has base := hset.has.mpr (hfresh.grown.has hbase)
  have hw' : w.Canonical := hset.canonical hfresh.canonical
  have hsub := hw'.substitute hheld hbase'
  rw [hu] at hsub
  have hgrown : v.Extends u :=
    fun id hid => ⟨hsub.grown.has (hset.has.mpr hid),
      (hsub.grown.kind (hset.has.mpr hid)).trans (congrFun hset.kind id)⟩
  have hgrown' : v.Extends (u.restoreAll params) :=
    fun id hid => ⟨hback.has.mpr (hgrown.has hid),
      (congrFun hback.kind id).trans (hgrown.kind hid)⟩
  have hlater : ∀ a, v.Has a → (u.restoreAll params).unfold a = w.unfold a := by
    intro a ha
    rw [unfold_congr hback.kind]
    exact hw'.unfold_extends hsub.canonical hsub.grown (hset.has.mpr ha)
  have hcleared : ∀ p, (u.restoreAll params).replacement p = none := by
    intro p
    rw [replacement_restoreAll fun p hp => hgrown.has (hparams' p hp)]
    split
    · rfl
    · rename_i hp
      rw [hsub.held, ← hw, replacement_replaceAll_of_not_mem hparams' hp, hfresh.held, hclear]
  refine ⟨hback.canonical hsub.canonical, hfresh.grown.trans hgrown', hcleared,
    ⟨v, hfresh, hgrown'⟩, hback.has.mpr hsub.has, ⟨w.meaning, ?_, ?_, ?_⟩, ?_⟩
  · rw [unfold_congr hback.kind, hsub.tree, unfold_congr hset.kind,
      h.unfold_extends hfresh.canonical hfresh.grown hbase]
  · intro p hp
    rw [meaning, ← hw, replacement_replaceAll_of_not_mem hparams' hp, hfresh.held, hclear]
    rfl
  · intro hdistinct p a hpa
    rw [hlater a (hargs' a (List.of_mem_zip hpa).2), meaning, ← hw,
      replacement_replaceAll hparams' hdistinct hpa]
    rfl
  · intro hmissing hexpanded
    -- The body is known, so the walk adds nothing and only replacements came and went.
    obtain rfl := hnone hmissing
    have hknows : w.Knows ((w.unfold base).subst w.meaning) := by
      refine ⟨expanded, hset.has.mpr hexpanded, ?_⟩
      rw [← hsub.tree, hw'.unfold_extends hsub.canonical hsub.grown (hset.has.mpr hexpanded)]
    have hsame : v.SameTypes (u.restoreAll params) :=
      (hsub.idle hknows ▸ hset).trans hback
    refine ext_of_views hsame.hash hsame.buckets hsame.size hsame.kind (funext fun p => ?_)
    rw [hcleared, hclear]

theorem exists_instantiated (name : String) (h : t.Canonical)
    (hclear : ∀ p, t.replacement p = none) {base : TypeId} (hbase : t.Has base)
    (hparams : ∀ p ∈ params, t.Has p) (hargs : ∀ a ∈ args, t.Has a) :
    ∃ missing expanded u,
      t.makeNamed base name params args =
        u.intern (.named name (args.take params.length ++ missing) expanded) ∧
      t.Instantiated base name params args missing expanded u := by
  have hfresh : t.Fresh _ name (params.drop args.length) _ :=
    fresh_makeMissing h fun p hp => hparams p (List.mem_of_mem_drop hp)
  refine ⟨_, _, _, ?_,
    instantiated_of_fresh h hclear hbase hparams hargs hfresh ?_ rfl (Prod.eta _).symm⟩
  · simp only [makeNamed, drop_length_take]
  · intro hmissing
    have hlength := congrArg List.length hfresh.named
    rw [hmissing, List.map_nil, List.length_map, List.length_nil] at hlength
    rw [List.eq_nil_of_length_eq_zero hlength.symm]
    rfl

end BlockLang.TypeTable
