import BlockLang.Proofs.Types.Instance

/-!
# Tables that are asked for types

A table in use is built from the initial one by requests, under any hash. In such a
table a handle and its tree determine each other (`hashConsed`), and an instance of a
definition is its body with the arguments put in for the parameters, all at once
(`instance_of_makeNamed`).
-/

namespace BlockLang

/-- What a table can be asked for. -/
inductive TypeRequest where
  | list (element : TypeId) (length : Option UInt64)
  | tuple (fields : List TypeField)
  | plainTuple (types : List TypeId)
  | reference (target : TypeId)
  | func (arguments result : TypeId)
  | param (name : String)
  | named (base : TypeId) (name : String) (params args : List TypeId)

namespace TypeRequest

/-- The handle that answers a request, and the table after it. -/
def answer (t : TypeTable) : TypeRequest → TypeId × TypeTable
  | list element length => t.makeList element length
  | tuple fields => t.makeTuple fields
  | plainTuple types => t.makePlainTuple types
  | reference target => t.makeReference target
  | func arguments result => t.makeFunc arguments result
  | param name => t.makeParam name
  | named base name params args => t.makeNamed base name params args

/-- The handles a request is made with. -/
def handles : TypeRequest → List TypeId
  | list element _ => [element]
  | tuple fields => fields.map (·.type)
  | plainTuple types => types
  | reference target => [target]
  | func arguments result => [arguments, result]
  | param _ => []
  | named base _ params args => base :: params ++ args

theorem forall_mem_handles_named {P : TypeId → Prop} {base : TypeId} {name : String}
    {params args : List TypeId} :
    (∀ id ∈ (named base name params args).handles, P id) ↔
      P base ∧ (∀ p ∈ params, P p) ∧ ∀ a ∈ args, P a := by
  simp [handles, or_imp, forall_and]

end TypeRequest

namespace TypeTable

/-- Built by requests with handles that were handed out before. -/
inductive Built : TypeTable → Prop
  | new (hash : TypeKind → UInt64) : Built (new hash)
  | request {t : TypeTable} (h : Built t) (r : TypeRequest) (hr : ∀ id ∈ r.handles, t.Has id) :
    Built (r.answer t).2

variable {t : TypeTable}

/-- A canonical table in which every parameter stands for itself. -/
structure Settled (t : TypeTable) : Prop where
  canonical : t.Canonical
  clear : ∀ p, t.replacement p = none

theorem settled_new (hash : TypeKind → UInt64) : (new hash).Settled := by
  refine ⟨.new hash, fun p => ?_⟩
  have hrun : ∀ (kinds : List TypeKind) (t : TypeTable),
      (kinds.foldl (fun t kind => (t.intern kind).2) t).replacement = t.replacement := by
    intro kinds
    induction kinds with
    | nil => exact fun _ => rfl
    | cons k kinds ih => exact fun t => (ih _).trans (replacement_intern t k)
  show (initialKinds.foldl (fun t kind => (t.intern kind).2) (empty hash)).replacement p = none
  rw [hrun]
  rfl

theorem Settled.intern (h : t.Settled) {k : TypeKind} (hparts : ∀ part ∈ k.parts, t.Has part) :
    (t.intern k).2.Settled :=
  ⟨h.canonical.intern hparts, fun p => by rw [replacement_intern, h.clear]⟩

namespace Instantiated

variable {base expanded : TypeId} {name : String} {params args missing : List TypeId}
  {u : TypeTable}

theorem settled (h : t.Instantiated base name params args missing expanded u) : u.Settled :=
  ⟨h.canonical, h.clear⟩

/-- The parts of the instance are in the table. -/
theorem has_parts (h : t.Instantiated base name params args missing expanded u)
    (hargs : ∀ a ∈ args, t.Has a) :
    ∀ part ∈ (TypeKind.named name (args.take params.length ++ missing) expanded).parts,
      u.Has part := by
  obtain ⟨v, hfresh, hgrown⟩ := h.fresh
  intro part hpart
  simp only [TypeKind.parts, List.mem_append, List.mem_singleton] at hpart
  obtain (hgiven | hmissing) | rfl := hpart
  · exact h.grown.has (hargs part (List.mem_of_mem_take hgiven))
  · exact hgrown.has (hfresh.new part hmissing).2
  · exact h.has

/-- If the table had the instance, making it again adds nothing. -/
theorem intern_eq (h : t.Instantiated base name params args missing expanded u)
    (ht : t.Canonical) {id : TypeId} (hid : t.Has id)
    (hkind : t.kind id = .named name (args.take params.length ++ missing) expanded) :
    u.intern (.named name (args.take params.length ++ missing) expanded) = (id, t) := by
  have hpart : ∀ part ∈ (t.kind id).parts, t.Has part := fun part => ht.has_part hid
  rw [hkind] at hpart
  have hmissing : missing = [] := by
    obtain ⟨v, hfresh, -⟩ := h.fresh
    refine List.eq_nil_iff_forall_not_mem.mpr fun m hm => ?_
    have hold : t.Has m := hpart m (by simp [TypeKind.parts, hm])
    exact Nat.not_lt_of_le (hfresh.new m hm).1 hold
  rw [h.idle hmissing (hpart expanded (by simp [TypeKind.parts])), ← hkind]
  exact ht.intern_kind hid (by rw [hkind]; rfl)

end Instantiated

theorem Settled.answer (h : t.Settled) (r : TypeRequest) (hr : ∀ id ∈ r.handles, t.Has id) :
    (r.answer t).2.Settled := by
  cases r with
  | named base name params args =>
    obtain ⟨hbase, hparams, hargs⟩ := TypeRequest.forall_mem_handles_named.mp hr
    obtain ⟨missing, expanded, u, hmake, hu⟩ :=
      exists_instantiated name h.canonical h.clear hbase hparams hargs
    rw [TypeRequest.answer, hmake]
    exact hu.settled.intern (hu.has_parts hargs)
  | plainTuple types => exact h.intern (by simpa [TypeKind.parts, TypeRequest.handles] using hr)
  | param name => exact h.intern (by simp [TypeKind.parts])
  | _ => exact h.intern hr

theorem Built.settled (h : t.Built) : t.Settled := by
  induction h with
  | new hash => exact settled_new hash
  | request _ r hr ih => exact ih.answer r hr

theorem Settled.extends_answer (h : t.Settled) (r : TypeRequest)
    (hr : ∀ id ∈ r.handles, t.Has id) : t.Extends (r.answer t).2 := by
  cases r with
  | named base name params args =>
    obtain ⟨hbase, hparams, hargs⟩ := TypeRequest.forall_mem_handles_named.mp hr
    obtain ⟨missing, expanded, u, hmake, hu⟩ :=
      exists_instantiated name h.canonical h.clear hbase hparams hargs
    rw [TypeRequest.answer, hmake]
    exact hu.grown.trans (extends_intern u _)
  | _ => exact extends_intern t _

/-- The primitives keep their handles. -/
theorem Built.kind_typeId (h : t.Built) (p : Primitive) : t.kind p.typeId = .primitive p := by
  induction h with
  | new hash => exact (kind_new hash).2.2 p
  | @request t h r hr ih =>
    have hid : t.Has p.typeId := has_of_kind_ne_error (by simp [ih])
    exact ((h.settled.extends_answer r hr).kind hid).trans ih

theorem Built.has_typeId (h : t.Built) (p : Primitive) : t.Has p.typeId :=
  has_of_kind_ne_error (by simp [h.kind_typeId p])

/-- A request for a kind that the table has and shares is answered with its handle. -/
theorem Settled.answer_eq (h : t.Settled) (r : TypeRequest) (hr : ∀ id ∈ r.handles, t.Has id)
    {id : TypeId} (hid : t.Has id) (hparam : (t.kind id).isParam = false)
    (hkind : (r.answer t).2.kind (r.answer t).1 = t.kind id) : r.answer t = (id, t) := by
  have hintern : ∀ {k}, (t.intern k).2.kind (t.intern k).1 = t.kind id → t.intern k = (id, t) := by
    intro k hk
    rw [kind_intern] at hk
    rw [hk, h.canonical.intern_kind hid hparam]
  cases r with
  | named base name params args =>
    obtain ⟨hbase, hparams, hargs⟩ := TypeRequest.forall_mem_handles_named.mp hr
    obtain ⟨missing, expanded, u, hmake, hu⟩ :=
      exists_instantiated name h.canonical h.clear hbase hparams hargs
    rw [TypeRequest.answer, hmake, kind_intern] at hkind
    rw [TypeRequest.answer, hmake, hu.intern_eq h.canonical hid hkind.symm]
  | _ => exact hintern hkind

/-- In a table that was built by requests, every kind refers to earlier handles only, two
handles are equal exactly when they unfold to the same tree, and a request for a kind that
the table has, and that is no parameter, is answered with its handle and adds nothing. -/
theorem Built.hashConsed (h : t.Built) :
    (∀ id, t.Has id → ∀ part ∈ (t.kind id).parts, part.index < id.index) ∧
      (∀ id, t.unfold id = (t.kind id).tree id t.unfold) ∧
      (∀ a b, t.Has a → t.Has b → (a = b ↔ t.unfold a = t.unfold b)) ∧
      (∀ kind id, t.Has id → t.kind id = kind → kind.isParam = false →
        t.intern kind = (id, t)) ∧
      ∀ r : TypeRequest, (∀ id ∈ r.handles, t.Has id) → ∀ id, t.Has id →
        (t.kind id).isParam = false → (r.answer t).2.kind (r.answer t).1 = t.kind id →
        r.answer t = (id, t) := by
  have hsettled := h.settled
  have hcanonical := hsettled.canonical
  refine ⟨fun id _ => hcanonical.ordered id, hcanonical.unfold_eq, fun a b ha hb => ?_, ?_,
    fun r hr id hid => ?_⟩
  · exact ⟨fun hab => congrArg t.unfold hab, hcanonical.eq_of_unfold_eq ha hb⟩
  · rintro kind id hid rfl hparam
    exact hcanonical.intern_kind hid hparam
  · exact hsettled.answer_eq r hr hid

/-- A generic pair and an instance of it, in a table whose hash tells nothing apart. -/
def pairTable : TypeTable :=
  let (first, t) := (new fun _ => 0).makeParam "T"
  let (second, t) := t.makeParam "U"
  let (body, t) := t.makeTuple [⟨some "first", first⟩, ⟨some "second", second⟩]
  (t.makeNamed body "Pair" [first, second]
    [Primitive.int32.typeId, Primitive.bool.typeId]).2

theorem built_pairTable : pairTable.Built := by
  have hfirst := (Built.new fun _ => 0).request (.param "T") (by decide)
  have hsecond := hfirst.request (.param "U") (by decide)
  have hbody := hsecond.request (.tuple [⟨some "first", ⟨10⟩⟩, ⟨some "second", ⟨11⟩⟩]) (by decide)
  exact hbody.request
    (.named ⟨12⟩ "Pair" [⟨10⟩, ⟨11⟩] [Primitive.int32.typeId, Primitive.bool.typeId]) (by decide)

/-- Making the instance again gives the same handle, and the pair of its arguments has the
handle that the instance made for it. -/
theorem hashConsed_pairTable :
    pairTable.Built ∧
      pairTable.makeNamed ⟨12⟩ "Pair" [⟨10⟩, ⟨11⟩]
        [Primitive.int32.typeId, Primitive.bool.typeId] = (⟨14⟩, pairTable) ∧
      pairTable.makeTuple [⟨some "first", Primitive.int32.typeId⟩,
        ⟨some "second", Primitive.bool.typeId⟩] = (⟨13⟩, pairTable) := by
  obtain ⟨-, -, -, hkind, hrequest⟩ := built_pairTable.hashConsed
  exact ⟨built_pairTable,
    hrequest (.named ⟨12⟩ "Pair" [⟨10⟩, ⟨11⟩] [Primitive.int32.typeId, Primitive.bool.typeId])
      (by decide) ⟨14⟩ (by decide) (by decide) (by decide),
    hkind _ ⟨13⟩ (by decide) (by decide) rfl⟩

/-- In `u`, `id` is the instance of the definition `name` at `args`; `base` and `params` are
the body of the definition and its parameters in `t`. -/
structure IsInstance (t : TypeTable) (base : TypeId) (name : String) (params args : List TypeId)
    (missing : List TypeId) (expanded id : TypeId) (u : TypeTable) : Prop where
  /-- Surplus arguments are dropped, missing ones are filled in. -/
  kind : u.Has id ∧ u.kind id = .named name (args.take params.length ++ missing) expanded
  /-- What is filled in is new and named after the parameter and the definition. -/
  fresh : missing.Nodup ∧ (∀ m ∈ missing, t.size ≤ m.index ∧ u.Has m) ∧
    missing.map u.kind = (params.drop args.length).map fun p =>
      .param ("<" ++ t.paramName p ++ " in " ++ name ++ ">")
  /-- The arguments are put in for the parameters at once, and other parameters are kept. -/
  substituted : ∃ σ : TypeId → TypeTree, u.unfold expanded = (t.unfold base).subst σ ∧
    (∀ p a, (p, a) ∈ params.zip (args.take params.length ++ missing) → σ p = u.unfold a) ∧
    ∀ p, p ∉ params → σ p = .param p
  /-- No entry holds a replacement. -/
  clear : ∀ entry ∈ u.entries, entry.replacement = none
  kept : ∀ old, t.Has old → u.Has old ∧ u.kind old = t.kind old ∧ u.unfold old = t.unfold old
  unchanged : (∀ p ∈ params, p ∉ (t.unfold base).params) → expanded = base

theorem Settled.entry_clear (h : t.Settled) : ∀ entry ∈ t.entries, entry.replacement = none := by
  intro entry hentry
  obtain ⟨i, hi, rfl⟩ := Array.mem_iff_getElem.mp hentry
  have hclear := h.clear ⟨i⟩
  rwa [replacement, Array.getElem?_eq_getElem hi, Option.bind_some] at hclear

/-- Making an instance substitutes the arguments for the parameters of the definition. -/
theorem Built.instance_of_makeNamed (h : t.Built) (base : TypeId) (name : String)
    (params args : List TypeId) (hbase : t.Has base)
    (hparams : ∀ p ∈ params, t.Has p ∧ (t.kind p).isParam = true) (hdistinct : params.Nodup)
    (hargs : ∀ a ∈ args, t.Has a) :
    ∃ missing expanded, t.IsInstance base name params args missing expanded
      (t.makeNamed base name params args).1 (t.makeNamed base name params args).2 := by
  have hsettled := h.settled
  have hcanonical := hsettled.canonical
  obtain ⟨missing, expanded, u, hmake, hu⟩ := exists_instantiated name hcanonical
    hsettled.clear hbase (fun p hp => (hparams p hp).1) hargs
  rw [hmake]
  generalize hk : TypeKind.named name (args.take params.length ++ missing) expanded = k
  have hparts : ∀ part ∈ k.parts, u.Has part := hk ▸ hu.has_parts hargs
  have hfinal := hu.settled.intern hparts
  have hgrown := extends_intern u k
  have hunfold : ∀ {a}, u.Has a → (u.intern k).2.unfold a = u.unfold a :=
    fun ha => hu.canonical.unfold_extends hfinal.canonical hgrown ha
  obtain ⟨v, hfresh, hv⟩ := hu.fresh
  obtain ⟨σ, htree, hother, hparam⟩ := hu.tree
  refine ⟨missing, expanded, ⟨has_intern u k, by rw [kind_intern, hk]⟩,
    ⟨hfresh.distinct, fun m hm => ?_, ?_⟩, ⟨σ, ?_, fun p a hpa => ?_, hother⟩,
    hfinal.entry_clear, fun old hold => ?_, fun habsent => ?_⟩
  · obtain ⟨hnew, hm⟩ := hfresh.new m hm
    exact ⟨hnew, hgrown.has (hv.has hm)⟩
  · rw [← hfresh.named]
    refine List.map_congr_left fun m hm => ?_
    have hm := (hfresh.new m hm).2
    rw [hgrown.kind (hv.has hm), hv.kind hm]
  · rw [hunfold hu.has, htree]
  · have ha : a ∈ k.parts := by
      rw [← hk]
      exact List.mem_append_left _ (List.of_mem_zip hpa).2
    rw [hparam hdistinct p a hpa, hunfold (hparts a ha)]
  · have hextends := hu.grown.trans hgrown
    exact ⟨hextends.has hold, hextends.kind hold,
      hcanonical.unfold_extends hfinal.canonical hextends hold⟩
  · -- The substituted tree is the tree of the body, which has one handle.
    refine hu.canonical.eq_of_unfold_eq hu.has (hu.grown.has hbase) ?_
    rw [htree, hcanonical.unfold_extends hu.canonical hu.grown hbase]
    refine TypeTree.subst_eq_self _ fun p hp => hother p fun hmem => habsent p hmem hp

/-- An argument that is a parameter itself stays, and the missing one is filled in. -/
theorem instance_of_makeNamed_pairTable :
    (pairTable.Built ∧ pairTable.Has ⟨12⟩ ∧
      (∀ p ∈ [⟨10⟩, ⟨11⟩], pairTable.Has p ∧ (pairTable.kind p).isParam = true) ∧
      [(⟨10⟩ : TypeId), ⟨11⟩].Nodup ∧ ∀ a ∈ [⟨11⟩], pairTable.Has a) ∧
    ∃ missing expanded, pairTable.IsInstance ⟨12⟩ "Pair" [⟨10⟩, ⟨11⟩] [⟨11⟩] missing expanded
      (pairTable.makeNamed ⟨12⟩ "Pair" [⟨10⟩, ⟨11⟩] [⟨11⟩]).1
      (pairTable.makeNamed ⟨12⟩ "Pair" [⟨10⟩, ⟨11⟩] [⟨11⟩]).2 :=
  ⟨⟨built_pairTable, by decide, by decide, by decide, by decide⟩,
    built_pairTable.instance_of_makeNamed ⟨12⟩ "Pair" [⟨10⟩, ⟨11⟩] [⟨11⟩] (by decide) (by decide)
      (by decide) (by decide)⟩

end TypeTable
end BlockLang
