import BlockLang.Proofs.Typing.Resolve
import Mathlib.Data.Set.Insert
import Mathlib.Logic.Relation

/-!
# Recursive definitions

Resolving a written type looks for a way through the definitions that are not resolved yet:
each is marked while its body is looked into and resolved afterwards, and one that is met
with its mark set is on a cycle. The pass ends with every definition resolved that it has
reached, and reports a recursive one if and only if it has reached a cycle
(`resolveType_reaches`). Definitions resolved before are not looked into again.
-/

namespace BlockLang

open Relation (ReflTransGen TransGen)

mutual

/-- The names that are looked up for a written type with the parameters `params`. -/
def TypeExpr.names (params : List String) : TypeExpr → List String
  | .name head args _ =>
    if args.isEmpty && params.contains head then []
    else TypeExpr.namesOfList params args ++ [head]
  | .list element _ => element.names params
  | .tuple fields => TypeExpr.namesOfFields params fields
  | .reference target => target.names params
  | .func arguments result => TypeExpr.namesOfList params arguments ++ result.names params

def TypeExpr.namesOfList (params : List String) : List TypeExpr → List String
  | [] => []
  | expr :: exprs => expr.names params ++ TypeExpr.namesOfList params exprs

def TypeExpr.namesOfFields (params : List String) : List (Option String × TypeExpr) → List String
  | [] => []
  | (_, expr) :: fields => expr.names params ++ TypeExpr.namesOfFields params fields

end

/-- Whether a definition refers to itself. -/
def Problem.isRecursion : Problem → Bool
  | .recursiveType _ => true
  | _ => false

/-- A definition as it is written, with nothing found out about it. -/
def TypeDef.fresh (d : TypeDef) : TypeDef := .new d.name d.params d.body d.scope d.position

-- ---------------------------------------------------------------------------
-- References
-- ---------------------------------------------------------------------------

namespace ScopeTable

variable (t : ScopeTable)

/-- The definitions of the table. -/
def defs : Set TypeDefId := {id | id.index < t.typeDefs.size}

def Done (id : TypeDefId) : Prop := (t.typeDef id).resolved.isSome = true

def Open (id : TypeDefId) : Prop := (t.typeDef id).resolving = true

/-- The definitions that `names` stand for in `scope`. -/
def meant (scope : ScopeId) (names : List String) : Set TypeDefId :=
  {id | ∃ name ∈ names, t.findType? scope name = .ok (some id)} ∩ t.defs

/-- The definitions that the body of a definition names. They are looked up in the scope of
the definition, where its parameters hide other names. -/
def mentioned (id : TypeDefId) : Set TypeDefId :=
  match (t.typeDef id).body with
  | .builtin _ => ∅
  | .written expr => t.meant (t.typeDef id).scope (expr.names (t.typeDef id).params)

/-- The body of a definition names the other. -/
def Mentions (a b : TypeDefId) : Prop := b ∈ t.mentioned a

/-- The body of a definition that is not resolved names the other. -/
def Refers (a b : TypeDefId) : Prop := ¬ t.Done a ∧ t.Mentions a b

instance (id : TypeDefId) : Decidable (id ∈ t.defs) :=
  inferInstanceAs (Decidable (id.index < t.typeDefs.size))

instance (id : TypeDefId) : Decidable (t.Done id) :=
  inferInstanceAs (Decidable ((t.typeDef id).resolved.isSome = true))

variable {t} {scope : ScopeId} {id a b : TypeDefId} {f : TypeDef → TypeDef}

theorem meant_append (xs ys : List String) :
    t.meant scope (xs ++ ys) = t.meant scope xs ∪ t.meant scope ys := by
  ext id
  simp [meant, or_and_right, exists_or]

@[simp] theorem meant_nil : t.meant scope [] = ∅ := by
  simp [meant]

theorem meant_unknown (h : t.findType? scope name = .ok none) : t.meant scope [name] = ∅ := by
  simp [meant, h]

theorem meant_known (h : t.findType? scope name = .ok (some id)) :
    t.meant scope [name] = {id} ∩ t.defs := by
  ext other
  simp [meant, h, eq_comm]

theorem mentions_of_written (hb : (t.typeDef a).body = .written expr)
    (hn : name ∈ expr.names (t.typeDef a).params)
    (hf : t.findType? (t.typeDef a).scope name = .ok (some b)) (hd : b ∈ t.defs) :
    t.Mentions a b := by
  unfold Mentions mentioned
  rw [hb]
  exact ⟨⟨name, hn, hf⟩, hd⟩

theorem not_open_of_all (h : t.typeDefs.all (!·.resolving) = true) (id : TypeDefId) :
    (t.typeDef id).resolving = false := by
  unfold typeDef
  cases hget : t.typeDefs[id.index]? with
  | none => rfl
  | some d => simpa using Array.all_eq_true'.mp h d (Array.mem_of_getElem? hget)

theorem typeDef_modifyTypeDef (h : id ∈ t.defs) :
    (t.modifyTypeDef id f).typeDef b = if b = id then f (t.typeDef id) else t.typeDef b := by
  have hget : t.typeDefs[id.index]? = some t.typeDefs[id.index] := Array.getElem?_eq_getElem h
  simp only [typeDef, modifyTypeDef, Array.getElem?_modify]
  by_cases hb : b = id
  · simp [hb, hget]
  · have hne : id.index ≠ b.index := fun he => hb (by cases b; cases id; cases he; rfl)
    simp [hb, hne]

theorem modifyTypeDef_of_not_mem (h : id ∉ t.defs) : t.modifyTypeDef id f = t := by
  have harray : t.typeDefs.modify id.index f = t.typeDefs := by
    refine Array.ext_getElem? fun i => ?_
    rw [Array.getElem?_modify]
    split
    · rename_i hi
      rw [← hi, Array.getElem?_eq_none (Nat.le_of_not_lt h), Option.map_none]
    · rfl
  simp only [modifyTypeDef, harray]

theorem mem_defs_of_open (h : t.Open id) : id ∈ t.defs := by
  by_contra hid
  have hnone : t.typeDefs[id.index]? = none := Array.getElem?_eq_none (Nat.le_of_not_lt hid)
  rw [Open, typeDef, hnone] at h
  cases h

theorem mem_defs_of_written (h : (t.typeDef id).body = .written expr) : id ∈ t.defs :=
  (Array.getElem?_eq_some_iff.mp (typeDef_of_written h)).1

end ScopeTable

-- ---------------------------------------------------------------------------
-- What resolving finds
-- ---------------------------------------------------------------------------

/-- From one of `ids`, references lead to a definition on a cycle of them. -/
def Looped (t : ScopeTable) (ids : Set TypeDefId) : Prop :=
  ∃ first ∈ ids, ∃ id, ReflTransGen t.Refers first id ∧ TransGen t.Refers id id

/-- What holds of a session whenever types are resolved in it that were written when the
scopes were `t`: apart from what has been found out, they still are, and what a resolved
definition refers to is resolved or marked. -/
structure Exploring (t : ScopeTable) (s : Session) : Prop where
  scopes : s.scopes.withDefs t.typeDefs = t
  size : s.scopes.typeDefs.size = t.typeDefs.size
  fresh : ∀ id, (s.scopes.typeDef id).fresh = (t.typeDef id).fresh
  kept : ∀ id, t.Done id → s.scopes.Done id
  pending : ∀ id, s.scopes.Open id → ¬ s.scopes.Done id
  covered : ∀ a b, s.scopes.Done a → t.Refers a b → s.scopes.Done b ∨ s.scopes.Open b

/-- No definition that has been resolved is on a cycle, or refers to one that is not
resolved. -/
def CycleFree (t : ScopeTable) (s : Session) : Prop :=
  ∀ a, s.scopes.Done a → (∀ b, t.Refers a b → s.scopes.Done b) ∧ ¬ TransGen t.Refers a a

/-- From `s` to `s'`, the definitions `ids` have been looked into. -/
structure Explored (t : ScopeTable) (ids : Set TypeDefId) (s s' : Session) : Prop where
  exploring : Exploring t s'
  opened : ∀ id, s'.scopes.Open id ↔ s.scopes.Open id
  kept : ∀ id, s.scopes.Done id → s'.scopes.Done id
  seen : ∀ id ∈ ids, s'.scopes.Done id ∨ s'.scopes.Open id
  report : ∃ ds, s'.report = s.report ++ ds ∧
    ((∃ d ∈ ds, d.problem.isRecursion = true) → Looped t ids) ∧
    ((∀ d ∈ ds, d.problem.isRecursion = false) → CycleFree t s →
      CycleFree t s' ∧ ∀ id ∈ ids, s'.scopes.Done id)

section
variable {t : ScopeTable} {s s' s'' : Session} {A B : Set TypeDefId} {id : TypeDefId}

theorem Looped.mono (h : Looped t A) (hs : A ⊆ B) : Looped t B := by
  obtain ⟨first, hf, h⟩ := h
  exact ⟨first, hs hf, h⟩

/-- What a definition refers to can be reached through it. -/
theorem Looped.through (h : Looped t A) (hr : ∀ b ∈ A, t.Refers id b) : Looped t {id} := by
  obtain ⟨first, hf, last, hpath, hcycle⟩ := h
  exact ⟨id, rfl, last, .head (hr first hf) hpath, hcycle⟩

theorem CycleFree.congr (h : CycleFree t s) (hd : ∀ id, s'.scopes.Done id ↔ s.scopes.Done id) :
    CycleFree t s' := by
  intro a ha
  obtain ⟨hrefers, hcycle⟩ := h a ((hd a).mp ha)
  exact ⟨fun b hb => (hd b).mpr (hrefers b hb), hcycle⟩

/-- References lead from resolved definitions to resolved ones only. -/
theorem CycleFree.done_of_path (h : CycleFree t s) {a b : TypeDefId} (ha : s.scopes.Done a)
    (hp : ReflTransGen t.Refers a b) : s.scopes.Done b := by
  induction hp with
  | refl => exact ha
  | tail _ hr ih => exact (h _ ih).1 _ hr

/-- Nothing is resolved by a step that leaves the scopes alone and reports no recursion. -/
theorem Explored.of_scopes (h : Exploring t s) (hs : s'.scopes = s.scopes) (ds : Report)
    (hr : s'.report = s.report ++ ds) (hd : ∀ d ∈ ds, d.problem.isRecursion = false) :
    Explored t ∅ s s' where
  exploring := by
    obtain ⟨h₁, h₂, h₃, h₄, h₅, h₆⟩ := h
    rw [← hs] at h₁ h₂ h₃ h₄ h₅ h₆
    exact ⟨h₁, h₂, h₃, h₄, h₅, h₆⟩
  opened := fun id => by rw [hs]
  kept := fun id hd => by rwa [hs]
  seen := nofun
  report := by
    refine ⟨ds, hr, fun ⟨d, hm, hrec⟩ => ?_, fun _ hfree =>
      ⟨hfree.congr fun id => by rw [hs], nofun⟩⟩
    rw [hd d hm] at hrec
    cases hrec

/-- There is nothing to do about definitions that are resolved. -/
theorem Explored.of_done (h : Exploring t s) (hd : ∀ id ∈ A, s.scopes.Done id) :
    Explored t A s s :=
  ⟨h, fun _ => .rfl, fun _ hd => hd, fun id hid => .inl (hd id hid), [], by simp, by simp,
    fun _ hfree => ⟨hfree, hd⟩⟩

/-- A marked definition that leads back to itself is reported. -/
theorem Explored.recursion (h : Exploring t s) (ho : s.scopes.Open id)
    (hcycle : TransGen t.Refers id id) (d : Diagnostic) (hd : d.problem.isRecursion = true)
    (hr : s' = { s with report := s.report ++ [d] }) (hid : id ∈ t.defs) :
    Explored t ({id} ∩ t.defs) s s' := by
  subst hr
  refine ⟨⟨h.scopes, h.size, h.fresh, h.kept, h.pending, h.covered⟩, fun _ => .rfl, fun _ hd => hd,
    fun b hb => .inr (hb.1 ▸ ho), [d], rfl, fun _ => ⟨id, ⟨rfl, hid⟩, id, .refl, hcycle⟩, ?_⟩
  intro hall
  rw [hall d List.mem_cons_self] at hd
  cases hd

theorem Explored.trans (h : Explored t A s s') (h' : Explored t B s' s'') :
    Explored t (A ∪ B) s s'' where
  exploring := h'.exploring
  opened := fun id => (h'.opened id).trans (h.opened id)
  kept := fun id hd => h'.kept id (h.kept id hd)
  seen := by
    rintro id (hid | hid)
    · exact (h.seen id hid).imp (h'.kept id) (h'.opened id).mpr
    · exact h'.seen id hid
  report := by
    obtain ⟨ds, hr, hloop, hfree⟩ := h.report
    obtain ⟨ds', hr', hloop', hfree'⟩ := h'.report
    refine ⟨ds ++ ds', by rw [hr', hr, List.append_assoc], ?_, fun hall hs => ?_⟩
    · rintro ⟨d, hd, hrec⟩
      rcases List.mem_append.mp hd with hd | hd
      · exact (hloop ⟨d, hd, hrec⟩).mono Set.subset_union_left
      · exact (hloop' ⟨d, hd, hrec⟩).mono Set.subset_union_right
    · obtain ⟨hall, hall'⟩ := List.forall_mem_append.mp hall
      obtain ⟨hs', hdone⟩ := hfree hall hs
      obtain ⟨hs'', hdone'⟩ := hfree' hall' hs'
      refine ⟨hs'', ?_⟩
      rintro id (hid | hid)
      · exact h'.kept id (hdone id hid)
      · exact hdone' id hid

end

-- ---------------------------------------------------------------------------
-- Passes that explore
-- ---------------------------------------------------------------------------

/-- If the pass returns, it has looked into the definitions `ids`. Every definition that is
marked when it starts leads to each of them. -/
def Explores (t : ScopeTable) (ids : Set TypeDefId) (p : Pass α) : Prop :=
  ∀ s, Exploring t s → (∀ g, s.scopes.Open g → ∀ id ∈ ids, TransGen t.Refers g id) →
    IfReturns p s fun _ s' => Explored t ids s s'

namespace Explores

variable {t : ScopeTable} {A B : Set TypeDefId} {p : Pass α} {f : α → Pass β}

theorem of_scopes (h : ∀ s, IfReturns p s fun _ s' => s'.scopes = s.scopes ∧
    ∃ ds, s'.report = s.report ++ ds ∧ ∀ d ∈ ds, d.problem.isRecursion = false) :
    Explores t ∅ p := by
  intro s hs _
  refine (h s).imp ?_
  rintro - s' ⟨hsame, ds, hr, hd⟩
  exact .of_scopes hs hsame ds hr hd

theorem pure (a : α) : Explores t ∅ (Pure.pure a : Pass α) :=
  .of_scopes fun s => ⟨rfl, [], by simp⟩

theorem makeType (f : TypeTable → TypeId × TypeTable) : Explores t ∅ (Pass.makeType f) :=
  .of_scopes fun s => ⟨rfl, [], by simp⟩

theorem bind (hp : Explores t A p) (hf : ∀ a, Explores t B (f a)) :
    Explores t (A ∪ B) (p >>= f) := by
  intro s hs hopen
  have hfirst := hp s hs fun g hg id hid => hopen g hg id (.inl hid)
  refine triple_bind.mpr (hfirst.imp fun a s' h => ?_)
  refine (hf a s' h.exploring fun g hg id hid => ?_).imp fun _ _ => h.trans
  exact hopen g ((h.opened g).mp hg) id (.inr hid)

/-- Before something that looks into nothing. -/
theorem before (hp : Explores t A p) (hf : ∀ a, Explores t ∅ (f a)) : Explores t A (p >>= f) :=
  Set.union_empty A ▸ hp.bind hf

/-- After something that looks into nothing. -/
theorem after (hp : Explores t ∅ p) (hf : ∀ a, Explores t B (f a)) : Explores t B (p >>= f) :=
  Set.empty_union B ▸ hp.bind hf

theorem mapM {f : α → Pass β} (h : ∀ a, Explores t ∅ (f a)) (xs : List α) :
    Explores t ∅ (xs.mapM f) := by
  induction xs with
  | nil => exact .pure []
  | cons x xs ih =>
    rw [List.mapM_cons]
    exact (h x).after fun _ => ih.before fun _ => .pure _

end Explores

-- ---------------------------------------------------------------------------
-- Definitions
-- ---------------------------------------------------------------------------

section
variable {t : ScopeTable} {s s' : Session} {id : TypeDefId} {f : TypeDef → TypeDef}

theorem Exploring.mem_defs (h : Exploring t s) : id ∈ s.scopes.defs ↔ id ∈ t.defs := by
  unfold ScopeTable.defs
  simp only [Set.mem_ofPred_eq, h.size]

theorem Exploring.findType? (h : Exploring t s) (scope : ScopeId) (name : String) :
    s.scopes.findType? scope name = t.findType? scope name := by
  rw [← ScopeTable.findType?_withDefs s.scopes t.typeDefs, h.scopes]

/-- What a definition names does not change with what is found out about it. -/
theorem Exploring.mentioned (h : Exploring t s) (id : TypeDefId) :
    t.mentioned id = match (s.scopes.typeDef id).body with
      | .builtin _ => ∅
      | .written expr =>
        t.meant (s.scopes.typeDef id).scope (expr.names (s.scopes.typeDef id).params) := by
  obtain ⟨-, hparams, hbody, hscope, -⟩ := TypeDef.mk.inj (h.fresh id)
  rw [hparams, hbody, hscope]
  rfl

/-- The session with a definition changed. -/
def Session.redefine (s : Session) (id : TypeDefId) (f : TypeDef → TypeDef) : Session :=
  { s with scopes := s.scopes.modifyTypeDef id f }

/-- What is written in a definition stays as it is when it is changed. -/
theorem Exploring.fresh_redefine (h : Exploring t s) (hid : id ∈ t.defs)
    (hf : ∀ d, (f d).fresh = d.fresh) (b : TypeDefId) :
    ((s.redefine id f).scopes.typeDef b).fresh = (t.typeDef b).fresh := by
  rw [Session.redefine, ScopeTable.typeDef_modifyTypeDef (h.mem_defs.mpr hid)]
  split
  · rename_i hb
    rw [hf, hb, h.fresh]
  · exact h.fresh b

/-- A definition whose body is about to be looked into is marked. -/
theorem Exploring.mark (h : Exploring t s) (hid : id ∈ t.defs) (hdone : ¬ s.scopes.Done id) :
    Exploring t (s.markDef id) ∧ (∀ b, (s.markDef id).scopes.Done b ↔ s.scopes.Done b) ∧
      ∀ b, (s.markDef id).scopes.Open b ↔ b = id ∨ s.scopes.Open b := by
  have hget := fun b => ScopeTable.typeDef_modifyTypeDef (b := b) (h.mem_defs.mpr hid)
    (f := ({ · with resolving := true }))
  have hd : ∀ b, (s.markDef id).scopes.Done b ↔ s.scopes.Done b := by
    intro b
    unfold ScopeTable.Done Session.markDef
    rw [hget]
    split
    · rename_i hb
      rw [hb]
    · rfl
  have ho : ∀ b, (s.markDef id).scopes.Open b ↔ b = id ∨ s.scopes.Open b := by
    intro b
    unfold ScopeTable.Open Session.markDef
    rw [hget]
    split <;> simp [*]
  refine ⟨⟨h.scopes, (Array.size_modify ..).trans h.size, h.fresh_redefine hid fun _ => rfl,
    fun b hb => (hd b).mpr (h.kept b hb), fun b hb => ?_, fun a b ha hr => ?_⟩, hd, ho⟩
  · rw [hd]
    rcases (ho b).mp hb with rfl | hb
    · exact hdone
    · exact h.pending b hb
  · rw [hd, ho]
    exact (h.covered a b ((hd a).mp ha) hr).imp_right .inr

/-- A definition is resolved when everything it refers to has been looked into. -/
theorem Exploring.close (h : Exploring t s) (hid : id ∈ t.defs)
    (hfresh : ∀ d, (f d).fresh = d.fresh) (hdone : (f (s.scopes.typeDef id)).resolved.isSome = true)
    (hopen : (f (s.scopes.typeDef id)).resolving = false)
    (hseen : ∀ b, t.Refers id b → s.scopes.Done b ∨ s.scopes.Open b) :
    Exploring t (s.redefine id f) ∧
      (∀ b, (s.redefine id f).scopes.Done b ↔ b = id ∨ s.scopes.Done b) ∧
      ∀ b, (s.redefine id f).scopes.Open b ↔ b ≠ id ∧ s.scopes.Open b := by
  have hget := fun b => ScopeTable.typeDef_modifyTypeDef (b := b) (h.mem_defs.mpr hid) (f := f)
  have hd : ∀ b, (s.redefine id f).scopes.Done b ↔ b = id ∨ s.scopes.Done b := by
    intro b
    unfold ScopeTable.Done Session.redefine
    rw [hget]
    split <;> simp [*]
  have ho : ∀ b, (s.redefine id f).scopes.Open b ↔ b ≠ id ∧ s.scopes.Open b := by
    intro b
    unfold ScopeTable.Open Session.redefine
    rw [hget]
    split <;> simp [*]
  refine ⟨⟨h.scopes, (Array.size_modify ..).trans h.size, h.fresh_redefine hid hfresh,
    fun b hb => (hd b).mpr (.inr (h.kept b hb)), fun b hb => ?_, fun a b ha hr => ?_⟩, hd, ho⟩
  · rw [hd, not_or]
    obtain ⟨hne, hb⟩ := (ho b).mp hb
    exact ⟨hne, h.pending b hb⟩
  · rw [hd, ho]
    have hb : s.scopes.Done b ∨ s.scopes.Open b := by
      rcases (hd a).mp ha with rfl | ha
      · exact hseen b hr
      · exact h.covered a b ha hr
    by_cases hne : b = id
    · exact .inl (.inl hne)
    · exact hb.imp .inr fun hb => ⟨hne, hb⟩

/-- Nothing that has been resolved leads to a definition that is resolved only now, so it is
not on a cycle if what it refers to has been resolved. -/
theorem CycleFree.close (h : CycleFree t s) (hdone : ¬ s.scopes.Done id)
    (hd : ∀ b, s'.scopes.Done b ↔ b = id ∨ s.scopes.Done b)
    (hr : ∀ b, t.Refers id b → s.scopes.Done b) : CycleFree t s' := by
  intro a ha
  rcases (hd a).mp ha with rfl | ha
  · refine ⟨fun b hb => (hd b).mpr (.inr (hr b hb)), fun hcycle => ?_⟩
    obtain ⟨b, hb, hpath⟩ := TransGen.head'_iff.mp hcycle
    exact hdone (h.done_of_path (hr b hb) hpath)
  · obtain ⟨hrefers, hcycle⟩ := h a ha
    exact ⟨fun b hb => (hd b).mpr (.inr (hrefers b hb)), hcycle⟩

/-- A builtin definition refers to nothing. -/
theorem Explored.builtin (h : Exploring t s) (hb : (s.scopes.typeDef id).body = .builtin type)
    (hdone : ¬ s.scopes.Done id) (hopen : ¬ s.scopes.Open id) (hfresh : ∀ d, (f d).fresh = d.fresh)
    (hsome : ∀ d, (f d).resolved.isSome = true)
    (hsame : ∀ d, (f d).resolving = d.resolving) :
    Explored t ({id} ∩ t.defs) s (s.redefine id f) := by
  by_cases hid : id ∈ t.defs
  · have hnone : ∀ b, ¬ t.Refers id b := by
      rintro b ⟨-, hr⟩
      rw [ScopeTable.Mentions, h.mentioned, hb] at hr
      exact hr
    obtain ⟨hexploring, hd, ho⟩ := h.close hid hfresh (hsome _)
      ((hsame _).trans (Bool.eq_false_of_not_eq_true hopen)) fun b hb => absurd hb (hnone b)
    refine ⟨hexploring, fun b => (ho b).trans (and_iff_right_of_imp ?_),
      fun b hb => (hd b).mpr (.inr hb), fun b hb => .inl ((hd b).mpr (.inl hb.1)), [],
      (List.append_nil _).symm, by simp, fun _ hfree => ⟨?_, fun b hb => (hd b).mpr (.inl hb.1)⟩⟩
    · rintro hmarked rfl
      exact hopen hmarked
    · exact hfree.close hdone hd fun b hb => absurd hb (hnone b)
  · have hnone : ({id} ∩ t.defs : Set TypeDefId) = ∅ :=
      Set.eq_empty_of_forall_notMem fun b hb => hid (hb.1 ▸ hb.2)
    rw [hnone]
    refine .of_scopes h ?_ [] (List.append_nil _).symm nofun
    exact ScopeTable.modifyTypeDef_of_not_mem fun hs => hid (h.mem_defs.mp hs)

/-- What happened while a definition was marked has looked into the definition when that is
over. -/
theorem Explored.close (h : Exploring t s) (hid : id ∈ t.defs) (hdone : ¬ s.scopes.Done id)
    (hopen : ¬ s.scopes.Open id) (hx : Explored t (t.mentioned id) (s.markDef id) s')
    (hfresh : ∀ d, (f d).fresh = d.fresh) (hsome : ∀ d, (f d).resolved.isSome = true)
    (hclear : ∀ d, (f d).resolving = false) :
    Explored t ({id} ∩ t.defs) s (s'.redefine id f) := by
  obtain ⟨-, hmarked, hmarked'⟩ := h.mark hid hdone
  have hrefers : ∀ b ∈ t.mentioned id, t.Refers id b := fun b hb =>
    ⟨fun hd => hdone (h.kept id hd), hb⟩
  obtain ⟨hexploring, hd, ho⟩ := hx.exploring.close hid hfresh (hsome _) (hclear _)
    fun b hb => hx.seen b hb.2
  have hdone' : ¬ s'.scopes.Done id :=
    hx.exploring.pending id ((hx.opened id).mpr ((hmarked' id).mpr (.inl rfl)))
  refine ⟨hexploring, fun b => ?_, fun b hb => ?_, fun b hb => .inl ((hd b).mpr (.inl hb.1)), ?_⟩
  · rw [ho, hx.opened, hmarked']
    constructor
    · rintro ⟨hne, rfl | hb⟩
      · exact absurd rfl hne
      · exact hb
    · intro hb
      exact ⟨fun he => hopen (he ▸ hb), .inr hb⟩
  · exact (hd b).mpr (.inr (hx.kept b ((hmarked b).mpr hb)))
  · obtain ⟨ds, hr, hloop, hfree⟩ := hx.report
    refine ⟨ds, hr, fun hrec => ?_, fun hall hs => ?_⟩
    · have hdef : ({id} : Set TypeDefId) ⊆ t.defs := Set.singleton_subset_iff.mpr hid
      exact ((hloop hrec).through hrefers).mono (Set.subset_inter Set.Subset.rfl hdef)
    · obtain ⟨hs', hbody⟩ := hfree hall (hs.congr hmarked)
      exact ⟨hs'.close hdone' hd fun b hb => hbody b hb.2, fun b hb => (hd b).mpr (.inl hb.1)⟩

end

namespace Typing

open Pass

variable {t : ScopeTable} {define : Define} {scope : ScopeId} {env : ParamEnv}

theorem isSome_lookup (env : ParamEnv) (name : String) :
    (env.lookup name).isSome = (env.map (·.1)).contains name := by
  rw [Bool.eq_iff_iff, List.lookup_isSome_iff, List.contains_iff_mem, List.mem_map]
  exact exists_congr fun x => and_congr_right fun _ => beq_iff_eq.trans eq_comm

theorem explores_resolveNamed
    (hd : ∀ id position, Explores t ({id} ∩ t.defs) (define id position)) (name : String)
    (args : List TypeId) (position : Position) :
    Explores t (t.meant scope [name]) (resolveNamed define scope name args position) := by
  intro s hs hopen
  unfold resolveNamed
  rw [IfReturns, triple_bind, triple_lookUp, hs.findType?]
  cases hfind : t.findType? scope name with
  | error fault => trivial
  | ok found =>
    cases found with
    | none =>
      rw [ScopeTable.meant_unknown hfind]
      exact .of_scopes hs rfl [_] rfl (by simp [Problem.isRecursion, Diagnostic.error])
    | some id =>
      rw [ScopeTable.meant_known hfind] at hopen ⊢
      refine Explores.before (hd id position) (fun body => ?_) s hs hopen
      cases body with
      | none => exact .pure _
      | some body =>
        refine Explores.after (.of_scopes fun s => ⟨rfl, [], by simp⟩) fun scopes => ?_
        dsimp only
        split
        · exact .pure _
        · exact .makeType _

mutual

theorem explores_resolveIn
    (hd : ∀ id position, Explores t ({id} ∩ t.defs) (define id position)) :
    (expr : TypeExpr) → Explores t (t.meant scope (expr.names (env.map (·.1))))
      (resolveIn define scope env expr)
  | .name name args position => by
    unfold resolveIn
    split
    · rename_i param hparam
      have hnames : (TypeExpr.name name [] position).names (env.map (·.1)) = [] := by
        rw [TypeExpr.names, ← isSome_lookup, hparam]
        rfl
      rw [hnames, ScopeTable.meant_nil]
      exact .pure param
    · rename_i args _ _ hhead
      have hmem : (args.isEmpty && (env.map (·.1)).contains name) = false := by
        rw [← isSome_lookup]
        cases args with
        | nil =>
          cases hl : env.lookup name with
          | none => rfl
          | some param => exact (hhead param rfl hl).elim
        | cons arg args => rfl
      rw [TypeExpr.names, hmem, if_neg (by decide), ScopeTable.meant_append]
      exact (explores_resolveList hd args).bind fun _ => explores_resolveNamed hd name _ position
  | .list element length => by
    unfold resolveIn TypeExpr.names
    exact (explores_resolveIn hd element).before fun _ => .makeType _
  | .tuple fields => by
    unfold resolveIn TypeExpr.names
    exact (explores_resolveFields hd fields).before fun _ => .makeType _
  | .reference target => by
    unfold resolveIn TypeExpr.names
    exact (explores_resolveIn hd target).before fun _ => .makeType _
  | .func arguments result => by
    unfold resolveIn TypeExpr.names
    rw [ScopeTable.meant_append]
    exact (explores_resolveList hd arguments).bind fun _ => (Explores.makeType _).after fun _ =>
      (explores_resolveIn hd result).before fun _ => .makeType _

theorem explores_resolveList
    (hd : ∀ id position, Explores t ({id} ∩ t.defs) (define id position)) :
    (exprs : List TypeExpr) →
      Explores t (t.meant scope (TypeExpr.namesOfList (env.map (·.1)) exprs))
        (resolveList define scope env exprs)
  | [] => by
    unfold resolveList TypeExpr.namesOfList
    rw [ScopeTable.meant_nil]
    exact .pure []
  | expr :: exprs => by
    unfold resolveList TypeExpr.namesOfList
    rw [ScopeTable.meant_append]
    exact (explores_resolveIn hd expr).bind fun _ =>
      (explores_resolveList hd exprs).before fun _ => .pure _

theorem explores_resolveFields
    (hd : ∀ id position, Explores t ({id} ∩ t.defs) (define id position)) :
    (fields : List (Option String × TypeExpr)) →
      Explores t (t.meant scope (TypeExpr.namesOfFields (env.map (·.1)) fields))
        (resolveFields define scope env fields)
  | [] => by
    unfold resolveFields TypeExpr.namesOfFields
    rw [ScopeTable.meant_nil]
    exact .pure []
  | (name, expr) :: fields => by
    unfold resolveFields TypeExpr.namesOfFields
    rw [ScopeTable.meant_append]
    exact (explores_resolveIn hd expr).bind fun _ =>
      (explores_resolveFields hd fields).before fun _ => .pure _

end

/-- Type parameters are called as they are written. -/
theorem makeParams_names (names : List String) (s : Session) :
    IfReturns (makeParams names) s fun env _ => env.map (·.1) = names := by
  unfold makeParams
  induction names generalizing s with
  | nil => exact (triple_mapM_nil (E := fun _ _ => True)).mpr rfl
  | cons name names ih =>
    refine triple_mapM_cons.mpr ?_
    simp only [triple_bind, triple_makeType, triple_pure]
    exact (ih _).imp fun env _ h => by rw [List.map_cons, h]

theorem explores_makeParams (names : List String) : Explores t ∅ (makeParams names) :=
  .mapM (fun _ => (Explores.makeType _).before fun _ => .pure _) names

theorem explores_resolveDef (depth : Nat) (id : TypeDefId) (position : Position) :
    Explores t ({id} ∩ t.defs) (resolveDef depth id position) := by
  induction depth generalizing id position with
  | zero => exact fun s _ _ => trivial
  | succ depth ih =>
    intro s hs hopen
    unfold resolveDef
    simp only [IfReturns, triple_bind, triple_scopes]
    cases hr : (s.scopes.typeDef id).resolved with
    | some body =>
      have hdone : s.scopes.Done id := by simp [ScopeTable.Done, hr]
      exact .of_done hs fun b hb => hb.1 ▸ hdone
    | none =>
      have hdone : ¬ s.scopes.Done id := by simp [ScopeTable.Done, hr]
      simp only
      cases hm : (s.scopes.typeDef id).resolving with
      | true =>
        have hid : id ∈ t.defs := hs.mem_defs.mp (ScopeTable.mem_defs_of_open hm)
        exact .recursion hs hm (hopen id hm id ⟨rfl, hid⟩) _ rfl rfl hid
      | false =>
        simp only [Bool.false_eq_true, ↓reduceIte]
        have hclosed : ¬ s.scopes.Open id := by simp [ScopeTable.Open, hm]
        cases hb : (s.scopes.typeDef id).body with
        | builtin type =>
          exact .builtin hs hb hdone hclosed (fun _ => rfl) (fun _ => rfl) fun _ => rfl
        | written expr =>
          have hid : id ∈ t.defs := hs.mem_defs.mp (ScopeTable.mem_defs_of_written hb)
          have hbody : t.mentioned id = t.meant (s.scopes.typeDef id).scope
              (expr.names (s.scopes.typeDef id).params) := by rw [hs.mentioned, hb]
          generalize s.scopes.typeDef id = d at hbody
          obtain ⟨hmarked, -, ho⟩ := hs.mark hid hdone
          have hleads : ∀ g, (s.markDef id).scopes.Open g → ∀ b ∈ t.mentioned id,
              TransGen t.Refers g b := by
            intro g hg b hb
            have hrefers : t.Refers id b := ⟨fun hd => hdone (hs.kept id hd), hb⟩
            rcases (ho g).mp hg with rfl | hg
            · exact .single hrefers
            · exact .tail (hopen g hg id ⟨rfl, hid⟩) hrefers
          have hinner : IfReturns (makeParams d.params) (s.markDef id) fun env s₁ =>
              IfReturns (resolveIn (resolveDef depth) d.scope env expr) s₁ fun _ s₂ =>
                Explored t (t.mentioned id) (s.markDef id) s₂ := by
            refine ((explores_makeParams d.params _ hmarked fun _ _ id h =>
              absurd h (Set.notMem_empty id)).and (makeParams_names d.params _)).imp ?_
            rintro env s₁ ⟨hx, hnames⟩
            have hbody' : Explores t (t.meant d.scope (expr.names (env.map (·.1))))
                (resolveIn (resolveDef depth) d.scope env expr) := explores_resolveIn ih expr
            rw [hnames, ← hbody] at hbody'
            refine (hbody' s₁ hx.exploring fun g hg => hleads g ((hx.opened g).mp hg)).imp
              fun _ s₂ hx' => ?_
            exact Set.empty_union (t.mentioned id) ▸ hx.trans hx'
          simp only [triple_bind, triple_modify]
          exact hinner.imp fun env s₁ h => h.imp fun body s₂ hx =>
            hx.close hs hid hdone hclosed (fun _ => rfl) (fun _ => rfl) fun _ => rfl

theorem explores_resolveTypeDef (id : TypeDefId) (position : Position) :
    Explores t ({id} ∩ t.defs) (resolveTypeDef id position) := by
  intro s hs hopen
  unfold resolveTypeDef
  simp only [IfReturns, triple_bind, triple_scopes]
  exact explores_resolveDef (s.scopes.typeDefs.size + 1) id position s hs hopen

/-- Resolving a written type comes to its end, with no definition marked. Every definition is
resolved then that references lead to from those it names, and one that refers to itself has
been reported if and only if they lead to one on a cycle. References go out of definitions
that were not resolved before. -/
theorem resolveType_reaches {s : Session} (hs : s.Scoped) (hscope : s.scopes.Has scope)
    (hidle : ∀ id, (s.scopes.typeDef id).resolving = false) (expr : TypeExpr) :
    ∃ type s' ds, (resolveType scope expr).start s = (.ok type, s') ∧
      (∀ id, (s'.scopes.typeDef id).resolving = false) ∧
      (∀ first ∈ s.scopes.meant scope (expr.names []), ∀ id,
        ReflTransGen s.scopes.Refers first id →
        (s'.scopes.typeDef id).resolved.isSome = true) ∧
      s'.report = s.report ++ ds ∧
      ((∃ d ∈ ds, d.problem.isRecursion = true) ↔
        ∃ first ∈ s.scopes.meant scope (expr.names []), ∃ id,
          ReflTransGen s.scopes.Refers first id ∧ TransGen s.scopes.Refers id id) := by
  have hidle' : ∀ id, ¬ s.scopes.Open id := fun id => by simp [ScopeTable.Open, hidle]
  have hstart : Exploring s.scopes s :=
    ⟨rfl, rfl, fun _ => rfl, fun _ h => h, fun id h => absurd h (hidle' id),
      fun a _ ha hr => absurd ha hr.1⟩
  have hfree : CycleFree s.scopes s := by
    refine fun a ha => ⟨fun b hr => absurd ha hr.1, fun hcycle => ?_⟩
    obtain ⟨b, hr, -⟩ := TransGen.head'_iff.mp hcycle
    exact hr.1 ha
  have hreturns := learner_resolveType (N := fun _ => False) (G := (·.Has scope)) (fun _ h => h)
    expr s hs hscope
  have hexplores : Explores s.scopes (s.scopes.meant scope (expr.names (([] : ParamEnv).map (·.1))))
      (resolveIn resolveTypeDef scope [] expr) := explores_resolveIn explores_resolveTypeDef expr
  obtain ⟨type, s', hrun, -, hx⟩ := Returns.exists (hreturns.and
    (hexplores s hstart fun g hg => absurd hg (hidle' g)))
  obtain ⟨ds, hreport, hloop, hclean⟩ := hx.report
  have hclosed : ∀ id, ¬ s'.scopes.Open id := fun id h => hidle' id ((hx.opened id).mp h)
  have hdone : ∀ first ∈ s.scopes.meant scope (expr.names []), ∀ id,
      ReflTransGen s.scopes.Refers first id → s'.scopes.Done id := by
    intro first hfirst id hpath
    induction hpath with
    | refl => exact (hx.seen first hfirst).resolve_right (hclosed first)
    | tail _ hr ih => exact (hx.exploring.covered _ _ ih hr).resolve_right (hclosed _)
  refine ⟨type, s', ds, hrun, fun id => Bool.eq_false_of_not_eq_true (hclosed id), hdone, hreport,
    hloop, ?_⟩
  rintro ⟨first, hfirst, id, hpath, hcycle⟩
  by_contra hnone
  have hall : ∀ d ∈ ds, d.problem.isRecursion = false := fun d hd =>
    Bool.eq_false_of_not_eq_true fun hrec => hnone ⟨d, hd, hrec⟩
  exact ((hclean hall hfree).1 id (hdone first hfirst id hpath)).2 hcycle

/-- Two layers, of which the second one imports the first. Each defines a type by the name of
the other's. -/
def layered : Session where
  tree := .empty
  types := .initial
  scopes := {
    scopes := #[⟨.universal, none, [], [], []⟩,
      ⟨.publicLayer, some ⟨0⟩, [], [("D", ⟨0⟩)], []⟩,
      ⟨.publicLayer, some ⟨0⟩, [], [("E", ⟨1⟩)], [⟨1⟩]⟩]
    visiting := #[false, false, false]
    typeDefs := #[.new "D" [] (.written (.name "E" [] .null)) ⟨1⟩ .null,
      .new "E" [] (.written (.name "D" [] .null)) ⟨2⟩ .null] }
  decls := #[]
  values := .empty
  temps := #[]
  report := []
  modules := #[]
  universal := ⟨0⟩
  entrySymbol := "main"

/-- The first layer imports the second, too. -/
def importBack (s : Session) : Session :=
  match s.scopes.addImport ⟨1⟩ ⟨2⟩ with
  | .ok scopes => { s with scopes }
  | .error _ => s

theorem scoped_layered : layered.Scoped := by
  have hscopes : ∀ scope ∈ layered.scopes.scopes, (∀ p, scope.parent = some p →
      layered.scopes.Has p) ∧ ∀ e ∈ scope.imports, layered.scopes.Has e := by
    simp [layered, ScopeTable.Has]
  have hdefs : ∀ d ∈ layered.scopes.typeDefs, layered.scopes.Has d.scope := by
    simp [layered, ScopeTable.Has, TypeDef.new]
  have hclosed : layered.scopes.Closed :=
    ⟨fun i scope h => (hscopes scope (Array.mem_of_getElem? h)).1,
      fun i scope h => (hscopes scope (Array.mem_of_getElem? h)).2,
      fun i d h => hdefs d (Array.mem_of_getElem? h)⟩
  exact .of_closed hclosed (by decide) rfl rfl

theorem scoped_importBack {s : Session} (hs : s.Scoped) (h₁ : s.scopes.Has ⟨1⟩)
    (h₂ : s.scopes.Has ⟨2⟩) : (importBack s).Scoped := by
  obtain ⟨scopes, hadd, hclosed, hsize, -⟩ := ScopeTable.exists_addImport hs.closed h₁ h₂
  unfold importBack
  rw [hadd]
  exact hs.withScopes hclosed hsize

/-- The two definitions refer to each other. -/
theorem resolveType_reaches_ring :
    ((importBack layered).Scoped ∧ (importBack layered).scopes.Has ⟨2⟩ ∧
      ∀ id, ((importBack layered).scopes.typeDef id).resolving = false) ∧
    ∃ type s', (resolveType ⟨2⟩ (.name "E" [] .null)).start (importBack layered) = (.ok type, s') ∧
      ∃ d ∈ s'.report, d.problem.isRecursion = true := by
  have hscoped := scoped_importBack scoped_layered (by decide) (by decide)
  have hidle := (importBack layered).scopes.not_open_of_all (by decide +kernel)
  have hhas : (importBack layered).scopes.Has ⟨2⟩ := by decide
  have hdefs : ∀ i, i < 2 → ⟨i⟩ ∈ (importBack layered).scopes.defs := fun i hi => hi
  have hE : ⟨1⟩ ∈ (importBack layered).scopes.meant ⟨2⟩ ["E"] :=
    ⟨⟨"E", List.mem_cons_self, by decide +kernel⟩, hdefs 1 (by decide)⟩
  have hDE : (importBack layered).scopes.Refers ⟨0⟩ ⟨1⟩ := ⟨nofun,
    ScopeTable.mentions_of_written rfl List.mem_cons_self (by decide +kernel) (hdefs 1 (by decide))⟩
  have hED : (importBack layered).scopes.Refers ⟨1⟩ ⟨0⟩ := ⟨nofun,
    ScopeTable.mentions_of_written rfl List.mem_cons_self (by decide +kernel) (hdefs 0 (by decide))⟩
  obtain ⟨type, s', ds, hrun, -, -, hreport, hiff⟩ :=
    resolveType_reaches hscoped hhas hidle (.name "E" [] .null)
  obtain ⟨d, hd, hrec⟩ := hiff.mpr ⟨⟨1⟩, hE, ⟨1⟩, .refl, .tail (.single hED) hDE⟩
  exact ⟨⟨hscoped, hhas, hidle⟩, type, s', hrun, d, by simp [hreport, hd], hrec⟩

/-- The first layer imports the second only when its definition is resolved already. -/
def lateRing : Session :=
  importBack ((resolveType ⟨2⟩ (.name "D" [] .null)).start layered).2

theorem scoped_lateRing : lateRing.Scoped ∧ lateRing.scopes.Has ⟨2⟩ := by
  have hthird : layered.scopes.Has ⟨2⟩ := by decide
  obtain ⟨type, s', hrun, hlearns⟩ := Returns.exists (learner_resolveType (N := fun _ => False)
    (G := (·.Has ⟨2⟩)) (fun _ h => h) (.name "D" [] .null) layered scoped_layered hthird)
  have hscopes : s'.scopes.scopes = layered.scopes.scopes := congrArg Names.scopes hlearns.names
  have hhas : ∀ i, i < 3 → s'.scopes.Has ⟨i⟩ := fun i hi => by
    rw [ScopeTable.Has, hscopes]
    exact hi
  have hlate : lateRing = importBack s' := by rw [lateRing, hrun]
  refine ⟨?_, by decide +kernel⟩
  rw [hlate]
  exact scoped_importBack (hlearns.scoped scoped_layered) (hhas 1 (by decide)) (hhas 2 (by decide))

/-- A definition that was resolved before is not looked into again, even if what its body
names has changed since. A cycle through it is not found. -/
theorem not_resolveType_reaches_mentions : ¬ ∀ (s : Session) (scope : ScopeId) (expr : TypeExpr),
    s.Scoped → s.scopes.Has scope → (∀ id, (s.scopes.typeDef id).resolving = false) →
    ∃ type s' ds, (resolveType scope expr).start s = (.ok type, s') ∧
      s'.report = s.report ++ ds ∧
      ((∃ d ∈ ds, d.problem.isRecursion = true) ↔
        ∃ first ∈ s.scopes.meant scope (expr.names []), ∃ id, ¬ s.scopes.Done id ∧
          ReflTransGen s.scopes.Mentions first id ∧ TransGen s.scopes.Mentions id id) := by
  intro h
  obtain ⟨hscoped, hhas⟩ := scoped_lateRing
  obtain ⟨type, s', ds, hrun, hreport, hiff⟩ := h lateRing ⟨2⟩ (.name "E" [] .null) hscoped hhas
    (lateRing.scopes.not_open_of_all (by decide +kernel))
  have hsilent : (((resolveType ⟨2⟩ (.name "E" [] .null)).start lateRing).2.report.all
      fun d => !d.problem.isRecursion) = true := by decide +kernel
  have hdefs : ∀ i, i < 2 → ⟨i⟩ ∈ lateRing.scopes.defs := by decide +kernel
  have hE : ⟨1⟩ ∈ lateRing.scopes.meant ⟨2⟩ ["E"] :=
    ⟨⟨"E", List.mem_cons_self, by decide +kernel⟩, hdefs 1 (by decide)⟩
  have hDE : lateRing.scopes.Mentions ⟨0⟩ ⟨1⟩ :=
    ScopeTable.mentions_of_written rfl List.mem_cons_self (by decide +kernel) (hdefs 1 (by decide))
  have hED : lateRing.scopes.Mentions ⟨1⟩ ⟨0⟩ :=
    ScopeTable.mentions_of_written rfl List.mem_cons_self (by decide +kernel) (hdefs 0 (by decide))
  obtain ⟨d, hd, hrec⟩ := hiff.mpr ⟨⟨1⟩, hE, ⟨1⟩, by decide +kernel, .refl, .tail (.single hED) hDE⟩
  rw [hrun, hreport, List.all_append, Bool.and_eq_true] at hsilent
  have hnot := List.all_eq_true.mp hsilent.2 d hd
  rw [hrec] at hnot
  cases hnot

end Typing
end BlockLang
