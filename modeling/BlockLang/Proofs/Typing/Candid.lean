import BlockLang.Proofs.Scope.Listed
import BlockLang.Proofs.Session.Build
import BlockLang.Proofs.Tree.Edit
import BlockLang.Proofs.Types.Clean
import BlockLang.Typing.Fact

/-!
# Passes that own up

A session is clean if nothing that has been found out in it is wrong. A pass is candid if it
leaves a clean session clean, or else has reported something that makes the program unusable.
Such a report is never taken back.
-/

namespace BlockLang

/-- Nothing wrong is known of a declaration, and something is if it is ready. -/
structure Decl.Clean (t : TypeTable) (d : Decl) : Prop where
  type : ∀ type, d.type = some type → t.Clean type
  ready : d.ready = true → d.type.isSome = true
  builtin : ∀ op, d.kind = .builtin op → d.type.isSome = true

/-- A definition stands for nothing wrong, and has been given parameters that differ. -/
structure TypeDef.Clean (t : TypeTable) (d : TypeDef) : Prop where
  builtin : ∀ type, d.body = .builtin type → t.Clean type
  resolved : ∀ type, d.resolved = some type → t.Clean type
  params : (∀ p ∈ d.paramTypes, t.Has p) ∧ d.paramTypes.Nodup

/-- Nothing wrong has been found out. Only signatures of `busy` are being computed. -/
structure Session.Clean (busy : DeclId → Prop) (s : Session) : Prop where
  built : s.types.Built
  nodes : ∀ id type, (s.tree.facts id).type = some type → s.types.Clean type
  decls : ∀ id, (s.decl id).Clean s.types
  resolving : ∀ id, (s.decl id).resolving = true → busy id
  listed : s.scopes.Listed
  typeDefs : ∀ id : TypeDefId, id.index < s.scopes.typeDefs.size →
    (s.scopes.typeDef id).Clean s.types

/-- Nothing is different of what makes a session clean, and nothing has been reported. -/
structure Session.Untouched (s s' : Session) : Prop where
  types : s'.types = s.types
  tree : s.tree.Grows s'.tree
  decls : s'.decls = s.decls
  scopes : s'.scopes = s.scopes
  report : s'.report = s.report

/-- Types have been added, and definitions, but none have been lost. -/
structure Session.Widens (s s' : Session) : Prop where
  types : s.types.Extends s'.types
  typeDefs : s.scopes.typeDefs.size ≤ s'.scopes.typeDefs.size

section
variable {busy : DeclId → Prop} {s s' s'' : Session} {t u : TypeTable}

theorem getD_modify [Inhabited α] (xs : Array α) (i j : Nat) (f : α → α) :
    (xs.modify i f)[j]?.getD default =
      if j = i ∧ i < xs.size then f (xs[i]?.getD default) else xs[j]?.getD default := by
  rw [Array.getElem?_modify]
  by_cases hj : j = i
  · subst hj
    by_cases hlt : j < xs.size
    · simp [hlt]
    · simp [hlt]
  · simp [hj, Ne.symm hj]

theorem Decl.Clean.extends {d : Decl} (h : d.Clean t) (hu : t.Extends u) : d.Clean u :=
  ⟨fun type ht => (h.type type ht).extends hu, h.ready, h.builtin⟩

theorem TypeDef.Clean.extends {d : TypeDef} (h : d.Clean t) (hu : t.Extends u) : d.Clean u :=
  ⟨fun type ht => (h.builtin type ht).extends hu, fun type ht => (h.resolved type ht).extends hu,
    fun p hp => hu.has (h.params.1 p hp), h.params.2⟩

namespace Session

/-- A node that is new has no type. -/
theorem type_grows {id : NodeId} {type : TypeId} (hg : s.tree.Grows s'.tree)
    (h : (s'.tree.facts id).type = some type) : (s.tree.facts id).type = some type := by
  have hlt' : id.index < s'.tree.size := by
    by_contra hge
    rw [Arena.facts, Arena.get, Table.getElem?_eq_none (Nat.le_of_not_lt hge)] at h
    cases h
  obtain ⟨l, hl⟩ := Arena.exists_label hlt'
  by_cases hlt : id.index < s.tree.size
  · rwa [← hg.labels.facts hlt]
  · rw [Arena.facts_of_label hl, hg.fresh id l (Nat.le_of_not_lt hlt) hl] at h
    cases h

theorem Widens.of_eq (ht : s'.types = s.types) (hs : s'.scopes = s.scopes) : s.Widens s' :=
  ⟨ht ▸ .refl _, hs ▸ Nat.le_refl _⟩

theorem Widens.refl (s : Session) : s.Widens s := .of_eq rfl rfl

theorem Widens.trans (h : s.Widens s') (h' : s'.Widens s'') : s.Widens s'' :=
  ⟨h.types.trans h'.types, Nat.le_trans h.typeDefs h'.typeDefs⟩

theorem Untouched.widens (h : s.Untouched s') : s.Widens s' := .of_eq h.types h.scopes

theorem Untouched.hurt (h : s.Untouched s') (hs : s.Hurt) : s'.Hurt := by
  rwa [Hurt, h.report]

theorem decl_congr (h : s'.decls = s.decls) (id : DeclId) : s'.decl id = s.decl id := by
  rw [decl, decl, h]

theorem Untouched.clean (h : s.Untouched s') (hs : s.Clean busy) : s'.Clean busy where
  built := h.types ▸ hs.built
  nodes := fun id type ht => h.types ▸ hs.nodes id type (type_grows h.tree ht)
  decls := fun id => by rw [decl_congr h.decls, h.types]; exact hs.decls id
  resolving := fun id => by rw [decl_congr h.decls]; exact hs.resolving id
  listed := h.scopes ▸ hs.listed
  typeDefs := by rw [h.scopes, h.types]; exact hs.typeDefs

/-- Only the tree is another one, with nodes that nothing is known of. -/
theorem Untouched.of_grows {tree : Arena} (h : s.tree.Grows tree) :
    s.Untouched { s with tree } := ⟨rfl, h, rfl, rfl, rfl⟩

theorem decl_modifyDecl (s : Session) (id other : DeclId) (f : Decl → Decl) :
    (s.modifyDecl id f).decl other =
      if other.index = id.index ∧ id.index < s.decls.size then f (s.decl id) else s.decl other :=
  getD_modify s.decls id.index other.index f

/-- A declaration is changed into a clean one. Whether its signature is being computed may
change too. -/
theorem Clean.modifyDecl {busy' : DeclId → Prop} {id : DeclId} {f : Decl → Decl}
    (h : s.Clean busy) (hf : (f (s.decl id)).Clean s.types)
    (hid : (f (s.decl id)).resolving = true → busy' id)
    (hother : ∀ other, other ≠ id → busy other → busy' other) :
    (s.modifyDecl id f).Clean busy' where
  built := h.built
  nodes := h.nodes
  decls := by
    intro other
    rw [decl_modifyDecl]
    split
    · exact hf
    · exact h.decls other
  resolving := by
    intro other hresolving
    rw [decl_modifyDecl] at hresolving
    split at hresolving
    · next hsame =>
      obtain rfl : other = id := congrArg DeclId.mk hsame.1
      exact hid hresolving
    · next hnot =>
      refine hother other (fun he => hnot ⟨congrArg _ he, ?_⟩) (h.resolving other hresolving)
      by_contra hlt
      rw [he, decl, Array.getElem?_eq_none (Nat.le_of_not_lt hlt)] at hresolving
      cases hresolving
  listed := h.listed
  typeDefs := h.typeDefs

theorem Clean.modifyTypeDef {id : TypeDefId} {f : TypeDef → TypeDef} (h : s.Clean busy)
    (hf : ∀ d : TypeDef, d.Clean s.types → (f d).Clean s.types) :
    Session.Clean busy { s with scopes := s.scopes.modifyTypeDef id f } where
  built := h.built
  nodes := h.nodes
  decls := h.decls
  resolving := h.resolving
  listed := h.listed.modifyTypeDef id f
  typeDefs := by
    intro other hother
    have hlt : other.index < s.scopes.typeDefs.size := by
      simpa [ScopeTable.modifyTypeDef] using hother
    have hget := getD_modify s.scopes.typeDefs id.index other.index f
    change ((s.scopes.typeDefs.modify id.index f)[other.index]?.getD default).Clean s.types
    rw [hget]
    split
    · next hsame =>
      obtain rfl : other = id := congrArg TypeDefId.mk hsame.1
      exact hf _ (h.typeDefs other hlt)
    · exact h.typeDefs other hlt

theorem Clean.withTypes {types : TypeTable} (h : s.Clean busy) (hb : types.Built)
    (he : s.types.Extends types) : Session.Clean busy { s with types } where
  built := hb
  nodes := fun id type ht => (h.nodes id type ht).extends he
  decls := fun id => (h.decls id).extends he
  resolving := h.resolving
  listed := h.listed
  typeDefs := fun id hid => (h.typeDefs id hid).extends he

theorem facts_annotate (a : Arena) (id other : NodeId) (f : Facts → Facts) :
    (a.annotate id f).facts other =
      if other = id ∧ id.index < a.size then f (a.facts other) else a.facts other :=
  (congrArg Node.facts (Arena.get_modify _)).trans (apply_ite Node.facts ..)

/-- A node gets a clean type or none. -/
theorem Clean.annotate {id : NodeId} {f : Facts → Facts} (h : s.Clean busy)
    (hf : ∀ type, (f (s.tree.facts id)).type = some type → s.types.Clean type) :
    Session.Clean busy { s with tree := s.tree.annotate id f } where
  built := h.built
  nodes := by
    intro other type ht
    rw [facts_annotate] at ht
    split at ht
    · next hsame => exact hf type (hsame.1 ▸ ht)
    · exact h.nodes other type ht
  decls := h.decls
  resolving := h.resolving
  listed := h.listed
  typeDefs := h.typeDefs

end Session

-- ---------------------------------------------------------------------------
-- What lasts
-- ---------------------------------------------------------------------------

/-- What holds of a session still holds when there are more types and definitions. -/
class Lasting (P : Session → Prop) : Prop where
  lasts : ∀ {s s' : Session}, s.Widens s' → P s → P s'

namespace Lasting

variable {P Q : Session → Prop}

instance const (p : Prop) : Lasting fun _ => p := ⟨fun _ h => h⟩

instance and [Lasting P] [Lasting Q] : Lasting fun s => P s ∧ Q s :=
  ⟨fun hr h => ⟨lasts hr h.1, lasts hr h.2⟩⟩

instance all {ι : Sort*} {P : ι → Session → Prop} [∀ i, Lasting (P i)] :
    Lasting fun s => ∀ i, P i s := ⟨fun hr h i => lasts hr (h i)⟩

instance any {ι : Sort*} {P : ι → Session → Prop} [∀ i, Lasting (P i)] :
    Lasting fun s => ∃ i, P i s := ⟨fun hr ⟨i, h⟩ => ⟨i, lasts hr h⟩⟩

instance ofImp {p : Prop} [Lasting P] : Lasting fun s => p → P s :=
  ⟨fun hr h hp => lasts hr (h hp)⟩

instance clean (type : TypeId) : Lasting fun s => s.types.Clean type :=
  ⟨fun hr h => h.extends hr.types⟩

instance has (type : TypeId) : Lasting fun s => s.types.Has type := ⟨fun hr h => hr.types.has h⟩

instance decl (d : Decl) : Lasting fun s => d.Clean s.types := ⟨fun hr h => h.extends hr.types⟩

instance typeDef (d : TypeDef) : Lasting fun s => d.Clean s.types :=
  ⟨fun hr h => h.extends hr.types⟩

instance defined (id : TypeDefId) : Lasting fun s => id.index < s.scopes.typeDefs.size :=
  ⟨fun hr h => Nat.lt_of_lt_of_le h hr.typeDefs⟩

end Lasting

-- ---------------------------------------------------------------------------
-- Candid passes
-- ---------------------------------------------------------------------------

/-- If the pass returns, a hard report has been kept, and from a clean session with `P` there is
a hard report or a clean session in which `Q` holds. -/
def CandidTo (busy busy' : DeclId → Prop) (P : Session → Prop) (p : Pass α)
    (Q : α → Session → Prop) : Prop :=
  (∀ s, s.Hurt → IfReturns p s fun _ s' => s'.Hurt) ∧
    ∀ s, s.Clean busy → P s → IfReturns p s fun a s' =>
      s'.Hurt ∨ s.Widens s' ∧ s'.Clean busy' ∧ Q a s'

/-- The same signatures are being computed afterwards. -/
abbrev Candid (busy : DeclId → Prop) (P : Session → Prop) (p : Pass α) (Q : α → Session → Prop) :
    Prop := CandidTo busy busy P p Q

namespace CandidTo

variable {P P' : Session → Prop} {p : Pass α} {Q Q' : α → Session → Prop} {f : α → Pass β}
  {R : β → Session → Prop} {B C : DeclId → Prop}

theorem bind (hp : CandidTo busy B P p Q) (hf : ∀ a, CandidTo B C (Q a) (f a) R) :
    CandidTo busy C P (p >>= f) R := by
  refine ⟨fun s hs => triple_bind.mpr ((hp.1 s hs).imp fun a s₁ h => (hf a).1 s₁ h),
    fun s hs hP => triple_bind.mpr ((hp.2 s hs hP).imp ?_)⟩
  rintro a s₁ (h | ⟨hr, hc, hq⟩)
  · exact ((hf a).1 s₁ h).imp fun _ _ => .inl
  · refine ((hf a).2 s₁ hc hq).imp fun b s₂ h => h.imp_right ?_
    exact fun ⟨hr', hc', hR⟩ => ⟨hr.trans hr', hc', hR⟩

theorem imp (h : CandidTo busy B P p Q) (hP : ∀ s, P' s → P s) (hQ : ∀ a s, Q a s → Q' a s) :
    CandidTo busy B P' p Q' :=
  ⟨h.1, fun s hs hp => (h.2 s hs (hP s hp)).imp fun a s' h =>
    h.imp_right fun ⟨hr, hc, hq⟩ => ⟨hr, hc, hQ a s' hq⟩⟩

/-- What lasts holds afterwards too. -/
theorem keep {K : Session → Prop} [Lasting K] (h : CandidTo busy B P p Q) (hP : ∀ s, P s → K s) :
    CandidTo busy B P p fun a s => K s ∧ Q a s :=
  ⟨h.1, fun s hs hp => (h.2 s hs hp).imp fun _ _ h =>
    h.imp_right fun ⟨hr, hc, hq⟩ => ⟨hr, hc, Lasting.lasts hr (hP s hp), hq⟩⟩

/-- What lasts may be used all along. -/
theorem seq [Lasting P] (hp : CandidTo busy B P' p Q) (hP : ∀ s, P s → P' s)
    (hf : ∀ a, CandidTo B C (fun s => P s ∧ Q a s) (f a) R) :
    CandidTo busy C P (p >>= f) R :=
  ((hp.imp hP fun _ _ h => h).keep fun _ h => h).bind hf

/-- Something more that is known of the pass. -/
theorem and {T : α → Session → Prop} (h : CandidTo busy B P p Q)
    (hp : ∀ s, P s → IfReturns p s T) : CandidTo busy B P p fun a s => Q a s ∧ T a s :=
  ⟨h.1, fun s hs hP => ((h.2 s hs hP).and (hp s hP)).imp fun _ _ h =>
    h.1.imp_right fun ⟨hr, hc, hq⟩ => ⟨hr, hc, hq, h.2⟩⟩

/-- That the session is clean may be used. -/
theorem given (h : CandidTo busy B (fun s => s.Clean busy ∧ P s) p Q) :
    CandidTo busy B P p Q := ⟨h.1, fun s hs hP => h.2 s hs ⟨hs, hP⟩⟩

theorem ite {c : Prop} [Decidable c] {p q : Pass α} (hp : c → CandidTo busy B P p Q)
    (hq : ¬ c → CandidTo busy B P q Q) : CandidTo busy B P (if c then p else q) Q := by
  split
  · next h => exact hp h
  · next h => exact hq h

/-- A declaration is changed into a clean one. -/
theorem modifyDecl {id : DeclId} {g : Decl → Decl}
    (hg : ∀ s, P s → ∀ d : Decl, d.Clean s.types → (g d).Clean s.types)
    (hid : ∀ d : Decl, (d.resolving = true → busy id) → (g d).resolving = true → B id)
    (hother : ∀ other, other ≠ id → busy other → B other) :
    CandidTo busy B P (Pass.modifyDecl id g) fun _ _ => True := by
  refine ⟨fun _ hs => hs, fun s hs hp => .inr ⟨.of_eq rfl rfl, ?_, trivial⟩⟩
  exact hs.modifyDecl (hg s hp _ (hs.decls id)) (hid _ (hs.resolving id)) hother

theorem pure {a : α} (h : ∀ s, P s → Q a s) : Candid busy P (Pure.pure a) Q :=
  ⟨fun _ hs => hs, fun s hs hp => .inr ⟨.refl _, hs, h s hp⟩⟩

theorem map {g : α → β} (h : Candid busy P p fun a s => R (g a) s) :
    Candid busy P (g <$> p) R :=
  ⟨fun s hs => triple_map.mpr (h.1 s hs), fun s hs hp => triple_map.mpr (h.2 s hs hp)⟩

theorem mapM [Lasting P] {f : β → Pass α} {Q : α → Session → Prop} [∀ a, Lasting (Q a)]
    {bs : List β} (h : ∀ b ∈ bs, Candid busy P (f b) Q) :
    Candid busy P (bs.mapM f) fun as s => ∀ a ∈ as, Q a s := by
  induction bs with
  | nil => exact .pure (by simp)
  | cons b bs ih =>
    rw [List.forall_mem_cons] at h
    rw [List.mapM_cons]
    refine h.1.seq (fun _ h => h) fun a =>
      .seq (ih h.2) (fun _ h => h.1) fun as => .pure fun s h => ?_
    simpa using ⟨h.1.2, h.2⟩

/-- A pass that only looks something up. -/
theorem reads (h : ∀ s, IfReturns p s fun a s' => s' = s ∧ (s.Clean busy → P s → Q a s)) :
    Candid busy P p Q := by
  refine ⟨fun s hs => (h s).imp ?_, fun s hs hp => (h s).imp ?_⟩
  · rintro a _ ⟨rfl, -⟩
    exact hs
  · rintro a _ ⟨rfl, hq⟩
    exact .inr ⟨.refl _, hs, hq hs hp⟩

/-- Everything holds as before. -/
theorem look (h : ∀ s, IfReturns p s fun _ s' => s' = s) : Candid busy P p fun _ s => P s :=
  .reads fun s => (h s).imp fun _ _ hs => ⟨hs, fun _ hp => hs ▸ hp⟩

theorem untouched (h : ∀ s, IfReturns p s fun _ s' => s.Untouched s') :
    Candid busy P p fun _ _ => True :=
  ⟨fun s hs => (h s).imp fun _ _ hu => hu.hurt hs,
    fun s hs _ => (h s).imp fun _ _ hu => .inr ⟨hu.widens, hu.clean hs, trivial⟩⟩

theorem tree : Candid busy P Pass.tree fun _ _ => True := .reads fun _ => ⟨rfl, fun _ _ => trivial⟩

theorem types : Candid busy P Pass.types fun _ _ => True :=
  .reads fun _ => ⟨rfl, fun _ _ => trivial⟩

theorem get : Candid busy P (MonadState.get : Pass Session) fun _ _ => True :=
  .reads fun _ => ⟨rfl, fun _ _ => trivial⟩

theorem lookUp (f : ScopeTable → Except Fault α) :
    Candid busy P (Pass.lookUp f) fun _ _ => True := by
  refine .reads fun s => Pass.triple_lookUp.mpr ?_
  split
  · exact ⟨rfl, fun _ _ => trivial⟩
  · trivial

/-- After a hard report nothing else counts. -/
theorem report (d : Diagnostic) :
    Candid busy P (Pass.report d) fun _ _ => d.severity.isHard = false := by
  have hold : ∀ s : Session, s.Hurt → Session.Hurt { s with report := s.report ++ [d] } :=
    fun s ⟨d', hd', hh⟩ => ⟨d', List.mem_append_left _ hd', hh⟩
  refine ⟨fun s hs => hold s hs, fun s hs _ => ?_⟩
  cases hd : d.severity.isHard with
  | true => exact .inl ⟨d, by simp, hd⟩
  | false =>
    exact .inr ⟨.of_eq rfl rfl, ⟨hs.built, hs.nodes, hs.decls, hs.resolving, hs.listed,
      hs.typeDefs⟩, rfl⟩

theorem reportAt (id : NodeId) (problem : Problem) :
    Candid busy P (Pass.reportAt id problem) fun _ _ => False :=
  .bind (Q := fun _ _ => True) (.reads fun _ => ⟨rfl, fun _ _ => trivial⟩) fun _ =>
    (report _).imp (fun _ h => h) fun _ _ h => Bool.noConfusion h

/-- A node that is there gets a clean type. -/
theorem annotate {id : NodeId} {f : Facts → Facts}
    (hf : ∀ s, s.Clean busy → P s → ∀ type, (f (s.tree.facts id)).type = some type →
      s.types.Clean type) :
    Candid busy P (Pass.annotate id f) fun _ _ => True :=
  ⟨fun _ hs => hs, fun s hs hp => .inr ⟨.of_eq rfl rfl, hs.annotate (hf s hs hp), trivial⟩⟩

/-- A type made of clean ones is clean. -/
theorem makeType (r : TypeRequest) (hr : ∀ s, P s → r.CleanIn s.types) :
    Candid busy P (Pass.makeType (r.answer ·)) fun id s => s.types.Clean id := by
  refine ⟨fun _ hs => hs, fun s hs hp => .inr ?_⟩
  have hclean := hr s hp
  have hgrown := hs.built.settled.extends_answer r hclean.has
  exact ⟨⟨hgrown, Nat.le_refl _⟩, hs.withTypes (hs.built.request r hclean.has) hgrown,
    hs.built.clean_answer hclean⟩

/-- A name of a type stands for a definition that is there. -/
theorem findType? (scope : ScopeId) (name : String) :
    Candid busy P (Pass.lookUp (·.findType? scope name)) fun found s =>
      ∀ id, found = some id → id.index < s.scopes.typeDefs.size := by
  refine .reads fun s => Pass.triple_lookUp.mpr ?_
  split
  · next found hfound =>
    exact ⟨rfl, fun hs _ id hid => hs.listed.findType? (hid ▸ hfound)⟩
  · trivial

theorem factsOf (id : NodeId) : Candid busy P (Pass.factsOf id) fun facts s =>
    ∀ type, facts.type = some type → s.types.Clean type :=
  .reads fun _ => ⟨rfl, fun hs _ => hs.nodes id⟩

theorem onValues (f : Heap → α × Heap) : Candid busy P (Pass.onValues f) fun _ _ => True :=
  .untouched fun _ => ⟨rfl, .refl _, rfl, rfl, rfl⟩

theorem onValues? (f : Heap → Option (α × Heap)) :
    Candid busy P (Pass.onValues? f) fun _ _ => True := by
  refine .untouched fun s => Pass.triple_onValues?.mpr ?_
  split <;> exact ⟨rfl, .refl _, rfl, rfl, rfl⟩

end CandidTo
end
end BlockLang
