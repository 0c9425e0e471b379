import BlockLang.Proofs.Typing.Learns

/-!
# Resolving types ends

A written type is resolved in finitely many steps. A definition is only resolved while it
is not being resolved already, so each nested call finds one definition less to look at.
-/

namespace BlockLang

/-- The number of definitions that are not being resolved. -/
def Names.pending (n : Names) : Nat := n.typeDefs.toList.countP (!·.resolving)

/-- The names with another outline of one definition. -/
def Names.redefine (n : Names) (id : TypeDefId) (f : TypeDef → TypeDef) : Names :=
  { n with typeDefs := n.typeDefs.modify id.index f }

namespace Names

variable {n : Names} {id : TypeDefId} {d : TypeDef}

theorem pending_le (n : Names) : n.pending ≤ n.typeDefs.size := by
  rw [pending, ← Array.length_toList]
  exact List.countP_le_length

theorem redefine_id (n : Names) (id : TypeDefId) : n.redefine id (fun d => d) = n := by
  have harray : n.typeDefs.modify id.index (fun d => d) = n.typeDefs := by
    refine Array.ext_getElem? fun i => ?_
    simp [Array.getElem?_modify]
  simp only [redefine, harray]

/-- A definition that is being resolved does not count any more. -/
theorem pending_redefine (h : n.typeDefs[id.index]? = some d) (hd : d.resolving = false) :
    (n.redefine id ({ · with resolving := true })).pending + 1 = n.pending := by
  obtain ⟨hlt, hget⟩ := Array.getElem?_eq_some_iff.mp h
  have hlt' : id.index < n.typeDefs.toList.length := by simpa using hlt
  have hcount : 0 < n.typeDefs.toList.countP (!·.resolving) := by
    refine List.countP_pos_iff.mpr ⟨d, ?_, by simp [hd]⟩
    rw [← hget]
    exact Array.getElem_mem_toList hlt
  have hentry : n.typeDefs.toList[id.index] = d := by simpa using hget
  rw [pending, redefine, Array.toList_modify, List.modify_eq_set, List.countP_set hlt', hentry]
  simp only [hd, Bool.not_false, ↓reduceIte, Bool.not_true, Bool.false_eq_true, Nat.add_zero,
    pending]
  omega

/-- A definition that was not being resolved is as it was when that is over. -/
theorem redefine_back (h : n.typeDefs[id.index]? = some d) (hd : d.resolving = false) :
    (n.redefine id ({ · with resolving := true })).redefine id ({ · with resolving := false }) =
      n := by
  have harray : (n.typeDefs.modify id.index ({ · with resolving := true })).modify id.index
      ({ · with resolving := false }) = n.typeDefs := by
    refine Array.ext_getElem? fun i => ?_
    simp only [Array.getElem?_modify]
    split
    · rename_i hi
      subst hi
      rw [h, Option.map_some, Option.map_some, ← hd]
    · rfl
  simp only [redefine, harray]

end Names

theorem Session.names_modifyTypeDef (s : Session) (id : TypeDefId) {f g : TypeDef → TypeDef}
    (h : ∀ d, (f d).outline = g d.outline) :
    Session.names { s with scopes := s.scopes.modifyTypeDef id f } = s.names.redefine id g := by
  have harray : (s.scopes.typeDefs.modify id.index f).map TypeDef.outline =
      (s.scopes.typeDefs.map TypeDef.outline).modify id.index g := by
    refine Array.ext_getElem? fun i => ?_
    simp only [Array.getElem?_map, Array.getElem?_modify]
    split
    · cases s.scopes.typeDefs[i]? <;> simp [h]
    · rfl
  simp only [Session.names, ScopeTable.modifyTypeDef, Names.redefine, harray]

-- ---------------------------------------------------------------------------
-- Definitions being resolved
-- ---------------------------------------------------------------------------

namespace Session

variable {s s' : Session} {d : TypeDef}

/-- The session with a definition marked as being resolved. -/
def markDef (s : Session) (id : TypeDefId) : Session :=
  { s with scopes := s.scopes.modifyTypeDef id ({ · with resolving := true }) }

theorem names_markDef (s : Session) (id : TypeDefId) :
    (s.markDef id).names = s.names.redefine id ({ · with resolving := true }) :=
  s.names_modifyTypeDef id fun _ => rfl

theorem Scoped.markDef (h : s.Scoped) (id : TypeDefId) : (s.markDef id).Scoped :=
  h.withScopes (h.closed.modifyTypeDef id fun _ => rfl) rfl

theorem outline_of_getElem? {id : TypeDefId} (h : s.scopes.typeDefs[id.index]? = some d) :
    s.names.typeDefs[id.index]? = some d.outline := by
  simp [Session.names, Array.getElem?_map, h]

theorem pending_markDef {id : TypeDefId} (h : s.scopes.typeDefs[id.index]? = some d)
    (hm : d.resolving = false) : (s.markDef id).names.pending + 1 = s.names.pending := by
  rw [names_markDef]
  exact Names.pending_redefine (outline_of_getElem? h) hm

end Session

/-- What is learned while a definition is marked is learned without the mark when that is
over. -/
theorem Learns.unmark {id : TypeDefId} {d : TypeDef} {f : TypeDef → TypeDef}
    (h : Learns N (s.markDef id) s') (hd : s.scopes.typeDefs[id.index]? = some d)
    (hm : d.resolving = false) (hf : ∀ d, (f d).outline = { d.outline with resolving := false }) :
    Learns N s { s' with scopes := s'.scopes.modifyTypeDef id f } := by
  refine ⟨?_, h.links, h.labels, h.scopes, h.temps, h.report⟩
  rw [s'.names_modifyTypeDef id (g := ({ · with resolving := false })) hf, h.names,
    Session.names_markDef]
  exact Names.redefine_back (Session.outline_of_getElem? hd) hm

/-- Only a definition of the table has a body that is written. -/
theorem ScopeTable.typeDef_of_written {t : ScopeTable} {id : TypeDefId}
    (h : (t.typeDef id).body = .written expr) :
    t.typeDefs[id.index]? = some (t.typeDef id) := by
  unfold ScopeTable.typeDef at h ⊢
  cases hget : t.typeDefs[id.index]? with
  | some d => rfl
  | none =>
    rw [hget] at h
    exact absurd h nofun

namespace Typing

open Pass

variable {N : NodeId → Prop} {G : Names → Prop} {define : Define} {scope : ScopeId}

theorem learner_resolveNamed (hd : ∀ id position, Learner N G (define id position))
    (hs : ∀ n, G n → n.Has scope) (name : String) (args : List TypeId) (position : Position) :
    Learner N G (resolveNamed define scope name args position) := by
  refine (Learner.findType? hs name).bind fun found => ?_
  cases found with
  | none => exact (Learner.report _).bind fun _ => .pure _
  | some id =>
    refine (hd id position).bind fun body => ?_
    cases body with
    | none => exact .pure _
    | some body =>
      refine Learner.bind (.reads fun _ => rfl) fun t => ?_
      dsimp only
      split
      · exact .pure _
      · exact .makeType _

mutual

theorem learner_resolveIn (hd : ∀ id position, Learner N G (define id position))
    (hs : ∀ n, G n → n.Has scope) (env : ParamEnv) :
    (expr : TypeExpr) → Learner N G (resolveIn define scope env expr)
  | .name name args position => by
    unfold resolveIn
    split
    · exact .pure _
    · exact (learner_resolveList hd hs env _).bind fun _ => learner_resolveNamed hd hs name _ _
  | .list element length => by
    unfold resolveIn
    exact (learner_resolveIn hd hs env element).bind fun _ => .makeType _
  | .tuple fields => by
    unfold resolveIn
    exact (learner_resolveFields hd hs env fields).bind fun _ => .makeType _
  | .reference target => by
    unfold resolveIn
    exact (learner_resolveIn hd hs env target).bind fun _ => .makeType _
  | .func arguments result => by
    unfold resolveIn
    exact (learner_resolveList hd hs env arguments).bind fun _ => (Learner.makeType _).bind fun _ =>
      (learner_resolveIn hd hs env result).bind fun _ => .makeType _

theorem learner_resolveList (hd : ∀ id position, Learner N G (define id position))
    (hs : ∀ n, G n → n.Has scope) (env : ParamEnv) :
    (exprs : List TypeExpr) → Learner N G (resolveList define scope env exprs)
  | [] => by
    unfold resolveList
    exact .pure _
  | expr :: exprs => by
    unfold resolveList
    exact (learner_resolveIn hd hs env expr).bind fun _ =>
      (learner_resolveList hd hs env exprs).bind fun _ => .pure _

theorem learner_resolveFields (hd : ∀ id position, Learner N G (define id position))
    (hs : ∀ n, G n → n.Has scope) (env : ParamEnv) :
    (fields : List (Option String × TypeExpr)) → Learner N G (resolveFields define scope env fields)
  | [] => by
    unfold resolveFields
    exact .pure _
  | (name, expr) :: fields => by
    unfold resolveFields
    exact (learner_resolveIn hd hs env expr).bind fun _ =>
      (learner_resolveFields hd hs env fields).bind fun _ => .pure _

end

theorem learner_makeParams (names : List String) : Learner N G (makeParams names) :=
  .mapM (fun _ => (Learner.makeType _).bind fun _ => .pure _) names

/-- While a definition is resolved it is marked, and afterwards it is not. -/
theorem learner_resolveDef (depth : Nat) (id : TypeDefId) (position : Position) :
    Learner N (·.pending < depth) (resolveDef depth id position) := by
  induction depth generalizing id position with
  | zero => exact fun s _ hp => absurd hp (Nat.not_lt_zero _)
  | succ depth ih =>
    intro s hs hp
    unfold resolveDef
    simp only [Returns, triple_bind, triple_scopes]
    cases hr : (s.scopes.typeDef id).resolved with
    | some body => exact .refl s
    | none =>
      simp only
      cases hm : (s.scopes.typeDef id).resolving with
      | true => exact .of_tree rfl rfl rfl (List.prefix_append _ _)
      | false =>
        simp only [Bool.false_eq_true, ↓reduceIte]
        cases hb : (s.scopes.typeDef id).body with
        | builtin type =>
          have hnames := s.names_modifyTypeDef id (f := ({ · with resolved := some type }))
            (g := fun d => d) fun _ => rfl
          exact .of_tree (hnames.trans (s.names.redefine_id id)) rfl rfl (List.prefix_refl _)
        | written expr =>
          have hd := ScopeTable.typeDef_of_written hb
          generalize s.scopes.typeDef id = d at hd hm
          have hpending := Session.pending_markDef hd hm
          have hinner : Learner N (fun n => n.pending < depth ∧ n.Has d.scope) (do
              let env ← makeParams d.params
              let body ← resolveIn (resolveDef depth) d.scope env expr
              return (env, body)) :=
            (learner_makeParams _).bind fun env => (learner_resolveIn
              (fun id position => (ih id position).guard fun _ h => h.1) (fun _ h => h.2) env
              expr).bind fun _ => .pure _
          have hrun := hinner (s.markDef id) (hs.markDef id)
            ⟨by omega, hs.closed.typeDefs _ d hd⟩
          simp only [Returns, triple_bind, triple_pure] at hrun
          simp only [triple_bind, triple_modify]
          exact hrun.imp fun env s₁ hrun => hrun.imp fun body s₂ hl => hl.unmark hd hm fun _ => rfl

theorem learner_resolveTypeDef (id : TypeDefId) (position : Position) :
    Learner N G (resolveTypeDef id position) := by
  intro s hs _
  have hle := s.names.pending_le
  have hsize : s.names.typeDefs.size = s.scopes.typeDefs.size := Array.size_map
  unfold resolveTypeDef
  simp only [Returns, triple_bind, triple_scopes]
  exact learner_resolveDef (s.scopes.typeDefs.size + 1) id position s hs (by omega)

theorem learner_resolveType (hs : ∀ n, G n → n.Has scope) (expr : TypeExpr) :
    Learner N G (resolveType scope expr) :=
  learner_resolveIn learner_resolveTypeDef hs [] expr

end Typing
end BlockLang
