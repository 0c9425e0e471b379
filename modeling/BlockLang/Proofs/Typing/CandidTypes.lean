import BlockLang.Proofs.Typing.Candid
import BlockLang.Typing.Overload

/-!
# Resolving types is candid

A written type stands for a clean one, or else for something that is not there or refers to
itself, which is reported. So signatures are clean, and so are the candidates of a call.
-/

namespace BlockLang.Typing

open Pass

variable {busy : DeclId → Prop} {define : Define} {scope : ScopeId} {env : ParamEnv}

/-- A pass that makes a clean type. -/
abbrev MakesClean (busy : DeclId → Prop) (P : Session → Prop) (p : Pass TypeId) : Prop :=
  Candid busy P p fun type s => s.types.Clean type

/-- A definition that is there is resolved, or something has been reported. -/
abbrev Defines (busy : DeclId → Prop) (define : Define) : Prop :=
  ∀ id position, Candid busy (fun s => id.index < s.scopes.typeDefs.size) (define id position)
    fun body s => ∃ type, body = some type ∧ s.types.Clean type

theorem candid_resolveNamed (hd : Defines busy define)
    (name : String) (args : List TypeId) (position : Position) :
    MakesClean busy (fun s => ∀ a ∈ args, s.types.Clean a)
      (resolveNamed define scope name args position) := by
  refine .seq (.findType? scope name) (fun _ h => h) fun found => ?_
  split
  · exact .bind (.report _) fun _ => .pure nofun
  · next id =>
    refine .seq (hd id position) (fun _ h => h.2 id rfl) fun body => ?_
    split
    · exact .pure fun s h => by simpa using h.2
    · next body =>
      have hscopes : Candid busy (fun s => ((∀ a ∈ args, s.types.Clean a) ∧
          ∀ i, some id = some i → i.index < s.scopes.typeDefs.size) ∧
            ∃ type, some body = some type ∧ s.types.Clean type) scopes fun t s =>
            (∀ a ∈ args, s.types.Clean a) ∧ s.types.Clean body ∧ (t.typeDef id).Clean s.types := by
        refine .reads fun s => ⟨rfl, fun hs h => ⟨h.1.1, ?_, hs.typeDefs id (h.1.2 id rfl)⟩⟩
        obtain ⟨type, htype, hclean⟩ := h.2
        exact Option.some.inj htype ▸ hclean
      refine hscopes.bind fun t => ?_
      dsimp only
      split
      · next type hbuiltin => exact .pure fun s h => h.2.2.builtin type hbuiltin
      · exact .makeType (.named body name (t.typeDef id).paramTypes args) fun s h =>
          ⟨h.2.1, h.2.2.params, h.1⟩

mutual

theorem candid_resolveIn (hd : Defines busy define) :
    (expr : TypeExpr) → MakesClean busy (fun s => ∀ e ∈ env, s.types.Clean e.2)
      (resolveIn define scope env expr)
  | .name name args position => by
    unfold resolveIn
    split
    · next param hparam =>
      obtain ⟨l, r, henv, -⟩ := List.lookup_eq_some_iff.mp hparam
      exact .pure fun s h => h (name, param) (by simp [henv])
    · exact (candid_resolveList hd _).bind fun _ => candid_resolveNamed hd name _ position
  | .list element length => by
    unfold resolveIn
    exact (candid_resolveIn hd element).bind fun element =>
      .makeType (.list element length) (by simp)
  | .tuple fields => by
    unfold resolveIn
    exact (candid_resolveFields hd fields).bind fun fields => .makeType (.tuple fields) (by simp)
  | .reference target => by
    unfold resolveIn
    exact (candid_resolveIn hd target).bind fun target => .makeType (.reference target) (by simp)
  | .func arguments result => by
    unfold resolveIn
    refine .seq (candid_resolveList hd arguments) (fun _ h => h) fun arguments => ?_
    refine .seq (.makeType (.plainTuple arguments) (by simp)) (fun _ h => h.2) fun arguments => ?_
    refine .seq (candid_resolveIn hd result) (fun _ h => h.1.1) fun result => ?_
    exact .makeType (.func arguments result) fun s h => by simpa using ⟨h.1.2, h.2⟩

theorem candid_resolveList (hd : Defines busy define) :
    (exprs : List TypeExpr) → Candid busy (fun s => ∀ e ∈ env, s.types.Clean e.2)
      (resolveList define scope env exprs) fun types s => ∀ type ∈ types, s.types.Clean type
  | [] => by
    unfold resolveList
    exact .pure (by simp)
  | expr :: exprs => by
    unfold resolveList
    refine .seq (candid_resolveIn hd expr) (fun _ h => h) fun type => ?_
    refine .seq (candid_resolveList hd exprs) (fun _ h => h.1) fun types => .pure fun s h => ?_
    simpa using ⟨h.1.2, h.2⟩

theorem candid_resolveFields (hd : Defines busy define) :
    (fields : List (Option String × TypeExpr)) →
      Candid busy (fun s => ∀ e ∈ env, s.types.Clean e.2) (resolveFields define scope env fields)
        fun fields s => ∀ f ∈ fields, s.types.Clean f.type
  | [] => by
    unfold resolveFields
    exact .pure (by simp)
  | (name, expr) :: fields => by
    unfold resolveFields
    refine .seq (candid_resolveIn hd expr) (fun _ h => h) fun type => ?_
    refine .seq (candid_resolveFields hd fields) (fun _ h => h.1) fun types => .pure fun s h => ?_
    simpa using ⟨h.1.2, h.2⟩

end

/-- New parameters all differ. -/
theorem nodup_makeParams (names : List String) (s : Session) :
    IfReturns (makeParams names) s fun env _ =>
      (∀ e ∈ env, s.types.size ≤ e.2.index) ∧ (env.map (·.2)).Nodup := by
  unfold makeParams
  induction names generalizing s with
  | nil => exact triple_mapM_nil.mpr (by simp)
  | cons name names ih =>
    refine triple_mapM_cons.mpr ?_
    simp only [triple_bind, triple_makeType, triple_pure]
    have hsize : (s.types.makeParam name).2.size = s.types.size + 1 :=
      s.types.size_register (.param name)
    refine (ih _).imp fun env _ h => ?_
    simp only [hsize] at h
    refine ⟨List.forall_mem_cons.mpr ⟨Nat.le_refl _, fun e he => Nat.le_of_succ_le (h.1 e he)⟩,
      List.nodup_cons.mpr ⟨fun hmem => ?_, h.2⟩⟩
    obtain ⟨e, he, hsame⟩ := List.mem_map.mp hmem
    exact Nat.not_succ_le_self _ (hsame ▸ h.1 e he)

theorem candid_makeParams (names : List String) :
    Candid busy (fun _ => True) (makeParams names) fun env s =>
      (∀ e ∈ env, s.types.Clean e.2) ∧ (env.map (·.2)).Nodup := by
  have heach : Candid busy (fun _ => True) (makeParams names) fun env s =>
      ∀ e ∈ env, s.types.Clean e.2 := .mapM fun name _ =>
    .bind (.makeType (.param name) (by simp)) fun type => .pure fun s h => h
  exact heach.and fun s _ => (nodup_makeParams names s).imp fun _ _ h => h.2

theorem candid_resolveDef (depth : Nat) : Defines busy (resolveDef depth) := by
  induction depth with
  | zero => exact fun _ _ => ⟨fun _ _ => trivial, fun _ _ _ => trivial⟩
  | succ depth ih =>
    intro id position
    have hupdate : ∀ (P : Session → Prop) (f : TypeDef → TypeDef),
        (∀ s, P s → ∀ d : TypeDef, d.Clean s.types → (f d).Clean s.types) →
        Candid busy P (modify fun s : Session =>
          { s with scopes := s.scopes.modifyTypeDef id f }) fun _ _ => True := by
      refine fun P f hf => ⟨fun _ hs => hs, fun s hs hp => .inr ⟨⟨.refl _, ?_⟩,
        hs.modifyTypeDef (hf s hp), trivial⟩⟩
      simp [ScopeTable.modifyTypeDef]
    unfold resolveDef
    refine .bind (Q := fun t s => (t.typeDef id).Clean s.types)
      (.reads fun s => ⟨rfl, fun hs h => hs.typeDefs id h⟩) fun t => ?_
    dsimp only
    split
    · next body hbody => exact .pure fun s h => ⟨body, rfl, h.resolved body hbody⟩
    refine .ite (fun _ => .bind (.report _) fun _ => .pure (by simp [Severity.isHard])) fun _ => ?_
    split
    · next type hbuiltin =>
      refine .seq (hupdate _ _ fun s h d hd => ?_) (fun _ h => h) fun _ =>
        .pure fun s h => ⟨type, rfl, h.1.builtin type hbuiltin⟩
      exact ⟨hd.builtin, fun _ ht => Option.some.inj ht ▸ h.builtin type hbuiltin, hd.params⟩
    · next expr _ =>
      refine .bind (hupdate _ _ fun s _ d hd => ⟨hd.builtin, hd.resolved, hd.params⟩) fun _ => ?_
      refine .bind (candid_makeParams _) fun env => ?_
      refine .seq (candid_resolveIn ih expr) (fun _ h => h.1) fun body => ?_
      refine .seq (hupdate _ _ fun s h d hd => ?_) (fun _ h => h) fun _ =>
        .pure fun s h => ⟨body, rfl, h.1.2⟩
      obtain ⟨⟨henv, hdistinct⟩, hbody⟩ := h
      refine ⟨hd.builtin, fun _ ht => Option.some.inj ht ▸ hbody, fun p hp => ?_, hdistinct⟩
      obtain ⟨e, he, rfl⟩ := List.mem_map.mp hp
      exact (henv e he).has

theorem candid_resolveTypeDef : Defines busy resolveTypeDef := fun id position =>
  .bind (.look fun _ => rfl) fun _ => candid_resolveDef _ id position

/-- A written type becomes a clean one, or is reported. -/
theorem candid_resolveType (scope : ScopeId) (expr : TypeExpr) :
    MakesClean busy (fun _ => True) (resolveType scope expr) :=
  (candid_resolveIn candid_resolveTypeDef expr).imp (by simp) fun _ _ h => h

-- ---------------------------------------------------------------------------
-- Signatures and candidates
-- ---------------------------------------------------------------------------

/-- Whose signatures are being computed between steps: nobody's. -/
def nobody (_ : DeclId) : Prop := False

/-- A function has a clean signature. While it is computed nobody asks for it. -/
theorem candid_functionSignature (id : DeclId) :
    MakesClean nobody (fun s => (s.decl id).isFunction = true) (functionSignature id) := by
  refine .bind (Q := fun d s => d.Clean s.types ∧ d.resolving = false ∧ d.isFunction = true)
    (.reads fun s => ⟨rfl, fun hs h => ⟨hs.decls id, Bool.eq_false_iff.mpr (hs.resolving id), h⟩⟩)
    fun d => ?_
  dsimp only
  split
  · next type htype => exact .pure fun s h => h.1.type type htype
  refine .ite (fun hresolving => .pure fun s h => absurd h.2.1 (by simp [hresolving])) fun _ => ?_
  split
  · next params result scope _ =>
    refine .bind (B := (· = id)) (.modifyDecl (fun _ _ _ h => ⟨h.type, h.ready, h.builtin⟩)
      (fun _ _ _ => rfl) fun _ _ h => h.elim) fun _ => ?_
    refine .bind (Q := fun arguments s => ∀ type ∈ arguments, s.types.Clean type)
      ((CandidTo.mapM (P := fun _ => True) fun param _ => ?_).imp (fun _ _ => trivial)
        fun _ _ h => h) fun arguments => ?_
    · refine .bind (candid_resolveType scope param.type) fun type => ?_
      refine .seq (.modifyDecl (fun s h d hd => ?_) (fun _ h => h) fun _ _ h => h) (fun _ h => h)
        fun _ => .pure fun s h => h.1
      exact ⟨fun _ ht => Option.some.inj ht ▸ h, fun _ => rfl, fun _ _ => rfl⟩
    · have hrest : ∀ result, CandidTo (· = id) nobody
          (fun s => (∀ type ∈ arguments, s.types.Clean type) ∧ s.types.Clean result) (do
            let arguments ← makeType (·.makePlainTuple arguments)
            let signature ← makeType (·.makeFunc arguments result)
            modifyDecl id ({ · with resolving := false, type := some signature, ready := true })
            return signature) fun signature s => s.types.Clean signature := by
        intro result
        refine .seq (.makeType (.plainTuple arguments) (by simp)) (fun _ h => h.1)
          fun arguments => ?_
        refine .bind (.makeType (.func arguments result) fun s h => by simpa using ⟨h.2, h.1.2⟩)
          fun signature => ?_
        refine .seq (B := nobody) (.modifyDecl (fun s h d hd => ?_) nofun fun _ hne h => hne h)
          (fun _ h => h) fun _ => .pure fun s h => h.1
        exact ⟨fun _ ht => Option.some.inj ht ▸ h, fun _ => rfl, fun _ _ => rfl⟩
      split
      · exact .seq (candid_resolveType scope _) (fun _ _ => trivial) hrest
      · exact .seq (.reads fun _ => ⟨rfl, fun hs _ => hs.built.clean_unit⟩) (fun _ h => h) hrest
  · next hkind => exact .pure fun s h => by simp_all [Decl.isFunction]

/-- The signature that a declaration has is clean, and a callable one has one. -/
theorem candid_callableSignature? (id : DeclId) (callable : Bool) :
    Candid nobody (fun s => (s.decl id).isCallable = callable) (callableSignature? id)
      fun signature s => (callable = true → signature.isSome = true) ∧
        ∀ type, signature = some type → s.types.Clean type := by
  refine .bind (Q := fun d s => d = s.decl id ∧ d.Clean s.types ∧ d.isCallable = callable)
    (.reads fun s => ⟨rfl, fun hs h => ⟨rfl, hs.decls id, h⟩⟩) fun d => ?_
  split
  · next hkind =>
    refine .bind ((candid_functionSignature id).imp (fun s h => ?_) fun _ _ h => h) fun signature =>
      .pure fun s h => ⟨fun _ => rfl, fun _ ht => Option.some.inj ht ▸ h⟩
    simp [← h.1, Decl.isFunction, hkind]
  · next op hkind => exact .pure fun s h => ⟨fun _ => h.2.1.builtin op hkind, h.2.1.type⟩
  · next hkind =>
    refine .bind (Q := fun _ s => d.Clean s.types ∧ d.isCallable = callable)
      (.reads fun s => ⟨rfl, fun _ h => h.2⟩) fun types => .pure fun s h => ⟨?_, fun type ht => ?_⟩
    · simp [← h.2, Decl.isCallable, hkind]
    · exact h.1.type type (Option.filter_eq_some_iff.mp ht).1
  · next hkind =>
    refine .bind (Q := fun _ s => d.Clean s.types ∧ d.isCallable = callable)
      (.reads fun s => ⟨rfl, fun _ h => h.2⟩) fun types => .pure fun s h => ⟨?_, fun type ht => ?_⟩
    · simp [← h.2, Decl.isCallable, hkind]
    · exact h.1.type type (Option.filter_eq_some_iff.mp ht).1

end BlockLang.Typing

namespace BlockLang

/-- A clean type that can be called. -/
structure TypeTable.Calls (t : TypeTable) (signature : TypeId) : Prop where
  clean : t.Clean signature
  func : (t.func? signature).isSome = true

instance (signature : TypeId) : Lasting fun s => s.types.Calls signature :=
  ⟨fun hr h => ⟨h.clean.extends hr.types, by rw [h.clean.func?_extends hr.types]; exact h.func⟩⟩

namespace Typing

open Pass

/-- The signature that a call goes through. -/
def Resolution.signature? : Resolution → Option TypeId
  | .resolved _ signature | .ambiguous _ signature _ => some signature
  | .noMatch | .notDefined => none

theorem exists_of_signature? {candidates : List Candidate} {signature : TypeId}
    (h : (choose candidates).signature? = some signature) :
    ∃ c ∈ candidates, c.signature = signature := by
  unfold choose at h
  dsimp only at h
  split at h
  · cases h
  split at h
  · cases h
  have hmem : ∀ c ∈ candidates.filter (·.cost = leastCost candidates), c ∈ candidates :=
    fun c hc => List.mem_of_mem_filter hc
  split at h
  · cases h
  · next only hfilter => exact ⟨only, hmem only (by simp [hfilter]), Option.some.inj h⟩
  · next first others _ hfilter => exact ⟨first, hmem first (by simp [hfilter]), Option.some.inj h⟩

theorem candid_candidate? (arguments : TypeId) (id : DeclId) :
    Candid nobody (fun _ => True) (candidate? arguments id) fun c s =>
      ∀ x, c = some x → s.types.Calls x.signature := by
  have hsignature : Candid nobody (fun _ => True) (callableSignature? id) fun signature s =>
      ∀ type, signature = some type → s.types.Clean type := by
    refine ⟨(candid_callableSignature? id true).1, fun s hs _ => ?_⟩
    exact ((candid_callableSignature? id _).2 s hs rfl).imp fun _ _ h =>
      h.imp_right fun ⟨hr, hc, hq⟩ => ⟨hr, hc, hq.2⟩
  refine .bind hsignature fun signature => ?_
  split
  · exact .pure (by simp)
  · next signature =>
    refine .bind (Q := fun t s => t = s.types ∧ s.types.Clean signature)
      (.reads fun s => ⟨rfl, fun _ h => ⟨rfl, h signature rfl⟩⟩) fun t => .pure fun s h x hx => ?_
    obtain ⟨rfl, hclean⟩ := h
    obtain ⟨parts, hparts, rfl⟩ := Option.map_eq_some_iff.mp hx
    exact ⟨hclean, by simp [hparts]⟩

theorem candid_resolveOverload (scope : ScopeId) (name : String) (arguments : TypeId) :
    Candid nobody (fun _ => True) (resolveOverload scope name arguments) fun resolution s =>
      ∀ signature, resolution.signature? = some signature → s.types.Calls signature := by
  refine .seq (.lookUp _) (fun _ h => h) fun found => ?_
  refine .bind ((CandidTo.mapM (P := fun _ => True) fun id _ => candid_candidate? arguments id).imp
    (fun _ _ => trivial) fun _ _ h => h) fun candidates => .pure fun s h signature hsignature => ?_
  obtain ⟨c, hc, rfl⟩ := exists_of_signature? hsignature
  obtain ⟨_, hm, rfl⟩ : ∃ c' ∈ candidates, c' = some c := by simpa using hc
  exact h (some c) hm c rfl

theorem candid_resultOf (signature : TypeId) :
    MakesClean nobody (fun s => s.types.Calls signature) (resultOf signature) := by
  refine .bind (Q := fun t s => t = s.types ∧ s.types.Calls signature)
    (.reads fun s => ⟨rfl, fun _ h => ⟨rfl, h⟩⟩) fun t => .pure fun s h => ?_
  obtain ⟨rfl, hclean, hfunc⟩ := h
  obtain ⟨⟨parameters, result⟩, hparts⟩ := Option.isSome_iff_exists.mp hfunc
  simpa [hparts] using hclean.result hparts

end Typing
end BlockLang
