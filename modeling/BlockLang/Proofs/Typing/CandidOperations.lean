import BlockLang.Proofs.Tree.Edit
import BlockLang.Proofs.Typing.CandidPlaces
import BlockLang.Typing.Operation

/-!
# Names, operators and calls are candid

The conversions that are put before an operation and the call that takes its place only change
the links between nodes, apart from what they say of the new ones.
-/

namespace BlockLang

namespace Arena

variable {a b : Arena} {p c old new : NodeId} {i : Nat}

theorem sameLabels_pushChild (h : a.pushChild p c = .ok b) : a.SameLabels b := by
  obtain ⟨_, -, h⟩ := bind_eq_ok.mp h
  obtain ⟨n, -, h⟩ := bind_eq_ok.mp h
  obtain rfl : _ = b := Except.ok.inj h
  exact fun id => by simp

theorem sameLabels_pushChildren {cs : List NodeId} (h : a.pushChildren p cs = .ok b) :
    a.SameLabels b := by
  induction cs generalizing a with
  | nil =>
    obtain rfl : a = b := Except.ok.inj h
    exact fun _ => rfl
  | cons c cs ih =>
    obtain ⟨a', hc, hcs⟩ := bind_eq_ok.mp h
    exact (sameLabels_pushChild hc).trans (ih hcs)

theorem sameLabels_insertChild (h : a.insertChild p i c = .ok b) : a.SameLabels b := by
  obtain ⟨_, -, h⟩ := bind_eq_ok.mp h
  obtain ⟨n, -, h⟩ := bind_eq_ok.mp h
  dsimp only at h
  split at h
  · cases h
  · obtain rfl : _ = b := Except.ok.inj h
    exact fun id => by simp

theorem sameLabels_replaceChild (h : a.replaceChild p old new = .ok b) : a.SameLabels b := by
  obtain ⟨n, -, h⟩ := bind_eq_ok.mp h
  dsimp only at h
  split at h
  · cases h
  · obtain ⟨_, -, h⟩ := bind_eq_ok.mp h
    obtain rfl : _ = b := Except.ok.inj h
    exact fun id => by simp

theorem sameLabels_replaceNode (h : a.replaceNode old new = .ok b) : a.SameLabels b := by
  obtain ⟨n, -, h⟩ := bind_eq_ok.mp h
  split at h
  · exact sameLabels_replaceChild h
  · obtain rfl : a = b := Except.ok.inj h
    exact fun _ => rfl

end Arena

namespace CandidTo

variable {busy : DeclId → Prop} {P : Session → Prop}

theorem tryTree {f : Arena → Except Fault Arena} (hf : ∀ a b, f a = .ok b → a.SameLabels b) :
    Candid busy P (Pass.tryTree f) fun _ _ => True := by
  refine .untouched fun s => Pass.triple_tryTree.mpr ?_
  split
  · next tree htree => exact .of_grows (hf _ _ htree).grows
  · trivial

theorem untouched_takeChildren (id : NodeId) (s : Session) :
    IfReturns (Pass.takeChildren id) s fun _ s' => s.Untouched s' :=
  .of_grows (Arena.SameLabels.grows fun _ => Arena.label_takeChildren)

theorem takeChildren (id : NodeId) : Candid busy P (Pass.takeChildren id) fun _ _ => True :=
  .untouched (untouched_takeChildren id)

theorem addNode (kind : NodeKind) (span : Span) (scope : ScopeId) (children : List NodeId) :
    Candid busy P (Pass.addNode kind span scope children) fun _ _ => True := by
  refine .untouched fun s => ?_
  unfold Pass.addNode
  simp only [triple_bind, triple_get, triple_modify, triple_pure]
  refine Pass.triple_tryTree.mpr ?_
  split
  · next tree htree =>
    exact .of_grows ((s.tree.grows_add kind span scope).trans
      (Arena.sameLabels_pushChildren htree).grows)
  · trivial

theorem addLike (origin : NodeId) (kind : NodeKind) :
    Candid busy P (Pass.addLike origin kind) fun _ _ => True :=
  .bind (.look fun _ => rfl) fun _ => .bind (.look fun _ => rfl) fun _ => addNode ..

theorem newTemp (id : NodeId) : Candid busy P (Pass.newTemp id) fun _ _ => True :=
  .untouched fun _ => ⟨rfl, .refl _, rfl, rfl, rfl⟩

theorem retargetTemps (old new : NodeId) :
    Candid busy P (Pass.retargetTemps old new) fun _ _ => True :=
  .untouched fun _ => ⟨rfl, .refl _, rfl, rfl, rfl⟩

/-- A type made of what is in the table. -/
theorem makeAny (r : TypeRequest) (hr : ∀ s, P s → ∀ id ∈ r.handles, s.types.Has id) :
    Candid busy P (Pass.makeType (r.answer ·)) fun _ _ => True := by
  refine ⟨fun _ hs => hs, fun s hs hp => .inr ?_⟩
  have hgrown := hs.built.settled.extends_answer r (hr s hp)
  exact ⟨⟨hgrown, Nat.le_refl _⟩, hs.withTypes (hs.built.request r (hr s hp)) hgrown, trivial⟩

end CandidTo

namespace Typing

open Pass

variable {busy : DeclId → Prop} {P : Session → Prop} {node : NodeId}

-- ---------------------------------------------------------------------------
-- Operands
-- ---------------------------------------------------------------------------

theorem candid_annotateCast (cast operand : NodeId) (target : Primitive) :
    Candid busy P (annotateCast cast operand target) fun _ _ => True := by
  have hset : ∀ value, Candid busy (fun _ => True) (setTypeAndValue cast target.typeId value)
      fun _ _ => True := fun value =>
    .given (candid_setTypeAndValue (fun s h => h.1.built.clean_typeId target) value)
  refine .bind (.look fun _ => rfl) fun value => ?_
  dsimp only
  split
  · exact .bind (.pure fun _ _ => trivial) hset
  · exact .bind (.onValues? _) hset

theorem candid_insertCast (user operand : NodeId) (target : Primitive) :
    Candid busy P (insertCast user operand target) fun _ _ => True := by
  have hreplace : ∀ {P : Session → Prop} (old new : NodeId),
      Candid busy P (tryTree (·.replaceChild user old new)) fun _ _ => True :=
    fun _ _ => .tryTree fun _ _ => Arena.sameLabels_replaceChild
  refine .bind (.addLike _ _) fun placeholder => .bind (hreplace _ _) fun _ => ?_
  refine .bind (.look fun _ => rfl) fun span => .bind (.look fun _ => rfl) fun scope => ?_
  refine .bind (.addNode ..) fun cast => .bind (candid_annotateCast cast operand target) fun _ => ?_
  refine .bind .tree fun tree => ?_
  dsimp only
  split
  · exact .bind (Q := fun _ _ => True) (.pure fun _ _ => trivial) fun _ => hreplace _ _
  · refine .bind (.tryTree fun _ _ => Arena.sameLabels_insertChild) fun _ => ?_
    refine .bind (.newTemp cast) fun temp => .bind (.addLike _ _) fun temp => ?_
    refine .bind (.factsOf cast) fun facts => ?_
    refine .bind (.annotate fun s _ h => h) fun _ => ?_
    exact .bind (Q := fun _ _ => True) (.pure fun _ _ => trivial) fun _ => hreplace _ _

theorem candid_promoteOperands : Candid busy P (promoteOperands node) fun _ _ => True := by
  refine .bind .tree fun tree => ?_
  split
  · next lhs rhs =>
    split
    · refine .bind .types fun types => ?_
      split
      · exact .pure fun _ _ => trivial
      · next target _ =>
        refine .bind (Q := fun _ _ => True) ?_ fun casts => .pure fun _ _ => trivial
        refine (CandidTo.mapM (P := fun _ => True) (Q := fun _ _ => True) fun operand _ => ?_).imp
          (fun _ _ => trivial) fun _ _ _ => trivial
        refine .bind .types fun types => .bind (.look fun _ => rfl) fun type =>
          .ite (fun _ => .pure fun _ _ => trivial) fun _ => ?_
        exact .bind (candid_insertCast node operand target) fun _ => .pure fun _ _ => trivial
    · exact .pure fun _ _ => trivial
  · exact .pure fun _ _ => trivial

/-- The types of the operands are in the table, wrong or not. -/
theorem candid_argumentTuple : Candid busy P (argumentTuple node) fun _ _ => True := by
  refine .bind (.look fun _ => rfl) fun os => ?_
  have hoperands : Candid busy P (os.mapM typeOf) fun types s => ∀ t ∈ types, s.types.Has t := by
    refine .reads fun s => (triple_mapM_reads _ fun _ _ _ => Iff.rfl).mpr ⟨rfl, fun hs _ => ?_⟩
    rintro t ht
    obtain ⟨o, -, rfl⟩ := List.mem_map.mp ht
    cases htype : (s.tree.facts o).type with
    | none => exact hs.built.has_error
    | some type => exact (hs.nodes o type htype).has
  exact hoperands.bind fun operands => .makeAny (.plainTuple operands) fun _ h => h

theorem ifReturns_isExactMatch (resolution : Resolution) (arguments : TypeId) (s : Session) :
    IfReturns (isExactMatch resolution arguments) s fun _ s' => s' = s := by
  unfold isExactMatch
  split <;> exact rfl

theorem candid_reportAmbiguity (name : String) (tied : List DeclId) :
    Candid busy P (reportAmbiguity node name tied) fun _ _ => False := by
  refine .bind (.look fun s => ?_) fun notes => .bind (.look fun _ => rfl) fun start =>
    (CandidTo.report _).imp (fun _ h => h) fun _ _ h => by simp [Severity.isHard] at h
  exact (triple_mapM_reads _ fun _ _ _ => Iff.rfl).mpr rfl

theorem candid_reportNoMatch (name : String) (arguments : TypeId) :
    Candid busy P (reportNoMatch node name arguments) fun _ _ => True :=
  .bind (.look fun _ => rfl) fun _ => .bind (.reportAt _ _) fun _ =>
    .bind (candid_setType nofun) fun _ => .pure fun _ _ => trivial

-- ---------------------------------------------------------------------------
-- Calls
-- ---------------------------------------------------------------------------

theorem candid_foldCall (op : Builtin) : Candid busy P (foldCall node op) fun _ _ => True := by
  refine .bind .tree fun tree => ?_
  split
  · exact .pure fun _ _ => trivial
  · refine .bind (.look fun _ => rfl) fun type => .bind .get fun s => ?_
    split
    · exact .bind (.untouched fun _ => ⟨rfl, .refl _, rfl, rfl, rfl⟩) fun _ =>
        .annotate fun s hs _ => hs.nodes node
    · exact .bind (.look fun _ => rfl) fun _ => (CandidTo.report _).imp (fun _ h => h)
        fun _ _ _ => trivial
    · exact .pure fun _ _ => trivial

theorem candid_substitute (old new : NodeId) : Candid busy P (substitute old new) fun _ _ => True :=
  .bind (.tryTree fun _ _ => Arena.sameLabels_replaceNode) fun _ => .retargetTemps old new

theorem candid_bindTo (id : DeclId) (signature : TypeId) :
    Candid nobody (fun s => s.types.Calls signature) (bindTo node id signature)
      fun _ _ => True := by
  refine .bind (candid_resultOf signature) fun result => .bind (.look fun _ => rfl) fun d => ?_
  split
  · next op _ =>
    refine .seq (.takeChildren node) (fun _ h => h) fun operands => ?_
    refine .bind (.look fun _ => rfl) fun span => .bind (.look fun _ => rfl) fun scope => ?_
    refine .seq (.addNode ..) (fun _ h => h) fun call => ?_
    refine .seq (candid_substitute node call) (fun _ h => h) fun _ => ?_
    refine .bind (.annotate fun s _ h type ht => Option.some.inj ht ▸ h.1.1.1) fun _ => ?_
    exact .bind (candid_foldCall op) fun _ => .pure fun _ _ => trivial
  · exact .bind (.annotate fun s _ h type ht => Option.some.inj ht ▸ h) fun _ =>
      .pure fun _ _ => trivial

/-- What has been found is bound. That there are several things or nothing is reported. -/
theorem candid_analyzeOperator (symbol : String) (promotes : Bool) :
    Candid nobody P (analyzeOperator node symbol promotes) fun _ _ => True := by
  refine .bind (.look fun _ => rfl) fun scope => .bind candid_argumentTuple fun arguments => ?_
  refine .bind (candid_resolveOverload scope symbol arguments) fun resolution => ?_
  refine .bind (.look fun s => ifReturns_isExactMatch _ _ s) fun isExact => ?_
  extract_lets bindFound afterRetry
  have hfound : ∀ arguments resolution, Candid nobody
      (fun s => ∀ signature, Resolution.signature? resolution = some signature →
        s.types.Calls signature) (bindFound (arguments, resolution)) fun _ _ => True := by
    intro arguments resolution
    cases resolution with
    | resolved id signature =>
      exact (candid_bindTo id signature).imp (fun _ h => h signature rfl) fun _ _ h => h
    | ambiguous first signature tied =>
      exact .bind (candid_reportAmbiguity _ _) fun _ =>
        (candid_bindTo first signature).imp nofun fun _ _ h => h
    | noMatch => exact candid_reportNoMatch _ _
    | notDefined => exact candid_reportNoMatch _ _
  clear_value bindFound
  have hafter : ∀ retry, Candid nobody
      (fun s => ∀ signature, Resolution.signature? resolution = some signature →
        s.types.Calls signature) (afterRetry retry) fun _ _ => True := by
    intro retry
    unfold afterRetry
    refine .ite (fun _ => ?_) fun _ => hfound arguments resolution
    exact .bind candid_argumentTuple fun arguments =>
      .bind (candid_resolveOverload scope symbol arguments) fun resolution =>
        hfound arguments resolution
  clear_value afterRetry
  exact .ite (fun _ => .seq candid_promoteOperands (fun _ h => h) fun retry =>
    (hafter retry).imp (fun _ h => h.1) fun _ _ h => h) fun _ => hafter false

theorem candid_analyzeCall (name : String) :
    Candid nobody P (analyzeCall node name) fun _ _ => True := by
  refine .bind candid_argumentTuple fun arguments => .bind (.look fun _ => rfl) fun scope => ?_
  refine .bind (candid_resolveOverload scope name arguments) fun resolution => ?_
  cases resolution with
  | resolved id signature =>
    exact (candid_bindTo id signature).imp (fun _ h => h signature rfl) fun _ _ h => h
  | ambiguous first signature tied =>
    exact .bind (candid_reportAmbiguity _ _) fun _ =>
      (candid_bindTo first signature).imp nofun fun _ _ h => h
  | noMatch => exact candid_reportNoMatch _ _
  | notDefined =>
    exact .bind (.reportAt _ _) fun _ => .bind (candid_setType nofun) fun _ =>
      .pure fun _ _ => trivial

-- ---------------------------------------------------------------------------
-- Names
-- ---------------------------------------------------------------------------

/-- Looking at each of several things changes nothing. -/
theorem ifReturns_filterM {f : α → Pass Bool} (h : ∀ a s, IfReturns (f a) s fun _ s' => s' = s)
    (xs : List α) (s : Session) : IfReturns (xs.filterM f) s fun _ s' => s' = s := by
  have haux : ∀ kept, IfReturns (List.filterAuxM f xs kept) s fun _ s' => s' = s := by
    induction xs with
    | nil => exact fun _ => rfl
    | cons x xs ih =>
      intro kept
      unfold List.filterAuxM
      refine triple_bind.mpr ((h x s).imp ?_)
      rintro keep _ rfl
      exact ih _
  exact triple_bind.mpr ((haux []).imp fun _ _ hs => hs)

theorem candid_analyzeSymbol (name : String) :
    Candid nobody P (analyzeSymbol node name) fun _ _ => True := by
  refine .bind (.look fun _ => rfl) fun scope => .bind (.lookUp _) fun found => ?_
  split
  · exact .bind (.reportAt _ _) fun _ => candid_setType nofun
  · next id others =>
    refine .bind (Q := fun d s => d = s.decl id ∧ d.Clean s.types)
      (.reads fun s => ⟨rfl, fun hs _ => ⟨rfl, hs.decls id⟩⟩) fun d => ?_
    refine .ite (fun hcallable => ?_) fun _ => .ite (fun _ => ?_) fun hready => ?_
    · refine .bind (.look fun s => ?_) fun callables => ?_
      · exact ifReturns_filterM (fun _ _ => by exact rfl) _ s
      have hrest : Candid nobody (fun s => d = s.decl id ∧ d.Clean s.types) (do
          let type := (← callableSignature? id).getD .error
          let value ← onValues (·.alloc (.function id type))
          annotate node fun _ => ⟨some type, some value, false, some (d.binding id)⟩)
          fun _ _ => True := by
        have hsignature : Candid nobody (fun s => d = s.decl id ∧ d.Clean s.types)
            (callableSignature? id) fun signature s => s.types.Clean (signature.getD .error) := by
          refine (candid_callableSignature? id true).imp (fun s h => h.1 ▸ hcallable) ?_
          rintro signature s ⟨hsome, hclean⟩
          obtain ⟨type, rfl⟩ := Option.isSome_iff_exists.mp (hsome rfl)
          exact hclean type rfl
        refine hsignature.bind fun signature => .seq (.onValues _) (fun _ h => h) fun value => ?_
        exact .annotate fun s _ h type ht => Option.some.inj ht ▸ h.1
      exact .ite (fun _ => .bind (candid_reportAmbiguity _ _) fun _ =>
        hrest.imp nofun fun _ _ h => h) fun _ => hrest
    · exact .bind (.reportAt _ _) fun _ => candid_setType nofun
    · have hannotate : ∀ value, Candid nobody (fun s => d.Clean s.types) (annotate node ({ · with
          type := some (d.type.getD .error), value, binding := some (.decl id) }))
          fun _ _ => True := by
        refine fun value => .annotate fun s _ h type ht => ?_
        obtain ⟨known, hknown⟩ := Option.isSome_iff_exists.mp (h.ready (by simpa using hready))
        obtain rfl := Option.some.inj ht
        simpa [hknown] using h.type known hknown
      dsimp only
      split
      · next value _ _ =>
        have hcopy : Candid nobody (fun s => d = s.decl id ∧ d.Clean s.types)
            (some <$> duplicate value) fun _ s => d.Clean s.types :=
          .map (((candid_duplicate value).keep (K := fun s => d.Clean s.types) fun _ h => h.2).imp
            (fun _ h => h) fun _ _ h => h.1)
        exact hcopy.bind hannotate
      · exact .bind (.pure fun _ h => h.2) hannotate

end Typing
end BlockLang
