import BlockLang.Proofs.Grammar.Reads
import BlockLang.Proofs.Types.Table

/-!
# What expressions are read as

Every production leaves one tree, written as its kind can be. An expression leaves
one that can stand where a value is wanted.
-/

namespace BlockLang

namespace Parse

variable {W : String → Prop} {I : Nat → Cursor → Session → Prop} {n m : Nat} {s : Session}
  {ts us ds : List Tree} {p : Parse α} {R R' : α → Session → List Tree → Prop}

theorem triple_pass {p : Pass α} {c : Cursor} {Q : α × Cursor → Session → Prop}
    {E : Stop → Session → Prop} :
    Triple ((pass p).run c) s Q E ↔
      Triple p s (fun a s' => Q (a, c) s') fun e s' => E (.fault e) s' := by
  rw [pass, StateT.run_lift, triple_bind]
  exact triple_adapt

/-- Trees are left in another order, or left alone for good. -/
theorem Reads.reorder (hp : Reads I n m p s ts R)
    (h : ∀ a s' us, R a s' us → ∃ vs ws, us.Perm (vs ++ ws) ∧ R' a s' vs) :
    Reads I n m p s ts R' := by
  intro c rest hforest hi hw
  refine (hp c rest hforest hi hw).imp ?_
  rintro r s' ⟨us, hr, hforest', hi', hw', hadd⟩
  obtain ⟨vs, ws, hperm, hr'⟩ := h _ _ _ hr
  have hp' : (us ++ rest).Perm (vs ++ rest ++ ws) := by
    refine (hperm.append_right rest).trans ?_
    rw [List.append_assoc, List.append_assoc]
    exact List.Perm.append_left vs List.perm_append_comm
  refine ⟨vs, hr', (hforest'.perm hp').left, hi', fun v hv => hw' v ?_, hadd⟩
  exact hperm.mem_iff.mpr (List.mem_append_left ws hv)

/-- What is read next comes after the trees at hand. -/
theorem Reads.after (hp : Reads I n m p s [] R) (vs : List Tree) :
    Reads I n m p s vs fun a s' us => ∃ ws, us = vs ++ ws ∧ R a s' ws := by
  refine (hp.frame vs).reorder ?_
  rintro a s' us ⟨ws, rfl, hr⟩
  exact ⟨vs ++ ws, [], by simpa using List.perm_append_comm, ws, rfl, hr⟩

-- ---------------------------------------------------------------------------
-- Nodes and names
-- ---------------------------------------------------------------------------

theorem Reads.node (hI : Adds.Keeps W I) {kind : NodeKind} {span : Span} {children : List NodeId}
    (hc : children = ds.map Tree.handle) (hs : ∀ i, (Tree.node i kind ds).Formed)
    (hk : kind.IsDeclared s.decls ds.length) :
    Reads I n n (node kind span children) s ds fun id _ us => us = [.node id kind ds] := by
  intro c rest hforest hi hw
  refine triple_pass.mpr ?_
  refine (Pass.triple_addNode hforest hc).imp ?_
  rintro id s' ⟨hforest', rfl, hg⟩
  refine ⟨_, rfl, hforest', hI.tree n c s s' hi hg, ?_, hg.adds⟩
  · simp only [List.mem_singleton, forall_eq]
    have hnew := hforest'.head.1.links
    have hadd := hg.adds
    refine Tree.every_node.mpr ⟨written_adds hw hforest hadd, hs _, ?_, fun _ => ?_,
      fun d hd => (hk.function d hd).adds hadd, fun d _ _ hd => (hk.binding d _ _ hd).adds hadd⟩
    · exact fun he => absurd he hk.plain
    · have hl := Arena.label_of_links hnew
      exact hg.tree.fresh _ _ (Nat.le_refl _) hl

theorem Reads.declare (hI : Adds.Keeps W I) {name : Token} {kind : DeclKind} {scope : ScopeId}
    {overloadable : Bool} (hw₀ : W name.value) (hk : kind.WellDeclared s) :
    Reads I n n (declare name kind scope overloadable) s ts fun id s' us => us = ts ∧
      ∃ d, s'.decls[id.index]? = some d ∧ d.kind = kind := by
  intro c rest hforest hi hw
  have hdecls : ∀ (i : Nat) d, s.decls[i]? = some d →
      (s.addDecl (.new name.value kind scope name.span.start)).2.decls[i]? = some d := by
    intro i d hd
    have hlt : i < s.decls.size := (Array.getElem?_eq_some_iff.mp hd).1
    simp only [Session.addDecl, Array.getElem?_push, Nat.ne_of_lt hlt, ↓reduceIte, hd]
  unfold Parse.declare
  rw [StateT.run_bind, triple_bind]
  refine triple_session.mpr ?_
  rw [StateT.run_bind, triple_bind]
  refine Triple.of_start (rfl : _ = (Except.ok ((), c),
    (s.addDecl (.new name.value kind scope name.span.start)).2)) ?_
  dsimp only
  cases hv : (s.addDecl (.new name.value kind scope name.span.start)).2.scopes.addVar scope
      name.value (s.addDecl (.new name.value kind scope name.span.start)).1 overloadable with
  | error refusal =>
    -- A refused name is still declared: only the scope has no entry for it.
    cases refusal <;>
      exact ⟨n, c, ts, hforest, hI.decl n c s _ _ _ _ hi hw₀ hk, .refl _, hdecls, Nat.le_refl _,
        rfl⟩
  | ok scopes =>
    have hadd : Adds s
        { (s.addDecl (.new name.value kind scope name.span.start)).2 with scopes } :=
      ⟨.refl _, hdecls, Nat.le_of_eq (ScopeTable.size_addVar hv).symm, rfl⟩
    exact ⟨ts, ⟨rfl, _, Array.getElem?_push_size, rfl⟩, hforest,
      hI.declare n c s _ _ _ _ _ _ hi hw₀ hk hv, written_adds hw hforest hadd, hadd⟩

theorem Reads.enterScope (hI : Adds.Keeps W I) {kind : ScopeKind} :
    Reads I n (n + 1) (enterScope kind) s ts fun id s' us => us = ts ∧ s'.scopes.Has id := by
  intro c rest hforest hi hw
  have hsize : (s.scopes.addScope kind (some c.scope)).2.scopes.size = s.scopes.scopes.size + 1 :=
    Array.size_push _
  have hadd : Adds s { s with scopes := (s.scopes.addScope kind (some c.scope)).2 } :=
    ⟨.refl _, fun _ _ hd => hd, by simp only [hsize]; exact Nat.le_succ _, rfl⟩
  refine ⟨ts, ⟨rfl, ?_⟩, hforest, hI.enter n c s kind hi, written_adds hw hforest hadd, hadd⟩
  show s.scopes.scopes.size < (s.scopes.addScope kind (some c.scope)).2.scopes.size
  omega

theorem Reads.leaveScope (hI : Adds.Keeps W I) :
    Reads I (n + 1) n leaveScope s ts fun _ s' us => us = ts ∧ s' = s := by
  intro c rest hforest hi hw
  exact ⟨ts, ⟨rfl, rfl⟩, hforest, hI.leave n c s hi, hw, .refl s⟩

end Parse

namespace Grammar

open Parse

variable {W : String → Prop} {I : Nat → Cursor → Session → Prop} {n : Nat} {s : Session}
  {ts us ds : List Tree} {parts : Productions Power}

/-- One tree that `P` holds of. -/
def One (P : Tree → Prop) (id : NodeId) (_ : Session) (us : List Tree) : Prop :=
  ∃ t, us = [t] ∧ t.handle = id ∧ P t

/-- The handle of a tree that can stand where a value is wanted. -/
def Operand (id : NodeId) (t : Tree) : Prop := t.handle = id ∧ t.IsValue

/-- A statement is no chain of statements, and within a scope of a module it has no imports. -/
structure Placed (depth : Nat) (t : Tree) : Prop where
  single : t.kind ≠ .pair
  importFree : 0 < depth → t.ImportFree

/-- The productions for the parts of a construct work. -/
structure PartsRead (I : Nat → Cursor → Session → Prop) (parts : Productions Power) : Prop where
  type : Quiet parts.type
  expr : ∀ n power s, Reads I n n (parts.expr power) s [] (One Tree.IsValue)
  stmt : ∀ n s, Reads I n n parts.stmt s [] (One (Placed n))

theorem Reads.one (hI : Adds.Keeps W I) {kind : NodeKind} {span : Span} {children : List NodeId}
    {P : Tree → Prop} (hc : children = ds.map Tree.handle)
    (hs : ∀ i, (Tree.node i kind ds).Formed) (hk : kind.IsDeclared s.decls ds.length)
    (hP : ∀ i, P (.node i kind ds)) :
    Reads I n n (node kind span children) s ds (One P) :=
  (Reads.node hI hc hs hk).imp fun id _ _ _ hus => ⟨_, hus, rfl, hP id⟩

theorem shaped_of_all {kind : NodeKind} (ha : kind.Arity ds.length)
    (ho : ∀ d ∈ ds, d.IsValue) (i : NodeId) : (Tree.node i kind ds).Shaped := by
  refine ⟨ha, fun c hc => ?_⟩
  unfold Tree.operands at hc
  split at hc
  · simp at hc
  · simp at hc
  · simp at hc
  · simp_all [List.mem_of_mem_take hc]
  · simp_all [List.mem_of_mem_take hc]
  · simp_all

theorem formed_of_all {kind : NodeKind} (ha : kind.Arity ds.length) (ho : ∀ d ∈ ds, d.IsValue)
    (hk : ∀ d, kind ≠ .funcDecl d) (i : NodeId) : (Tree.node i kind ds).Formed :=
  (shaped_of_all ha ho i).formed (fun d hd => (ho d hd).single) hk
    fun _ _ d hd => (ho d hd).importFree

/-- A node over values is one itself. -/
theorem isValue_of_all {kind : NodeKind} (hk : kind.isOperand = true)
    (ho : ∀ d ∈ ds, d.ImportFree) (i : NodeId) : (Tree.node i kind ds).IsValue := by
  refine ⟨hk, Tree.importFree_node.mpr ⟨ho, ?_⟩⟩
  cases kind <;> first | rfl | simp [NodeKind.isOperand, NodeKind.isExpression] at hk

/-- A node over values is read as one. -/
theorem Reads.value (hI : Adds.Keeps W I) {kind : NodeKind} {span : Span} {children : List NodeId}
    (hc : children = ds.map Tree.handle) (ha : kind.Arity ds.length) (hk : kind.isOperand = true)
    (hl : kind ≠ .literal) (hv : ∀ d ∈ ds, d.IsValue) :
    Reads I n n (node kind span children) s ds (One Tree.IsValue) := by
  have hfunction : ∀ d, kind ≠ .funcDecl d := by
    rintro d rfl
    simp [NodeKind.isOperand, NodeKind.isExpression] at hk
  have hbinding : ∀ d declared isRef, kind ≠ .varDecl d declared isRef := by
    rintro d declared isRef rfl
    simp [NodeKind.isOperand, NodeKind.isExpression] at hk
  refine Reads.one hI hc (formed_of_all ha hv hfunction) ⟨hl, ?_, ?_⟩
    (isValue_of_all hk fun d hd => (hv d hd).importFree)
  · exact fun d hd => absurd hd (hfunction d)
  · exact fun d declared isRef hd => absurd hd (hbinding d declared isRef)

-- ---------------------------------------------------------------------------
-- Literals
-- ---------------------------------------------------------------------------

theorem reads_literal (hI : Adds.Keeps W I) {type : TypeId} {value : Heap → ValueId × Heap}
    {span : Span} (hv : LiteralValue s.types type value) :
    Reads I n n (literal type value span) s [] (One Tree.IsValue) := by
  intro c rest hforest hi _
  unfold literal
  rw [StateT.run_bind, triple_bind]
  show Triple ((pass (.addNode .literal span c.scope [])).run c) s _ _
  refine triple_pass.mpr ?_
  refine (Pass.triple_addNode hforest rfl).imp ?_
  rintro id s' ⟨hforest', rfl, hg⟩
  have hlt := hforest'.head.1.lt_size ⟨s.tree.size⟩ (by simp)
  have hnone : s'.tree.facts ⟨s.tree.size⟩ = .none :=
    hg.tree.fresh _ _ (Nat.le_refl _) (Arena.label_of_links hforest'.head.1.links)
  have hi' : I n c s' := hI.tree n c s s' hi hg
  have htypes : s'.types = s.types := by rw [hg.rest]
  refine ⟨[.node ⟨s.tree.size⟩ .literal []], ⟨_, rfl, rfl, isValue_of_all rfl (by simp) _⟩,
    hforest'.congr fun i _ => Arena.links_annotate _,
    hI.literal n c s' _ type value hi' hnone (htypes ▸ hv), ?_, ?_⟩
  · simp only [List.mem_singleton, forall_eq]
    have hformed : (Tree.node ⟨s.tree.size⟩ .literal []).Formed :=
      Tree.Shaped.formed ⟨rfl, by simp [Tree.operands]⟩ (by simp) (by simp) (by simp)
    refine Tree.every_node.mpr ⟨by simp, hformed, fun _ => ?_, fun hk => absurd rfl hk, by simp,
      by simp⟩
    exact ⟨type, (value s'.values).1, by
      rw [Tree.handle_node, Arena.facts_annotate_self hlt, hnone]; rfl⟩
  · have hadd := hg.adds
    refine ⟨fun id l hl => ?_, hadd.decls, hadd.scopes, ?_⟩
    · have hne : (⟨s.tree.size⟩ : NodeId) ≠ id := by
        rintro rfl
        exact Nat.lt_irrefl _ (Arena.lt_size_of_label hl)
      exact (Arena.label_annotate_ne hne _).trans (hadd.labels id l hl)
    · rw [hadd.rest]

theorem quiet_boundedNumber (token : Token) (limit : Nat) : Quiet (boundedNumber token limit) := by
  unfold boundedNumber
  dsimp only
  split
  · exact .pure _
  · exact quiet_fail _ _

theorem reads_intLiteral (hI : Adds.Keeps W I) (token : Token) :
    Reads I n n (intLiteral token) s [] (One Tree.IsValue) :=
  .quiet hI (quiet_boundedNumber _ _) fun _ => .quiet hI quiet_advance fun _ =>
    reads_literal hI (.scalar .int64 _)

theorem reads_floatLiteral (hI : Adds.Keeps W I) (token : Token) :
    Reads I n n (floatLiteral token) s [] (One Tree.IsValue) :=
  .quiet hI quiet_advance fun _ => reads_literal hI (.scalar .float64 _)

theorem reads_boolLiteral (hI : Adds.Keeps W I) (token : Token) (b : Bool) :
    Reads I n n (boolLiteral token b) s [] (One Tree.IsValue) :=
  .quiet hI quiet_advance fun _ => reads_literal hI (.scalar .bool _)

theorem reads_listType (hI : Adds.Keeps W I) (length : Option UInt64) :
    Reads I n n (pass (.makeType (·.makeList Primitive.int8.typeId length))) s []
      fun type s' us => us = [] ∧ s'.types.kind type = .list Primitive.int8.typeId length := by
  intro c rest hforest hi hw
  refine triple_pass.mpr (Pass.triple_makeType.mpr ?_)
  exact ⟨[], ⟨rfl, TypeTable.kind_intern _ _⟩, hforest, hI.listType n c s length hi, by simp,
    .refl _, fun _ _ hd => hd, Nat.le_refl _, rfl⟩

theorem reads_stringLiteral (hI : Adds.Keeps W I) (token : Token) :
    Reads I n n (stringLiteral token) s [] (One Tree.IsValue) := by
  refine .quiet hI quiet_advance fun _ => (reads_listType hI _).bind ?_
  rintro type s' us - ⟨rfl, hk⟩
  exact reads_literal hI (.string _ hk)

-- ---------------------------------------------------------------------------
-- Sequences of parts
-- ---------------------------------------------------------------------------

/-- What stands between commas, one tree for each item. -/
theorem reads_separated (hI : Adds.Keeps W I) {item : Parse α} {G : α → Tree → Prop}
    (h : ∀ s, Reads I n n item s [] fun a _ us => ∃ t, us = [t] ∧ G a t) (close : Token.Kind)
    (message : String) (fuel : Nat) :
    Reads I n n (separated close message item fuel) s [] fun r _ us => List.Forall₂ G r.1 us := by
  induction fuel generalizing s with
  | zero => exact .endless
  | succ fuel ih =>
    refine .quiet hI (quiet_isAt close) fun b => ?_
    cases b
    · refine (h s).bind ?_
      rintro a s' us - ⟨t, rfl, ht⟩
      refine .quiet hI (quiet_accept .comma) fun b => ?_
      cases b
      · refine .quiet hI (quiet_isAt close) fun b => ?_
        cases b
        · exact .refuse message
        · exact .pure (.cons ht .nil)
      · refine (ih.after [t]).bind ?_
        rintro r s'' us - ⟨ws, rfl, hws⟩
        exact .pure (.cons ht hws)
    · exact .pure .nil

theorem quiet_fieldName : Quiet fieldName := by
  refine quiet_get.bind fun c => ?_
  split
  · exact quiet_advance.bind fun _ => quiet_advance.bind fun _ => .pure _
  · exact .pure _

theorem forall₂_operand {ids : List NodeId} (h : List.Forall₂ Operand ids us) :
    ids = us.map Tree.handle ∧ ∀ u ∈ us, u.IsValue := by
  induction h with
  | nil => simp
  | cons h _ ih =>
    obtain ⟨rfl, hk⟩ := h
    exact ⟨by simp [ih.1], by simpa using ⟨hk, ih.2⟩⟩

theorem reads_operand_of_expr (hp : PartsRead I parts) (power : Power) (s : Session) :
    Reads I n n (parts.expr power) s [] fun id _ us => ∃ t, us = [t] ∧ Operand id t :=
  (hp.expr _ power s).imp fun _ _ _ _ ⟨t, hus, hid, hk⟩ => ⟨t, hus, hid, hk⟩

theorem reads_prefixed (hI : Adds.Keeps W I) (hp : PartsRead I parts) (op : UnaryOp) :
    Reads I n n (prefixed parts op) s [] (One Tree.IsValue) := by
  refine .quiet hI quiet_advance fun _ => (hp.expr _ _ _).bind ?_
  rintro id s' us - ⟨t, rfl, rfl, hk⟩
  exact .quiet hI (quiet_spanFrom _) fun _ =>
    Reads.value hI rfl rfl rfl (by simp) (by simpa using hk)

/-- A name or none and an expression. -/
theorem reads_element (hI : Adds.Keeps W I) (hp : PartsRead I parts) (s : Session) :
    Reads I n n (do return (← fieldName, ← parts.expr .comma)) s []
      fun a _ us => ∃ t, us = [t] ∧ Operand a.2 t := by
  refine .quiet hI quiet_fieldName fun _ => (reads_operand_of_expr hp _ s).bind ?_
  rintro id s' us - hus
  exact .pure hus

theorem forall₂_map_snd {α : Type} {elements : List (α × NodeId)}
    (h : List.Forall₂ (fun a t => Operand a.2 t) elements us) :
    List.Forall₂ Operand (elements.map (·.2)) us := by
  induction h with
  | nil => exact .nil
  | cons h _ ih => exact .cons h ih

theorem reads_grouping (hI : Adds.Keeps W I) (hp : PartsRead I parts) :
    Reads I n n (grouping parts) s [] (One Tree.IsValue) := by
  refine .quiet hI quiet_advance fun _ => .quiet hI quiet_bound fun n => ?_
  refine (reads_separated hI (reads_element hI hp) _ _ n).bind ?_
  rintro ⟨elements, sawComma⟩ s' us - hus
  obtain ⟨hids, hk⟩ := forall₂_operand (forall₂_map_snd hus)
  refine .quiet hI (quiet_expect _) fun _ => ?_
  split
  · cases hus with
    | cons h hnil =>
      cases hnil
      exact .pure ⟨_, rfl, h⟩
  · exact .quiet hI (quiet_spanFrom _) fun _ =>
      Reads.value hI hids (by simp [NodeKind.Arity, hus.length_eq]) rfl (by simp) hk

theorem reads_listLiteral (hI : Adds.Keeps W I) (hp : PartsRead I parts) :
    Reads I n n (listLiteral parts) s [] (One Tree.IsValue) := by
  refine .quiet hI quiet_advance fun _ => .quiet hI quiet_bound fun n => ?_
  refine (reads_separated hI (reads_operand_of_expr hp .comma) _ _ n).bind ?_
  rintro ⟨elements, _⟩ s' us - hus
  obtain ⟨hids, hk⟩ := forall₂_operand hus
  refine .quiet hI (quiet_expect _) fun _ => .quiet hI (quiet_spanFrom _) fun _ => ?_
  exact Reads.value hI hids trivial rfl (by simp) hk

theorem reads_statements (hI : Adds.Keeps W I) (hp : PartsRead I parts) (fuel : Nat) :
    Reads I n n (statements parts fuel) s [] fun ids _ us =>
      ids = us.map Tree.handle ∧ ∀ u ∈ us, Placed n u := by
  induction fuel generalizing s with
  | zero => exact .endless
  | succ fuel ih =>
    refine .quiet hI quiet_currentKind fun kind => ?_
    split
    · exact .pure ⟨rfl, by simp⟩
    · exact .refuse _
    · refine (hp.stmt _ s).bind ?_
      rintro id s' us - ⟨t, rfl, rfl, ht⟩
      refine (ih.after [t]).bind ?_
      rintro ids s'' us - ⟨ws, rfl, rfl, hws⟩
      exact .pure ⟨rfl, List.forall_mem_cons.mpr ⟨ht, hws⟩⟩

theorem reads_chain (hI : Adds.Keeps W I) (ids : List NodeId) (h : ids = ts.map Tree.handle)
    (hts : ∀ t ∈ ts, t.kind ≠ .pair ∧ t.ImportFree) :
    Reads I n n (chain ids) s ts fun r _ us =>
      r.toList = us.map Tree.handle ∧ us.length ≤ 1 ∧ ∀ u ∈ us, u.ImportFree := by
  induction ids generalizing ts s with
  | nil =>
    obtain rfl : ts = [] := by simpa using h.symm
    exact .pure ⟨rfl, by simp, by simp⟩
  | cons first others ih =>
    obtain ⟨t, rest, rfl, rfl, hrest⟩ : ∃ t rest, ts = t :: rest ∧ t.handle = first ∧
        others = rest.map Tree.handle := by
      cases ts with
      | nil => simp at h
      | cons t rest =>
        simp only [List.map_cons, List.cons.injEq] at h
        exact ⟨t, rest, rfl, h.1.symm, h.2⟩
    obtain ⟨ht, htail⟩ := List.forall_mem_cons.mp hts
    cases others with
    | nil =>
      obtain rfl : rest = [] := by simpa using hrest.symm
      exact .pure ⟨rfl, by simp, by simpa using ht.2⟩
    | cons second others =>
      have hchain : Reads I n n (chain (second :: others)) s (t :: rest) fun r _ us =>
          ∃ ws, us = t :: ws ∧ r.toList = ws.map Tree.handle ∧ ws.length ≤ 1 ∧
            ∀ w ∈ ws, w.ImportFree := by
        refine ((ih hrest htail).frame [t]).reorder ?_ |>.perm ?_
        · rintro r s' us ⟨ws, rfl, hr⟩
          exact ⟨t :: ws, [], by simp, ws, rfl, hr⟩
        · exact (List.perm_append_comm : ([t] ++ rest).Perm (rest ++ [t]))
      refine hchain.bind ?_
      rintro r s' us - ⟨ws, rfl, hr, hlen, hws⟩
      cases r with
      | none =>
        obtain rfl : ws = [] := by simpa using hr.symm
        exact .pure ⟨rfl, by simp, by simpa using ht.2⟩
      | some id =>
        obtain ⟨u, rfl, rfl⟩ : ∃ u, ws = [u] ∧ id = u.handle := by
          cases ws with
          | nil => simp at hr
          | cons u ws =>
            obtain rfl : ws = [] := by simpa using hlen
            exact ⟨u, rfl, by simpa using hr⟩
        refine .quiet hI (quiet_spanOf _) fun _ => .quiet hI (quiet_spanOf _) fun _ => ?_
        have hformed : ∀ i, (Tree.node i .pair [t, u]).Formed := fun i =>
          { arity := rfl
            operands := by simp [Tree.operands]
            chain := fun _ first rest hchildren => (List.cons.inj hchildren).1 ▸ ht.1
            chained := fun _ _ _ => .inr rfl
            body := fun d h => absurd h (NodeKind.ne_funcDecl_of_isBare rfl d)
            outside := fun _ _ => List.forall_mem_cons.mpr ⟨ht.2, hws⟩ }
        refine (Reads.node hI rfl hformed (.of_isBare rfl)).bind ?_
        rintro id s'' us - rfl
        have hpair : (Tree.node id .pair [t, u]).ImportFree :=
          Tree.importFree_node.mpr ⟨List.forall_mem_cons.mpr ⟨ht.2, hws⟩, rfl⟩
        exact .pure ⟨rfl, by simp, by simpa using hpair⟩

/-- A block without imports. -/
structure IsBody (t : Tree) : Prop where
  kind : t.kind = .block
  importFree : t.ImportFree

theorem IsBody.isValue {t : Tree} (h : IsBody t) : t.IsValue := ⟨by rw [h.kind]; rfl, h.importFree⟩

theorem reads_block (hI : Adds.Keeps W I) (hp : PartsRead I parts) :
    Reads I n n (block parts) s [] (One IsBody) := by
  refine .quiet hI quiet_advance fun _ => (Reads.enterScope hI).bind ?_
  rintro _ s' us - ⟨rfl, -⟩
  refine .quiet hI quiet_bound fun n => (reads_statements hI hp n).bind ?_
  rintro ids s'' us - ⟨hus, hplaced⟩
  have hstatements : ∀ u ∈ us, u.kind ≠ .pair ∧ u.ImportFree := fun u hu =>
    ⟨(hplaced u hu).single, (hplaced u hu).importFree (Nat.succ_pos _)⟩
  refine (reads_chain hI ids hus hstatements).bind ?_
  rintro sequence s₃ us - ⟨hids, hlen, hfree⟩
  refine (Reads.leaveScope hI).bind ?_
  rintro _ s₄ us - ⟨rfl, rfl⟩
  refine .quiet hI (quiet_expect _) fun _ => .quiet hI (quiet_spanFrom _) fun _ => ?_
  refine Reads.one hI hids (fun i => ?_) (.of_isBare rfl) fun i =>
    ⟨rfl, Tree.importFree_node.mpr ⟨hfree, rfl⟩⟩
  exact
    { arity := hlen
      operands := by simp [Tree.operands]
      chain := fun h => absurd h (by simp)
      chained := fun _ _ _ => .inl rfl
      body := fun d h => absurd h (NodeKind.ne_funcDecl_of_isBare rfl d)
      outside := fun _ _ => hfree }

-- ---------------------------------------------------------------------------
-- Expressions
-- ---------------------------------------------------------------------------

/-- The arms have no imports if `q` holds, and the whole has none then. -/
theorem reads_conditional (hI : Adds.Keeps W I) (hp : PartsRead I parts) {arm : Parse NodeId}
    {q : Prop}
    (harm : ∀ s, Reads I n n arm s [] (One fun t => t.kind ≠ .pair ∧ (q → t.ImportFree))) :
    Reads I n n (conditional parts arm) s [] (One fun t => t.kind ≠ .pair ∧ (q → t.IsValue)) := by
  refine .quiet hI quiet_advance fun _ => (hp.expr _ _ _).bind ?_
  rintro condition s' us - ⟨c, rfl, rfl, hk⟩
  refine ((harm s').after [c]).bind ?_
  rintro first s'' us - ⟨_, rfl, ⟨a, rfl, rfl, ha⟩⟩
  have hformed : ∀ arms : List Tree, arms.length ≤ 1 → (∀ t ∈ arms, t.kind ≠ .pair) →
      ∀ i, (Tree.node i .ifElse ([c, a] ++ arms)).Formed := by
    intro arms hlen harms i
    refine Tree.Shaped.formed ⟨?_, by simpa [Tree.operands] using hk⟩ ?_
      (NodeKind.ne_funcDecl_of_isBare rfl) fun hk => absurd rfl hk
    · show ([c, a] ++ arms).length = 2 ∨ ([c, a] ++ arms).length = 3
      simp only [List.length_append, List.length_cons, List.length_nil]
      omega
    · exact List.forall_mem_cons.mpr ⟨hk.single, List.forall_mem_cons.mpr ⟨ha.1, harms⟩⟩
  refine .quiet hI (quiet_accept _) fun b => ?_
  cases b
  · simp only [Bool.false_eq_true, ↓reduceIte, pure_bind]
    refine .quiet hI (quiet_spanFrom _) fun _ => ?_
    refine Reads.one hI rfl (hformed [] (by simp) (by simp)) (.of_isBare rfl)
      fun i => ⟨by simp, fun hq => isValue_of_all rfl ?_ i⟩
    simpa using ⟨hk.importFree, ha.2 hq⟩
  · simp only [↓reduceIte, pure_bind]
    refine ((harm s'').after [c, a]).bind ?_
    rintro second s₃ us - ⟨_, rfl, ⟨b, rfl, rfl, hb⟩⟩
    refine .quiet hI (quiet_spanFrom _) fun _ => ?_
    refine Reads.one hI rfl (hformed [b] (by simp) (by simpa using hb.1)) (.of_isBare rfl)
      fun i => ⟨by simp, fun hq => isValue_of_all rfl ?_ i⟩
    simpa using ⟨hk.importFree, ha.2 hq, hb.2 hq⟩

theorem One.mono {P Q : Tree → Prop} {id : NodeId} (h : One P id s us) (hq : ∀ t, P t → Q t) :
    One Q id s us := by
  obtain ⟨t, hus, hid, ht⟩ := h
  exact ⟨t, hus, hid, hq t ht⟩

theorem reads_armExpr (hI : Adds.Keeps W I) (hp : PartsRead I parts) (s : Session) :
    Reads I n n (armExpr parts) s [] (One Tree.IsValue) := by
  refine .quiet hI (quiet_isAt _) fun b => ?_
  cases b
  · exact hp.expr _ _ _
  · exact (reads_block hI hp).imp fun _ _ _ _ h => h.mono fun _ ht => ht.isValue

theorem reads_operand (hI : Adds.Keeps W I) (hp : PartsRead I parts) :
    Reads I n n (operand parts) s [] (One Tree.IsValue) := by
  refine .quiet hI quiet_current fun token => ?_
  split
  · exact reads_intLiteral hI token
  · exact reads_floatLiteral hI token
  · exact reads_boolLiteral hI token true
  · exact reads_boolLiteral hI token false
  · exact reads_stringLiteral hI token
  · exact .quiet hI quiet_advance fun _ => Reads.value hI rfl rfl rfl (by simp) (by simp)
  · exact reads_prefixed hI hp .neg
  · exact reads_prefixed hI hp .not
  · exact reads_grouping hI hp
  · exact reads_listLiteral hI hp
  · exact (reads_block hI hp).imp fun _ _ _ _ h => h.mono fun _ ht => ht.isValue
  · have harm : ∀ s, Reads I n n (armExpr parts) s []
        (One fun t => t.kind ≠ .pair ∧ (True → t.ImportFree)) := fun s =>
      (reads_armExpr hI hp s).imp fun _ _ _ _ h => h.mono fun _ ht =>
        ⟨ht.single, fun _ => ht.importFree⟩
    exact (reads_conditional hI hp harm).imp fun _ _ _ _ h => h.mono fun _ ht => ht.2 trivial
  · exact .unexpected

variable {left : Tree}

theorem reads_operation (hI : Adds.Keeps W I) (hp : PartsRead I parts) {kind : NodeKind}
    {power : Power} (hl : left.IsValue) (ha : kind.Arity 2) (hk : kind ≠ .literal)
    (ho : kind.isOperand) : Reads I n n (operation parts kind power left.handle) s [left]
      (One Tree.IsValue) := by
  refine .quiet hI quiet_advance fun _ => ((hp.expr _ power s).after [left]).bind ?_
  rintro right s' us - ⟨_, rfl, ⟨r, rfl, rfl, hr⟩⟩
  refine .quiet hI (quiet_spanOf _) fun _ => .quiet hI (quiet_spanOf _) fun _ => ?_
  exact Reads.value hI rfl ha ho hk (by simpa using ⟨hl, hr⟩)

theorem reads_arguments (hI : Adds.Keeps W I) (hp : PartsRead I parts) (fuel : Nat) :
    Reads I n n (arguments parts fuel) s [] fun ids _ us => List.Forall₂ Operand ids us := by
  induction fuel generalizing s with
  | zero => exact .endless
  | succ fuel ih =>
    refine .quiet hI quiet_currentKind fun kind => ?_
    split
    · exact .pure .nil
    · exact .quiet hI quiet_advance fun _ => ih
    · refine (reads_operand_of_expr hp _ s).bind ?_
      rintro id s' us - ⟨t, rfl, ht⟩
      refine (ih.after [t]).bind ?_
      rintro ids s'' us - ⟨ws, rfl, hws⟩
      exact .pure (.cons ht hws)

theorem reads_call (hI : Adds.Keeps W I) (hp : PartsRead I parts) :
    Reads I n n (call parts left.handle) s [left] (One Tree.IsValue) := by
  refine .quiet hI quiet_session fun _ => ?_
  split
  · refine .quiet hI (quiet_spanOf _) fun _ => .quiet hI quiet_advance fun _ => ?_
    -- the name that is called stays behind
    refine (Reads.after (R := One Tree.IsValue) ?_ [left]).reorder ?_
    · refine .quiet hI quiet_bound fun n => (reads_arguments hI hp n).bind ?_
      rintro ids s' us - hus
      obtain ⟨hids, hk⟩ := forall₂_operand hus
      refine .quiet hI (quiet_expect _) fun _ => .quiet hI (quiet_spanFrom _) fun _ => ?_
      exact Reads.value hI hids trivial rfl (by simp) hk
    · rintro id s' us ⟨ws, rfl, hws⟩
      exact ⟨ws, [left], List.perm_append_comm, hws⟩
  · exact .refuse _

theorem reads_indexing (hI : Adds.Keeps W I) (hp : PartsRead I parts) (hl : left.IsValue) :
    Reads I n n (indexing parts left.handle) s [left] (One Tree.IsValue) := by
  refine .quiet hI quiet_advance fun _ => ((hp.expr _ _ s).after [left]).bind ?_
  rintro index s' us - ⟨_, rfl, ⟨r, rfl, rfl, hr⟩⟩
  refine .quiet hI (quiet_expect _) fun _ => .quiet hI (quiet_spanOf _) fun _ =>
    .quiet hI (quiet_spanFrom _) fun _ => ?_
  exact Reads.value hI rfl rfl rfl (by simp) (by simpa using ⟨hl, hr⟩)

theorem reads_memberAccess (hI : Adds.Keeps W I) (hl : left.IsValue) :
    Reads I n n (memberAccess left.handle) s [left] (One Tree.IsValue) := by
  have hname : ∀ name span, Reads I n n (node (.field name) span [left.handle]) s [left]
      (One Tree.IsValue) := fun name span =>
    Reads.value hI rfl rfl rfl (by simp) (by simpa using hl)
  refine .quiet hI quiet_advance fun _ => .quiet hI quiet_currentKind fun kind => ?_
  split
  · exact .quiet hI quiet_advance fun _ => .quiet hI (quiet_spanOf _) fun _ =>
      .quiet hI (quiet_spanFrom _) fun _ => hname _ _
  · exact .quiet hI quiet_advance fun _ => .quiet hI (quiet_spanOf _) fun _ =>
      .quiet hI (quiet_spanFrom _) fun _ => hname _ _
  · exact .refuse _

theorem reads_extend (hI : Adds.Keeps W I) (hp : PartsRead I parts) (hl : left.IsValue)
    (next : Continuation) : Reads I n n (extend parts left.handle next) s [left]
      (One Tree.IsValue) := by
  cases next with
  | assign => exact reads_operation hI hp hl rfl (by simp) rfl
  | refBind => exact reads_operation hI hp hl rfl (by simp) rfl
  | binary op => exact reads_operation hI hp hl rfl (by simp) rfl
  | call => exact reads_call hI hp
  | index => exact reads_indexing hI hp hl
  | member => exact reads_memberAccess hI hl

theorem reads_climb (hI : Adds.Keeps W I) (hp : PartsRead I parts) (power : Power) (fuel : Nat)
    (hl : left.IsValue) :
    Reads I n n (climb parts power fuel left.handle) s [left] (One Tree.IsValue) := by
  induction fuel generalizing s left with
  | zero => exact .endless
  | succ fuel ih =>
    refine .quiet hI quiet_currentKind fun kind => ?_
    split
    · exact .pure ⟨left, rfl, rfl, hl⟩
    · split
      · exact .pure ⟨left, rfl, rfl, hl⟩
      · refine (reads_extend hI hp hl _).bind ?_
        rintro id s' us - ⟨t, rfl, rfl, ht⟩
        exact ih ht

theorem reads_expression (hI : Adds.Keeps W I) (hp : PartsRead I parts) (power : Power) :
    Reads I n n (expression parts power) s [] (One Tree.IsValue) := by
  refine (reads_operand hI hp).bind ?_
  rintro id s' us - ⟨t, rfl, rfl, ht⟩
  exact .quiet hI quiet_bound fun n => reads_climb hI hp power n ht

end Grammar
end BlockLang
