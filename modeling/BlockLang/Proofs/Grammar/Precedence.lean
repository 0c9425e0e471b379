import BlockLang.Proofs.Grammar.Chain
import BlockLang.Proofs.Grammar.Expression
import BlockLang.Proofs.Grammar.Type
import BlockLang.Proofs.Value.Storage

/-!
# Chains are read by precedence

An expression that is a chain of operators is read up to its end, into the nodes of its
grouped term (`expr_chain`). An expression within a stronger context is read up to the first
operator that binds no more strongly than the context.
-/

namespace BlockLang

/-- Nodes, types and values have come new, and nothing else has changed. -/
structure Enriches (s s' : Session) : Prop where
  labels : s.tree.Extends s'.tree
  types : s.types.Extends s'.types
  values : s.values.Grows s'.values
  rest : s' = { s with tree := s'.tree, types := s'.types, values := s'.values }

theorem Enriches.refl (s : Session) : Enriches s s := ⟨.refl _, .refl _, .refl _, rfl⟩

theorem Enriches.trans (h : Enriches s s') (h' : Enriches s' s'') : Enriches s s'' :=
  ⟨h.labels.trans h'.labels, h.types.trans h'.types, h.values.trans h'.values, by
    rw [h'.rest, h.rest]⟩

theorem Gains.enriches (h : Gains scope s s') : Enriches s s' := by
  refine ⟨h.tree.labels, ?_, ?_, ?_⟩ <;> rw [h.rest]
  · exact .refl _
  · exact .refl _

namespace Grammar

open Parse

-- ---------------------------------------------------------------------------
-- Terms as nodes
-- ---------------------------------------------------------------------------

/-- The type and the value of a literal. -/
inductive Denotes (types : TypeTable) (token : Token) : TypeId → (Heap → ValueId × Heap) → Prop
  | int (h : token.kind = .number) : Denotes types token Primitive.int64.typeId
    (·.ofScalar Primitive.int64.typeId .int64
      (.int (.ofNat (Number.ofDigits token.value.toList))))
  | float (h : token.kind = .float) : Denotes types token Primitive.float64.typeId
    (·.ofScalar Primitive.float64.typeId .float64 (.float (Number.readDecimal token.value.toList)))
  | bool (b : Bool) (h : token.kind = if b then .trueWord else .falseWord) :
    Denotes types token Primitive.bool.typeId (·.ofScalar Primitive.bool.typeId .bool (.bool b))
  | string (h : token.kind = .string) (hk : types.kind type =
      .list Primitive.int8.typeId (some (.ofNat token.value.toUTF8.toList.length))) :
    Denotes types token type (bytesValue type token.value.toUTF8.toList)

/-- The node of a name or a literal. It stands where the token does. -/
inductive SpellsAtom (s : Session) (token : Token) : Tree → Prop
  | name (hk : token.kind = .identifier)
    (hl : s.tree.label i = some ⟨.symbol token.value, token.span, scope, .none⟩) :
    SpellsAtom s token (.node i (.symbol token.value) [])
  | literal (hd : Denotes s.types token type value)
    (hl : s.tree.label i = some ⟨.literal, token.span, scope,
      ⟨some type, some (value heap).1, false, none⟩⟩)
    (hv : (value heap).2.Grows s.values) : SpellsAtom s token (.node i .literal [])

/-- Each prefix operator has a node over what follows it. -/
inductive SpellsFactor (s : Session) (atom : Token) : List UnaryMark → Tree → Prop
  | atom (h : SpellsAtom s atom t) : SpellsFactor s atom [] t
  | mark (h : SpellsFactor s atom marks t) :
    SpellsFactor s atom (mark :: marks) (.node i (.unary mark.op) [t])

/-- Each binary operator has a node over its operands. -/
inductive Spells (s : Session) : Term → Tree → Prop
  | factor (h : SpellsFactor s x.atom x.marks t) : Spells s (.factor x) t
  | binary (hl : Spells s left t) (hr : Spells s right u) :
    Spells s (.binary left mark right) (.node i (.binary mark.op) [t, u])

section
variable {s s' : Session} {token : Token} {t u : Tree} {term : Term}

theorem Denotes.enriches {type : TypeId} {value : Heap → ValueId × Heap}
    (h : Denotes s.types token type value) (he : Enriches s s') :
    Denotes s'.types token type value := by
  cases h with
  | int h => exact .int h
  | float h => exact .float h
  | bool b h => exact .bool b h
  | string h hk =>
    have hhas : s.types.Has type := TypeTable.has_of_kind_ne_error (by simp [hk])
    exact .string h ((he.types.kind hhas).trans hk)

theorem SpellsAtom.enriches (h : SpellsAtom s token t) (he : Enriches s s') :
    SpellsAtom s' token t := by
  cases h with
  | name hk hl => exact .name hk (he.labels _ _ hl)
  | literal hd hl hv => exact .literal (hd.enriches he) (he.labels _ _ hl) (hv.trans he.values)

theorem SpellsFactor.enriches (h : SpellsFactor s token marks t) (he : Enriches s s') :
    SpellsFactor s' token marks t := by
  induction h with
  | atom h => exact .atom (h.enriches he)
  | mark _ ih => exact .mark ih

theorem Spells.enriches (h : Spells s term t) (he : Enriches s s') : Spells s' term t := by
  induction h with
  | factor h => exact .factor (h.enriches he)
  | binary _ _ ihl ihr => exact .binary ihl ihr

end

-- ---------------------------------------------------------------------------
-- Reading parts
-- ---------------------------------------------------------------------------

/-- With the trees `ts` at hand, `p` leaves one tree instead, of which `Q` holds. The tokens
`rest` are ahead then, and nothing else has changed about the cursor. -/
def Makes (p : Parse NodeId) (c : Cursor) (s : Session) (ts : List Tree) (rest : List Token)
    (Q : Tree → Session → Prop) : Prop :=
  ∀ us, s.tree.Forest (ts ++ us) → Returns (p.run c) s fun r s' => ∃ t, r.1 = t.handle ∧
    r.2 = { c with rest, previousStop := r.2.previousStop } ∧ s'.tree.Forest (t :: us) ∧
    Enriches s s' ∧ Q t s'

section
variable {c c' : Cursor} {s : Session} {ts : List Tree} {rest tail : List Token}
  {Q R : Tree → Session → Prop} {p : Parse NodeId} {token : Token}

theorem Makes.imp (h : Makes p c s ts rest Q) (hq : ∀ t s', Q t s' → R t s') :
    Makes p c s ts rest R := by
  intro us hf
  refine (h us hf).imp ?_
  rintro r s' ⟨t, hid, hc, hforest, he, ht⟩
  exact ⟨t, hid, hc, hforest, he, hq t s' ht⟩

theorem Makes.pure {t : Tree} (hc : c.rest = rest) (h : Q t s) :
    Makes (Pure.pure t.handle) c s [t] rest Q := by
  subst hc
  exact fun us hf => ⟨t, rfl, rfl, hf, .refl s, h⟩

theorem run_bind_of_gets {q : Parse α} {f : α → Parse β} {a : α} (h : Gets q c a c') :
    (q >>= f).run c = (f a).run c' := by
  rw [StateT.run_bind, h, pure_bind]

/-- A step that looks at the cursor only. -/
theorem Makes.look {q : Parse α} {f : α → Parse NodeId} {a : α} (h : Gets q c a c)
    (hf : Makes (f a) c s ts rest Q) : Makes (q >>= f) c s ts rest Q := by
  intro us hforest
  rw [run_bind_of_gets h]
  exact hf us hforest

theorem gets_current : Gets current c c.current c := rfl

theorem gets_spanFrom (start : Position) : Gets (spanFrom start) c ⟨start, c.previousStop⟩ c := rfl

theorem Makes.spanOf {id : NodeId} {f : Span → Parse NodeId}
    (h : Makes (f (s.tree.span id)) c s ts rest Q) :
    Makes (Parse.spanOf id >>= f) c s ts rest Q := h

/-- The trees `vs` are set aside while `p` works. -/
theorem Makes.bind {f : NodeId → Parse NodeId} (vs : List Tree) (hp : Makes p c s ts tail R)
    (hf : ∀ u c' s', c'.rest = tail → Enriches s s' → R u s' →
      Makes (f u.handle) c' s' (vs ++ [u]) rest Q) : Makes (p >>= f) c s (vs ++ ts) rest Q := by
  intro us hforest
  rw [StateT.run_bind, Returns, triple_bind]
  have hperm : (vs ++ ts ++ us).Perm (ts ++ (vs ++ us)) := by
    rw [← List.append_assoc]
    exact List.perm_append_comm.append_right us
  refine (hp (vs ++ us) (hforest.perm hperm)).imp ?_
  rintro ⟨_, c'⟩ s' ⟨u, rfl, hc, hforest', he, hu⟩
  dsimp only at hc
  have hrest : c'.rest = tail := by rw [hc]
  have hperm' : (u :: (vs ++ us)).Perm (vs ++ [u] ++ us) := by
    simpa using (List.perm_middle : (vs ++ u :: us).Perm _).symm
  refine (hf u c' s' hrest he hu us (hforest'.perm hperm')).imp ?_
  rintro ⟨_, c''⟩ s'' ⟨t, rfl, hc', hforest'', he', ht⟩
  refine ⟨t, rfl, ?_, hforest'', he.trans he', ht⟩
  dsimp only at hc' ⊢
  rw [hc', hc]

/-- A node takes the trees at hand. -/
theorem makes_node {kind : NodeKind} {span : Span} {children : List NodeId}
    (hchildren : children = ts.map Tree.handle) (hc : c.rest = rest)
    (h : ∀ i s', Enriches s s' → Q (.node i kind ts) s') :
    Makes (node kind span children) c s ts rest Q := by
  subst hc
  intro us hforest
  refine triple_pass.mpr ((Pass.triple_addNode hforest hchildren).imp ?_)
  rintro i s' ⟨hforest', -, hg⟩
  exact ⟨_, rfl, rfl, hforest', hg.enriches, h i s' hg.enriches⟩

theorem Makes.makeType {f : TypeTable → TypeId × TypeTable} {k : TypeId → Parse NodeId}
    (hf : ∀ t : TypeTable, t.Extends (f t).2)
    (h : Makes (k (f s.types).1) c { s with types := (f s.types).2 } ts rest Q) :
    Makes (pass (.makeType f) >>= k) c s ts rest Q := by
  intro us hforest
  rw [StateT.run_bind, Returns, triple_bind]
  refine triple_pass.mpr (Pass.triple_makeType.mpr ((h us hforest).imp ?_))
  rintro r s' ⟨t, hid, hc, hforest', he, hq⟩
  have he₀ : Enriches s { s with types := (f s.types).2 } := ⟨.refl _, hf _, .refl _, rfl⟩
  exact ⟨t, hid, hc, hforest', he₀.trans he, hq⟩

/-- A step that reads a token. -/
theorem Makes.advance {f : Token → Parse NodeId} (hc : c.rest = token :: tail)
    (hf : Makes (f token) c.next s ts rest Q) : Makes (Parse.advance >>= f) c s ts rest Q := by
  intro us hforest
  rw [run_bind_of_gets gets_advance, Cursor.current_of_rest hc]
  refine (hf us hforest).imp ?_
  rintro r s' ⟨t, hid, hcursor, h⟩
  refine ⟨t, hid, hcursor.trans ?_, h⟩
  rw [Cursor.next, hc]

end

-- ---------------------------------------------------------------------------
-- Names and literals
-- ---------------------------------------------------------------------------

/-- A new node without children is as it was asked for. -/
theorem triple_addLeaf {s : Session} {us : List Tree} {kind : NodeKind} {span : Span}
    {scope : ScopeId} {E : Fault → Session → Prop} (h : s.tree.Forest us) :
    Triple (Pass.addNode kind span scope []) s (fun i s' =>
      s'.tree.Forest (.node i kind [] :: us) ∧ s'.tree.label i = some ⟨kind, span, scope, .none⟩ ∧
        i = ⟨s.tree.size⟩ ∧ Gains scope s s') E := by
  have hlabel : IfReturns (Pass.addNode kind span scope []) s fun i s' =>
      s'.tree.label i = some ⟨kind, span, scope, .none⟩ := by
    unfold Pass.addNode
    simp only [IfReturns, triple_bind, triple_get, triple_modify, triple_pure, Pass.triple_tryTree]
    exact Arena.label_add_self s.tree kind span scope
  refine ((Pass.triple_addNode (show s.tree.Forest ([] ++ us) from h) rfl).and hlabel).imp ?_
  rintro i s' ⟨⟨hforest, hi, hg⟩, hl⟩
  exact ⟨hforest, hl, hi, hg⟩

section
variable {c : Cursor} {s : Session} {rest : List Token} {token : Token}
  {parts : Productions Power}

theorem makes_name (hk : token.kind = .identifier) (hc : c.rest = rest) :
    Makes (node (.symbol token.value) token.span []) c s [] rest
      fun t s' => SpellsAtom s' token t := by
  subst hc
  intro us hforest
  refine triple_pass.mpr ((triple_addLeaf hforest).imp ?_)
  rintro i s' ⟨hforest', hl, -, hg⟩
  exact ⟨_, rfl, rfl, hforest', hg.enriches, .name hk hl⟩

theorem makes_literal {type : TypeId} {value : Heap → ValueId × Heap}
    (hd : Denotes s.types token type value) (hv : ∀ h : Heap, h.Grows (value h).2)
    (hc : c.rest = rest) :
    Makes (literal type value token.span) c s [] rest fun t s' => SpellsAtom s' token t := by
  subst hc
  intro us hforest
  unfold literal
  rw [StateT.run_bind, Returns, triple_bind]
  refine triple_pass.mpr ((triple_addLeaf hforest).imp ?_)
  rintro i s' ⟨hforest', hl, rfl, hg⟩
  have he := hg.enriches
  have htypes : s'.types = s.types := by rw [hg.rest]
  refine ⟨.node ⟨s.tree.size⟩ .literal [], rfl, rfl, hforest'.congr fun _ _ =>
    Arena.links_annotate _, ⟨fun id l hl => ?_, he.types, he.values.trans (hv s'.values), ?_⟩, ?_⟩
  · have hne : (⟨s.tree.size⟩ : NodeId) ≠ id := by
      rintro rfl
      exact Nat.lt_irrefl _ (Arena.lt_size_of_label hl)
    exact (Arena.label_annotate_ne hne _).trans (he.labels id l hl)
  · rw [he.rest]
  · have hlabel (f : Facts → Facts) : (s'.tree.annotate ⟨s.tree.size⟩ f).label ⟨s.tree.size⟩ =
        some ⟨.literal, token.span, c.scope, f .none⟩ := by
      rw [Arena.label_annotate_self, hl]
      rfl
    exact .literal (htypes ▸ hd) (hlabel _) (.refl (value s'.values).2)

theorem grows_ofScalar (h : Heap) (type : TypeId) (p : Primitive) (x : Scalar) :
    h.Grows (h.ofScalar type p x).2 := Heap.grows_alloc h _

theorem grows_sequence (h : Heap) (type : TypeId) (elements : List ValueId) :
    h.Grows (h.sequence type elements).2 := by
  unfold Heap.sequence
  dsimp only
  split <;> exact Heap.grows_alloc h _

theorem grows_mapHeap {f : Heap → α → β × Heap} (hf : ∀ (h : Heap) a, h.Grows (f h a).2)
    (as : List α) (h : Heap) : h.Grows (Heap.mapHeap f h as).2 := by
  induction as generalizing h with
  | nil => exact .refl h
  | cons a as ih => exact (hf h a).trans (ih _)

theorem grows_bytesValue (type : TypeId) (bytes : List UInt8) (h : Heap) :
    h.Grows (bytesValue type bytes h).2 :=
  (grows_mapHeap (fun h _ => grows_ofScalar h _ _ _) bytes h).trans (grows_sequence _ _ _)

/-- A name or a literal is read as its node. -/
theorem makes_atom (h : isAtom token = true) (hc : c.rest = token :: rest) :
    Makes (operand parts) c s [] rest fun t s' => SpellsAtom s' token t := by
  have hcurrent : c.current = token := Cursor.current_of_rest hc
  have hnext : c.next.rest = rest := by rw [Cursor.next, hc]
  have hscalar (type : TypeId) (p : Primitive) (x : Scalar) : ∀ h : Heap,
      h.Grows (h.ofScalar type p x).2 := fun h => grows_ofScalar h type p x
  unfold operand
  refine .look gets_current ?_
  rw [hcurrent]
  unfold isAtom at h
  split at h
  · rename_i hk
    rw [hk]
    exact .advance hc (makes_name hk hnext)
  · rename_i hk
    rw [hk]
    exact .advance hc (makes_literal (.float hk) (hscalar _ _ _) hnext)
  · rename_i hk
    rw [hk]
    exact .advance hc (makes_literal (.bool true hk) (hscalar _ _ _) hnext)
  · rename_i hk
    rw [hk]
    exact .advance hc (makes_literal (.bool false hk) (hscalar _ _ _) hnext)
  · rename_i hk
    rw [hk]
    refine .advance hc (.makeType (fun t => t.extends_intern _) ?_)
    refine makes_literal (.string hk ?_) (grows_bytesValue _ _) hnext
    exact TypeTable.kind_intern _ _
  · rename_i hk
    rw [hk]
    have hnumber : Gets (boundedNumber token (Nat.pow 2 63 - 1)) c
        (Number.ofDigits token.value.toList) c := by
      rw [boundedNumber, if_pos (by simpa using h)]
      exact .pure _
    exact .look hnumber (.advance hc (makes_literal (.int hk) (hscalar _ _ _) hnext))
  · cases h

end

-- ---------------------------------------------------------------------------
-- Chains
-- ---------------------------------------------------------------------------

/-- `term` is what an expression takes from a chain where it stands in a context that binds as
`power` says: everything up to the first operator that binds no more strongly. The rest of the
chain is `left`. -/
structure Portion (power : Nat) (first : Factor) (links left : List (BinaryMark × Factor))
    (term : Term) : Prop where
  first : term.first = first
  links : links = term.links ++ left
  above : ∀ link ∈ term.links, power < link.1.rank
  below : ∀ link ∈ left.head?, link.1.rank ≤ power
  grouped : term.Grouped

/-- Chains of at most `n` tokens are read by precedence. -/
def ReadsChains (expr : Power → Parse NodeId) (n : Nat) : Prop :=
  ∀ power first links, (first.tokens ++ linkTokens links).length ≤ n →
    ∃ left term, Portion power.rank first links left term ∧
      ∀ next rest, continuation? next.kind = none → ∀ c s,
        c.rest = first.tokens ++ (linkTokens links ++ next :: rest) →
        Makes (expr power) c s [] (linkTokens left ++ next :: rest) fun t s' => Spells s' term t

section
variable {parts : Productions Power} {n : Nat} {c : Cursor} {s : Session} {rest tail : List Token}

theorem length_linkTokens_cons (mark : BinaryMark) (x : Factor)
    (links : List (BinaryMark × Factor)) : (linkTokens ((mark, x) :: links)).length =
      (x.tokens ++ linkTokens links).length + 1 := by
  simp [linkTokens]

theorem length_le_linkTokens (links : List (BinaryMark × Factor)) :
    links.length ≤ (linkTokens links).length := by
  induction links with
  | nil => exact Nat.le_refl _
  | cons link links ih =>
    obtain ⟨mark, x⟩ := link
    rw [length_linkTokens_cons, List.length_cons, List.length_append]
    omega

theorem continuation?_of_binaryOp? {kind : Token.Kind} {op : BinaryOp}
    (h : binaryOp? kind = some op) : continuation? kind = some (.binary op) := by
  cases kind <;> cases h <;> rfl

theorem rank_pos (op : BinaryOp) : Power.lowest.rank < (operatorPower op).rank := by
  cases op <;> decide

theorem rank_lt_unary (op : BinaryOp) : (operatorPower op).rank < Power.unary.rank := by
  cases op <;> decide

theorem kind_of_prefixOp? {kind : Token.Kind} {op : UnaryOp} (h : prefixOp? kind = some op) :
    kind = .dash ∧ op = .neg ∨ kind = .not ∧ op = .not := by
  cases kind <;> cases h
  · exact .inr ⟨rfl, rfl⟩
  · exact .inl ⟨rfl, rfl⟩

theorem makes_prefixed {mark : UnaryMark} {marks : List UnaryMark} {atom : Token}
    (hc : c.rest = mark.token :: tail)
    (hp : ∀ c', c'.rest = tail → Makes (parts.expr .unary) c' s [] rest
      fun t s' => SpellsFactor s' atom marks t) :
    Makes (prefixed parts mark.op) c s [] rest
      fun t s' => SpellsFactor s' atom (mark :: marks) t := by
  have hnext : c.next.rest = tail := by rw [Cursor.next, hc]
  refine .advance hc (.bind [] (hp c.next hnext) fun u c' s' hc' _ hu => ?_)
  exact .look (gets_spanFrom _) (makes_node rfl hc' fun i s'' he => .mark (hu.enriches he))

/-- A factor is read as far as it goes, whatever operator comes next. -/
theorem makes_factor (ih : ReadsChains parts.expr n) (x : Factor)
    (links : List (BinaryMark × Factor)) (hn : (x.tokens ++ linkTokens links).length ≤ n + 1)
    {next : Token} (hnext : continuation? next.kind = none)
    (hc : c.rest = x.tokens ++ (linkTokens links ++ next :: rest)) :
    Makes (operand parts) c s [] (linkTokens links ++ next :: rest)
      fun t s' => Spells s' (.factor x) t := by
  obtain ⟨marks, atom, hatom⟩ := x
  cases marks with
  | nil => exact (makes_atom hatom hc).imp fun _ _ h => .factor (.atom h)
  | cons mark marks =>
    have hrest : c.rest = mark.token ::
        ((⟨marks, atom, hatom⟩ : Factor).tokens ++ (linkTokens links ++ next :: rest)) := hc
    have hcurrent : c.current = mark.token := Cursor.current_of_rest hrest
    have hlength : ((⟨marks, atom, hatom⟩ : Factor).tokens ++ linkTokens links).length ≤ n := by
      simp only [Factor.tokens, List.map_cons, List.cons_append, List.length_cons] at hn ⊢
      omega
    obtain ⟨left, term, hportion, hmakes⟩ := ih .unary ⟨marks, atom, hatom⟩ links hlength
    -- no binary operator binds more strongly than a prefix
    have hnone : term.links = [] := List.eq_nil_iff_forall_not_mem.mpr fun link hl =>
      absurd (rank_lt_unary link.1.op) (Nat.not_lt.mpr (Nat.le_of_lt (hportion.above link hl)))
    obtain rfl : links = left := by simpa [hnone] using hportion.links
    obtain rfl := Term.eq_factor hportion.first hnone
    have hprefixed : Makes (prefixed parts mark.op) c s [] (linkTokens links ++ next :: rest)
        fun t s' => SpellsFactor s' atom (mark :: marks) t :=
      makes_prefixed hrest fun c' hc' => (hmakes next rest hnext c' s hc').imp fun t s' h => by
        cases h with
        | factor h => exact h
    unfold operand
    refine .look gets_current ?_
    rw [hcurrent]
    rcases kind_of_prefixOp? mark.reads with ⟨hk, hop⟩ | ⟨hk, hop⟩
    · rw [hop] at hprefixed
      rw [hk]
      exact hprefixed.imp fun _ _ h => .factor h
    · rw [hop] at hprefixed
      rw [hk]
      exact hprefixed.imp fun _ _ h => .factor h

/-- An operator gets a node over what stands before it and what its context takes. -/
theorem makes_operation {mark : BinaryMark} {left right : Term} {t : Tree}
    (hc : c.rest = mark.token :: tail) (hl : Spells s left t)
    (hp : ∀ c', c'.rest = tail → Makes (parts.expr (operatorPower mark.op)) c' s [] rest
      fun u s' => Spells s' right u) :
    Makes (operation parts (.binary mark.op) (operatorPower mark.op) t.handle) c s [t] rest
      fun u s' => Spells s' (.binary left mark right) u := by
  have hnext : c.next.rest = tail := by rw [Cursor.next, hc]
  refine .advance hc (.bind [t] (hp c.next hnext) fun u c' s' hc' he hu => ?_)
  exact .spanOf (.spanOf (makes_node rfl hc' fun i s'' he' =>
    .binary (hl.enriches (he.trans he')) (hu.enriches he')))

/-- What has been read is all there is when no operator binds more strongly than the context. -/
theorem makes_climb_stop {power : Power} {fuel : Nat} {token : Token} {t : Tree}
    {Q : Tree → Session → Prop} (hfuel : 0 < fuel) (hc : c.rest = token :: rest)
    (hstop : ∀ more ∈ continuation? token.kind, more.power.rank ≤ power.rank) (ht : Q t s) :
    Makes (climb parts power fuel t.handle) c s [t] (token :: rest) Q := by
  obtain ⟨fuel, rfl⟩ := Nat.exists_eq_succ_of_ne_zero (Nat.ne_of_gt hfuel)
  unfold climb
  refine .look gets_currentKind ?_
  rw [Cursor.kind_of_rest hc]
  cases hk : continuation? token.kind with
  | none => exact .pure hc ht
  | some more =>
    dsimp only
    rw [if_pos (hstop more hk)]
    exact .pure hc ht

/-- An expression goes on with a token that binds more strongly than its context. -/
theorem makes_climb_extend {power : Power} {fuel : Nat} {token : Token} {more : Continuation}
    {t : Tree} {Q R : Tree → Session → Prop} (hc : c.rest = token :: tail)
    (hmore : continuation? token.kind = some more) (hrank : power.rank < more.power.rank)
    (hp : Makes (extend parts t.handle more) c s [t] ahead R)
    (hnext : ∀ u c' s', c'.rest = ahead → R u s' →
      Makes (climb parts power fuel u.handle) c' s' [u] rest Q) :
    Makes (climb parts power (fuel + 1) t.handle) c s [t] rest Q := by
  unfold climb
  refine .look gets_currentKind ?_
  rw [Cursor.kind_of_rest hc, hmore]
  dsimp only
  rw [if_neg (Nat.not_le_of_gt hrank)]
  exact .bind [] hp fun u c' s' hc' _ hu => hnext u c' s' hc' hu

/-- An operator that binds more strongly than the context is read with its right operand. -/
theorem makes_climb_step {power : Power} {fuel : Nat} {mark : BinaryMark} {left right : Term}
    {t : Tree} {Q : Tree → Session → Prop} (hrank : power.rank < mark.rank)
    (hc : c.rest = mark.token :: tail) (hl : Spells s left t)
    (hp : ∀ c', c'.rest = tail → Makes (parts.expr (operatorPower mark.op)) c' s [] ahead
      fun u s' => Spells s' right u)
    (hmore : ∀ u c' s', c'.rest = ahead → Spells s' (.binary left mark right) u →
      Makes (climb parts power fuel u.handle) c' s' [u] rest Q) :
    Makes (climb parts power (fuel + 1) t.handle) c s [t] rest Q :=
  makes_climb_extend hc (continuation?_of_binaryOp? mark.reads) hrank (makes_operation hc hl hp)
    hmore

/-- What can be the left operand of the operator ahead. -/
structure Base (power : Nat) (base : Term) (links : List (BinaryMark × Factor)) : Prop where
  grouped : base.Grouped
  above : ∀ link ∈ base.links, power < link.1.rank
  root : ∀ m ∈ base.mark?, ∀ link ∈ links.head?, link.1.rank ≤ m.rank

theorem base_factor (power : Nat) (x : Factor) (links : List (BinaryMark × Factor)) :
    Base power (.factor x) links :=
  ⟨trivial, fun _ h => absurd h List.not_mem_nil, fun _ h => by simp [Term.mark?] at h⟩

theorem Base.portion {power : Nat} {base : Term} {links : List (BinaryMark × Factor)}
    (h : Base power base links) (hbelow : ∀ link ∈ links.head?, link.1.rank ≤ power) :
    Portion power base.first (base.links ++ links) links base :=
  ⟨rfl, rfl, h.above, hbelow, h.grouped⟩

/-- With the operator ahead and what that takes on its right, a base becomes a base for the
next operator, which the right operand has left over. -/
theorem Base.binary {power : Nat} {base right : Term} {mark : BinaryMark} {x : Factor}
    {links left : List (BinaryMark × Factor)} (h : Base power base ((mark, x) :: links))
    (hrank : power < mark.rank) (hright : Portion mark.rank x links left right) :
    Base power (.binary base mark right) left := by
  refine ⟨⟨h.grouped, hright.grouped, fun m hm => h.root m hm (mark, x) rfl, fun m hm => ?_⟩,
    ?_, ?_⟩
  · obtain ⟨y, hy⟩ := Term.exists_link_of_mark? hm
    exact hright.above _ hy
  · rw [Term.links]
    refine List.forall_mem_append.mpr ⟨h.above, List.forall_mem_cons.mpr ⟨hrank, fun link hl => ?_⟩⟩
    exact Nat.lt_trans hrank (hright.above link hl)
  · rintro m ⟨⟩
    exact hright.below

/-- What has been read is extended up to the first operator that binds no more strongly than
the context. -/
theorem makes_climb (ih : ReadsChains parts.expr n) (power : Power)
    (links : List (BinaryMark × Factor)) (hn : (linkTokens links).length ≤ n) (base : Term)
    (hbase : Base power.rank base links) :
    ∃ left term, Portion power.rank base.first (base.links ++ links) left term ∧
      ∀ fuel, links.length < fuel → ∀ next rest, continuation? next.kind = none →
        ∀ c s t, c.rest = linkTokens links ++ next :: rest → Spells s base t →
        Makes (climb parts power fuel t.handle) c s [t] (linkTokens left ++ next :: rest)
          fun u s' => Spells s' term u := by
  -- on what the right operand of the operator ahead leaves
  induction h : links.length using Nat.strong_induction_on generalizing links base with
  | _ length ihl =>
    cases links with
    | nil =>
      refine ⟨[], base, hbase.portion (by simp), fun fuel hfuel next rest hnext c s t hc ht => ?_⟩
      exact makes_climb_stop (Nat.zero_lt_of_lt hfuel) hc (by simp [hnext]) ht
    | cons link more =>
      obtain ⟨mark, x⟩ := link
      have hahead {next : Token} {rest : List Token} {c : Cursor}
          (hc : c.rest = linkTokens ((mark, x) :: more) ++ next :: rest) :
          c.rest = mark.token :: (x.tokens ++ (linkTokens more ++ next :: rest)) := by
        simpa [linkTokens] using hc
      rcases Nat.lt_or_ge power.rank mark.rank with hrank | hrank
      · have hlength : (x.tokens ++ linkTokens more).length ≤ n := by
          rw [length_linkTokens_cons] at hn
          omega
        obtain ⟨others, right, hright, hreads⟩ := ih (operatorPower mark.op) x more hlength
        have hmore : base.links ++ (mark, x) :: more =
            (Term.binary base mark right).links ++ others := by
          rw [Term.links, hright.first, hright.links]
          simp
        have hshort : others.length < length := by
          rw [← h, hright.links]
          simp only [List.length_cons, List.length_append]
          omega
        have hothers : (linkTokens others).length ≤ n := by
          rw [hright.links] at hlength
          simp only [linkTokens, List.flatMap_append, List.length_append] at hlength ⊢
          omega
        obtain ⟨left, term, hportion, hclimbs⟩ :=
          ihl _ hshort others hothers _ (hbase.binary hrank hright) rfl
        refine ⟨left, term, hmore ▸ hportion, fun fuel hfuel next rest hnext c s t hc ht => ?_⟩
        obtain ⟨fuel, rfl⟩ := Nat.exists_eq_succ_of_ne_zero (Nat.ne_of_gt (Nat.zero_lt_of_lt hfuel))
        exact makes_climb_step hrank (hahead hc) ht (fun c' hc' => hreads next rest hnext c' s hc')
          fun u c' s' hc' hu => hclimbs fuel (by omega) next rest hnext c' s' u hc' hu
      · refine ⟨(mark, x) :: more, base, hbase.portion (by simpa using hrank),
          fun fuel hfuel next rest hnext c s t hc ht => ?_⟩
        refine makes_climb_stop (Nat.zero_lt_of_lt hfuel) hc (fun k hk => ?_) ht
        rw [continuation?_of_binaryOp? mark.reads] at hk
        cases hk
        exact hrank

theorem readsChains_expression (ih : ReadsChains parts.expr n) :
    ReadsChains (expression parts) (n + 1) := by
  intro power first links hn
  have hlinks : (linkTokens links).length ≤ n := by
    simp only [Factor.tokens, List.length_append, List.length_cons, List.length_nil] at hn
    omega
  obtain ⟨left, term, hportion, hclimbs⟩ := makes_climb ih power links hlinks (.factor first)
    (base_factor _ first links)
  refine ⟨left, term, hportion, fun next rest hnext c s hc => ?_⟩
  refine .bind [] (makes_factor ih first links hn hnext hc) fun t c' s' hc' _ ht => ?_
  refine .look gets_bound (hclimbs _ ?_ next rest hnext c' s' t hc' ht)
  have hlength := length_le_linkTokens links
  rw [hc', List.length_append]
  omega

theorem readsChains_productions (depth : Nat) : ReadsChains (productions depth).expr depth := by
  induction depth with
  | zero =>
    intro power first links hn
    simp [Factor.tokens] at hn
  | succ depth ih => exact readsChains_expression ih

/-- A chain is read up to its end, as the one term that is grouped by how strongly its operators
bind. Each of its operators has a node over its operands, and names and literals have their
nodes. Each token of the chain may take one level of nesting, and a module is read with two for
each of its tokens. -/
theorem expr_chain {depth : Nat} (chain : Chain) (hdepth : chain.tokens.length ≤ depth)
    {next : Token} (hnext : continuation? next.kind = none)
    (hc : c.rest = chain.tokens ++ next :: rest) {us : List Tree} (hf : s.tree.Forest us) :
    ∃ term : Term, (term.chain = chain ∧ term.Grouped ∧
      ∀ other : Term, other.chain = chain → other.Grouped → other = term) ∧
    ∃ t c' s', (((productions depth).expr .lowest).run c).start s = (.ok (t.handle, c'), s') ∧
      c' = { c with rest := next :: rest, previousStop := c'.previousStop } ∧
      s'.tree.Forest (t :: us) ∧ Enriches s s' ∧ Spells s' term t := by
  obtain ⟨first, links⟩ := chain
  obtain ⟨left, term, hportion, hmakes⟩ :=
    readsChains_productions depth .lowest first links hdepth
  obtain rfl : left = [] := by
    cases left with
    | nil => rfl
    | cons link left =>
      exact absurd (rank_pos link.1.op) (Nat.not_lt.mpr (hportion.below link rfl))
  have hchain : term.chain = ⟨first, links⟩ := by
    rw [Term.chain, hportion.first, hportion.links, List.append_nil]
  have hrest : c.rest = first.tokens ++ (linkTokens links ++ next :: rest) := by
    rw [hc, Chain.tokens, List.append_assoc]
  obtain ⟨⟨_, c'⟩, s', hrun, t, rfl, hc', hforest, he, hspells⟩ :=
    (hmakes next rest hnext c s hrest us hf).exists
  refine ⟨term, ⟨hchain, hportion.grouped, fun other ho hg => ?_⟩, t, c', s', hrun, hc', hforest,
    he, hspells⟩
  exact hg.unique hportion.grouped (ho.trans hchain.symm)

end

def unplaced (kind : Token.Kind) (value : String) : Token := ⟨kind, value, .null⟩

/-- The term of `a - -b * 2 < !c`. -/
def mixedTerm : Term :=
  let negate : UnaryMark := ⟨unplaced .dash "-", .neg, rfl⟩
  let invert : UnaryMark := ⟨unplaced .not "!", .not, rfl⟩
  let difference : Term := .binary (.factor ⟨[], unplaced .identifier "a", rfl⟩)
    ⟨unplaced .dash "-", .sub, rfl⟩
    (.binary (.factor ⟨[negate], unplaced .identifier "b", rfl⟩) ⟨unplaced .star "*", .mul, rfl⟩
      (.factor ⟨[], unplaced .number "2", by decide⟩))
  .binary difference ⟨unplaced .less "<", .lt, rfl⟩
    (.factor ⟨[invert], unplaced .identifier "c", rfl⟩)

theorem grouped_mixedTerm : mixedTerm.Grouped := by
  simp [mixedTerm, Term.Grouped, Term.mark?, BinaryMark.rank, operatorPower, Power.rank]

/-- Multiplication goes before subtraction, and that before comparison. -/
theorem expr_chain_mixedTerm :
    (mixedTerm.chain.tokens.length ≤ 9 ∧
      continuation? (unplaced .semicolon ";").kind = none) ∧
    ∃ t c' s', (((productions 9).expr .lowest).run (.start
        (mixedTerm.chain.tokens ++ [unplaced .semicolon ";"]) "main" default)).start default =
      (.ok (t.handle, c'), s') ∧ c'.rest = [unplaced .semicolon ";"] ∧ Spells s' mixedTerm t := by
  have hlength : mixedTerm.chain.tokens.length ≤ 9 := by decide
  have hnext : continuation? (unplaced .semicolon ";").kind = none := rfl
  have hforest : (default : Session).tree.Forest [] := Arena.forest_nil _
  obtain ⟨term, ⟨-, -, hunique⟩, t, c', s', hrun, hc', -, -, hspells⟩ :=
    expr_chain (c := .start (mixedTerm.chain.tokens ++ [unplaced .semicolon ";"]) "main" default)
      mixedTerm.chain hlength hnext rfl hforest
  rw [← hunique mixedTerm rfl grouped_mixedTerm] at hspells
  exact ⟨⟨hlength, hnext⟩, t, c', s', hrun, by rw [hc'], hspells⟩

end Grammar
end BlockLang
