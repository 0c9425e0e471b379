import BlockLang.Grammar.Statement
import BlockLang.Proofs.Grammar.Shape
import BlockLang.Proofs.Scope.Closed
import BlockLang.Proofs.Session.Build

/-!
# Reading trees

`Reads` says what a production does with the trees built so far: it takes the ones it
is given and leaves those it returns, and whatever else the forest holds stays there,
also if the production stops.
-/

namespace BlockLang

open BlockLang.Tree (idsOf)

/-- The declaration is that of a function. -/
def IsFunction (decls : Array Decl) (id : DeclId) : Prop :=
  ∃ d, decls[id.index]? = some d ∧ d.isFunction = true

/-- The declaration is that of a variable with `count` initial values. -/
def IsVariable (decls : Array Decl) (id : DeclId) (isRef : Bool) (count : Nat) : Prop :=
  ∃ d isConst, decls[id.index]? = some d ∧ d.kind = .var isConst isRef ∧
    (isConst = true → count = 1)

/-- What a node declares is known, and it is no literal. -/
structure NodeKind.IsDeclared (kind : NodeKind) (decls : Array Decl) (count : Nat) : Prop where
  plain : kind ≠ .literal
  function : ∀ d, kind = .funcDecl d → IsFunction decls d
  binding : ∀ d declared isRef, kind = .varDecl d declared isRef → IsVariable decls d isRef count

/-- Whether a node of this kind has neither a value nor a declaration. -/
def NodeKind.isBare : NodeKind → Bool
  | .literal | .funcDecl _ | .varDecl .. => false
  | _ => true

theorem NodeKind.ne_funcDecl_of_isBare {kind : NodeKind} (h : kind.isBare = true) (d : DeclId) :
    kind ≠ .funcDecl d := by
  rintro rfl
  simp [isBare] at h

theorem NodeKind.IsDeclared.of_isBare {kind : NodeKind} {decls : Array Decl} {count : Nat}
    (h : kind.isBare = true) : kind.IsDeclared decls count := by
  refine ⟨?_, fun d hd => absurd hd (ne_funcDecl_of_isBare h d), ?_⟩
  · rintro rfl
    simp [isBare] at h
  · rintro d declared isRef rfl
    simp [isBare] at h

/-- Nothing is known of a written node, unless it is a literal. -/
structure Written (s : Session) (u : Tree) : Prop where
  formed : u.Formed
  literal : u.kind = .literal →
    ∃ type value, s.tree.facts u.handle = ⟨some type, some value, false, none⟩
  fresh : u.kind ≠ .literal → s.tree.facts u.handle = .none
  function : ∀ d, u.kind = .funcDecl d → IsFunction s.decls d
  binding : ∀ d declared isRef, u.kind = .varDecl d declared isRef →
    IsVariable s.decls d isRef u.children.length

/-- Reading only adds to the tables. -/
structure Adds (s s' : Session) : Prop where
  labels : s.tree.Extends s'.tree
  decls : ∀ (i : Nat) d, s.decls[i]? = some d → s'.decls[i]? = some d
  scopes : s.scopes.scopes.size ≤ s'.scopes.scopes.size
  rest : s' = { s with
    tree := s'.tree, types := s'.types, scopes := s'.scopes, decls := s'.decls,
    values := s'.values }

theorem Adds.refl (s : Session) : Adds s s := ⟨.refl _, fun _ _ h => h, Nat.le_refl _, rfl⟩

theorem Adds.trans (h : Adds s s') (h' : Adds s' s'') : Adds s s'' := by
  refine ⟨h.labels.trans h'.labels, fun i d hd => h'.decls i d (h.decls i d hd),
    Nat.le_trans h.scopes h'.scopes, ?_⟩
  rw [h'.rest, h.rest]

theorem Gains.adds (h : Gains scope s s') : Adds s s' := by
  have hdecls : s'.decls = s.decls := by rw [h.rest]
  have hscopes : s'.scopes = s.scopes := by rw [h.rest]
  refine ⟨h.tree.labels, fun i d hd => hdecls ▸ hd, hscopes ▸ Nat.le_refl _, ?_⟩
  rw [h.rest]

theorem IsFunction.adds (h : IsFunction s.decls d) (ha : Adds s s') : IsFunction s'.decls d := by
  obtain ⟨decl, hd, hk⟩ := h
  exact ⟨decl, ha.decls _ decl hd, hk⟩

theorem IsVariable.adds {isRef : Bool} {count : Nat} (h : IsVariable s.decls d isRef count)
    (ha : Adds s s') : IsVariable s'.decls d isRef count := by
  obtain ⟨decl, isConst, hd, hk⟩ := h
  exact ⟨decl, isConst, ha.decls _ decl hd, hk⟩

theorem Written.adds (h : Written s u) (hu : u.handle.index < s.tree.size) (ha : Adds s s') :
    Written s' u := by
  have hfacts := ha.labels.facts hu
  refine ⟨h.formed, fun hk => ?_, fun hk => ?_, fun d hk => (h.function d hk).adds ha,
    fun d _ _ hk => (h.binding d _ _ hk).adds ha⟩
  · rw [hfacts]
    exact h.literal hk
  · rw [hfacts]
    exact h.fresh hk

/-- How the value of a literal is made. -/
inductive LiteralValue (types : TypeTable) : TypeId → (Heap → ValueId × Heap) → Prop
  | scalar (p : Primitive) (x : Scalar) :
    LiteralValue types p.typeId (·.ofScalar p.typeId p x)
  | string {type : TypeId} (bytes : List UInt8)
    (h : types.kind type = .list Primitive.int8.typeId (some (.ofNat bytes.length))) :
    LiteralValue types type (Grammar.bytesValue type bytes)

/-- The parameters of a function are declared as such, in a scope that is there. -/
def DeclKind.WellDeclared (s : Session) : DeclKind → Prop
  | .function params _ bodyScope =>
    (∀ p ∈ params, ∃ d, s.decls[p.decl.index]? = some d ∧ d.kind = .parameter) ∧
      s.scopes.Has bodyScope
  | .builtin _ => False
  | _ => True

theorem DeclKind.wellDeclared_var (s : Session) (isConst isRef : Bool) :
    (DeclKind.var isConst isRef).WellDeclared s := trivial

theorem DeclKind.wellDeclared_parameter (s : Session) :
    DeclKind.parameter.WellDeclared s := trivial

/-- Where the last token that has been read stops. -/
def Token.lastStop (stop : Position) (read : List Token) : Position :=
  read.foldl (fun _ token => token.span.stop) stop

theorem Token.lastStop_append (stop : Position) (read ahead : List Token) :
    lastStop stop (read ++ ahead) = lastStop (lastStop stop read) ahead := List.foldl_append

/-- Tokens have been read. -/
structure Cursor.Past (c c' : Cursor) : Prop where
  eof : c'.eof = c.eof
  tokens : ∃ read, c.rest = read ++ c'.rest ∧
    c'.previousStop = Token.lastStop c.previousStop read

theorem Cursor.Past.refl (c : Cursor) : c.Past c := ⟨rfl, [], rfl, rfl⟩

theorem Cursor.Past.trans {c c' c'' : Cursor} (h : c.Past c') (h' : c'.Past c'') :
    c.Past c'' := by
  obtain ⟨read, hrest, hstop⟩ := h.tokens
  obtain ⟨read', hrest', hstop'⟩ := h'.tokens
  refine ⟨h'.eof.trans h.eof, read ++ read', ?_, ?_⟩
  · rw [hrest, hrest', List.append_assoc]
  · rw [hstop', hstop, Token.lastStop_append]

theorem Cursor.past_next (c : Cursor) : c.Past c.next := by
  unfold Cursor.next
  split
  · exact .refl _
  · next token rest hrest => exact ⟨rfl, [token], hrest, rfl⟩

/-- Reading has gone on in the same scopes. -/
structure Cursor.Onward (c c' : Cursor) : Prop extends c.Past c' where
  layers : c'.layers = c.layers
  inner : c'.inner = c.inner

theorem Cursor.Onward.refl (c : Cursor) : c.Onward c := ⟨.refl c, rfl, rfl⟩

theorem Cursor.Onward.trans {c c' c'' : Cursor} (h : c.Onward c') (h' : c'.Onward c'') :
    c.Onward c'' :=
  ⟨h.toPast.trans h'.toPast, h'.layers.trans h.layers, h'.inner.trans h.inner⟩

theorem Cursor.Onward.rest {c c' : Cursor} (h : c.Onward c') : c'.rest <:+ c.rest := by
  obtain ⟨read, hrest, -⟩ := h.tokens
  exact ⟨read, hrest.symm⟩

theorem Cursor.onward_next (c : Cursor) : c.Onward c.next := by
  refine ⟨c.past_next, ?_, ?_⟩ <;>
  · unfold Cursor.next
    split <;> rfl

/-- `I` survives whatever reading does to the cursor and the tables, `depth` scopes deep in a
module. Names are as `W` says. -/
structure Adds.Keeps (W : String → Prop) (I : (depth : Nat) → Cursor → Session → Prop) :
    Prop where
  depth : ∀ n c s, I n c s → c.inner.length = n
  name : ∀ n c s, I n c s → c.current.kind = .identifier → W c.current.value
  cursor : ∀ n c c' s, I n c s → c.Onward c' → I n c' s
  leave : ∀ n c s, I (n + 1) c s → I n { c with inner := c.inner.tail } s
  enter : ∀ n c s kind, I n c s →
    I (n + 1) { c with inner := ⟨s.scopes.scopes.size⟩ :: c.inner }
      { s with scopes := (s.scopes.addScope kind (some c.scope)).2 }
  tree : ∀ n c s s', I n c s → Gains c.scope s s' → I n c s'
  decl : ∀ n c s name kind scope position, I n c s → W name → DeclKind.WellDeclared s kind →
    I n c (s.addDecl (.new name kind scope position)).2
  declare : ∀ n c s name kind scope position overloadable scopes, I n c s → W name →
    DeclKind.WellDeclared s kind →
    s.scopes.addVar scope name ⟨s.decls.size⟩ overloadable = .ok scopes →
    I n c { (s.addDecl (.new name kind scope position)).2 with scopes }
  typeDef : ∀ n c s scope name params body position id scopes, I n c s →
    s.scopes.addType scope (.new name params (.written body) c.scope position) = .ok (id, scopes) →
    I n c { s with scopes }
  listType : ∀ n c s length, I n c s →
    I n c { s with types := (s.types.makeList Primitive.int8.typeId length).2 }
  literal : ∀ n c s id type value, I n c s → s.tree.facts id = .none →
    LiteralValue s.types type value →
    I n c { s with
      values := (value s.values).2
      tree := s.tree.annotate id fun facts =>
        { facts with type := some type, value := some (value s.values).1 } }

namespace Parse

/-- From `s`, where `ts` are at hand, `p` leaves trees that are as `R` says, and goes from
depth `n` to depth `m`. -/
def Reads (I : Nat → Cursor → Session → Prop) (n m : Nat) (p : Parse α) (s : Session)
    (ts : List Tree) (R : α → Session → List Tree → Prop) : Prop :=
  ∀ c rest, s.tree.Forest (ts ++ rest) → I n c s → (∀ t ∈ ts, t.Every (Written s)) →
    Triple (p.run c) s
      (fun r s' => ∃ us, R r.1 s' us ∧ s'.tree.Forest (us ++ rest) ∧ I m r.2 s' ∧
        (∀ u ∈ us, u.Every (Written s')) ∧ Adds s s')
      fun _ s' => ∃ d c' us, s'.tree.Forest (us ++ rest) ∧ I d c' s' ∧ Adds s s'

/-- `p` leaves the session and the scopes alone. -/
def Quiet (p : Parse α) : Prop :=
  ∀ c s, Triple (p.run c) s (fun r s' => s' = s ∧ c.Onward r.2) fun _ s' => s' = s

variable {W : String → Prop} {I : Nat → Cursor → Session → Prop} {n m k : Nat} {s : Session}
  {ts us : List Tree} {p : Parse α} {f : α → Parse β} {R : α → Session → List Tree → Prop}
  {R' : β → Session → List Tree → Prop}

@[simp] theorem triple_session {c : Cursor} {Q : Session × Cursor → Session → Prop}
    {E : Stop → Session → Prop} : Triple (session.run c) s Q E ↔ Q (s, c) s := Iff.rfl

theorem written_adds (h : ∀ t ∈ ts, t.Every (Written s)) (hf : s.tree.Forest (ts ++ us))
    (ha : Adds s s') : ∀ t ∈ ts, t.Every (Written s') := by
  intro t ht u hu
  refine (h t ht u hu).adds (hf.left.1.lt_size _ ?_) ha
  exact Tree.mem_idsOf.mpr ⟨t, ht, Tree.mem_ids.mpr ⟨u, hu, rfl⟩⟩

theorem Reads.pure {a : α} (h : R a s ts) : Reads I n n (Pure.pure a) s ts R := by
  intro c rest hf hi hw
  exact ⟨ts, h, hf, hi, hw, .refl s⟩

theorem Reads.bind (hp : Reads I n m p s ts R)
    (hf : ∀ a s' us, Adds s s' → R a s' us → Reads I m k (f a) s' us R') :
    Reads I n k (p >>= f) s ts R' := by
  intro c rest hforest hi hw
  rw [StateT.run_bind, triple_bind]
  refine (hp c rest hforest hi hw).imp ?_
  rintro ⟨a, c'⟩ s' ⟨us, hr, hforest', hi', hw', hadd⟩
  refine (hf a s' us hadd hr c' rest hforest' hi' hw').mono ?_ ?_
  · rintro r s'' ⟨vs, hr', hforest'', hi'', hw'', hadd'⟩
    exact ⟨vs, hr', hforest'', hi'', hw'', hadd.trans hadd'⟩
  · rintro e s'' ⟨d, c'', vs, hforest'', hi'', hadd'⟩
    exact ⟨d, c'', vs, hforest'', hi'', hadd.trans hadd'⟩

theorem Reads.imp {R' : α → Session → List Tree → Prop} (hp : Reads I n m p s ts R)
    (h : ∀ a s' us, Adds s s' → R a s' us → R' a s' us) : Reads I n m p s ts R' := by
  intro c rest hforest hi hw
  refine (hp c rest hforest hi hw).imp ?_
  rintro r s' ⟨us, hr, hforest', hi', hw', hadd⟩
  exact ⟨us, h _ _ _ hadd hr, hforest', hi', hw', hadd⟩

/-- What is set aside stays as it is. -/
theorem Reads.frame (hp : Reads I n m p s ts R) (vs : List Tree) :
    Reads I n m p s (ts ++ vs) fun a s' us => ∃ ws, us = ws ++ vs ∧ R a s' ws := by
  intro c rest hforest hi hw
  rw [List.append_assoc] at hforest
  refine (hp c (vs ++ rest) hforest hi fun t ht => hw t (by simp [ht])).mono ?_ ?_
  rotate_left
  · rintro e s' ⟨d, c', us, hforest', hi', hadd⟩
    exact ⟨d, c', us ++ vs, by rwa [List.append_assoc], hi', hadd⟩
  rintro r s' ⟨us, hr, hforest', hi', hw', hadd⟩
  have hvs : ∀ v ∈ vs, v.Every (Written s') :=
    written_adds (fun v hv => hw v (by simp [hv])) hforest.right hadd
  refine ⟨us ++ vs, ⟨us, rfl, hr⟩, by rwa [List.append_assoc], hi', ?_, hadd⟩
  intro u hu
  rcases List.mem_append.mp hu with hu | hu
  · exact hw' u hu
  · exact hvs u hu

/-- The trees at hand are taken in another order. -/
theorem Reads.perm (hp : Reads I n m p s us R) (h : ts.Perm us) : Reads I n m p s ts R := by
  intro c rest hforest hi hw
  exact hp c rest (hforest.perm (h.append_right rest)) hi fun t ht => hw t (h.mem_iff.mpr ht)

theorem Reads.quiet (hI : Adds.Keeps W I) (hp : Quiet p) (hf : ∀ a, Reads I n m (f a) s ts R') :
    Reads I n m (p >>= f) s ts R' := by
  intro c rest hforest hi hw
  rw [StateT.run_bind, triple_bind]
  refine (hp c s).mono ?_ ?_
  · rintro ⟨a, c'⟩ s' ⟨rfl, hc⟩
    exact hf a c' rest hforest (hI.cursor _ _ _ _ hi hc) hw
  · rintro e s' rfl
    exact ⟨n, c, ts, hforest, hi, .refl _⟩

-- ---------------------------------------------------------------------------
-- What does not touch the session
-- ---------------------------------------------------------------------------

theorem Quiet.pure (a : α) : Quiet (Pure.pure a : Parse α) := fun c _ => ⟨rfl, .refl c⟩

theorem Quiet.bind (hp : Quiet p) (hf : ∀ a, Quiet (f a)) : Quiet (p >>= f) := by
  intro c s
  rw [StateT.run_bind, triple_bind]
  refine (hp c s).imp ?_
  rintro ⟨a, c'⟩ s' ⟨rfl, hc⟩
  refine (hf a c' s').imp ?_
  rintro r s'' ⟨rfl, hc'⟩
  exact ⟨rfl, hc.trans hc'⟩

theorem Quiet.map {g : α → β} (hp : Quiet p) : Quiet (g <$> p) := by
  rw [← bind_pure_comp]
  exact hp.bind fun _ => .pure _

theorem Quiet.ite {b : Bool} {p q : Parse α} (hp : Quiet p) (hq : Quiet q) :
    Quiet (if b then p else q) := by
  cases b
  · exact hq
  · exact hp

theorem Quiet.cond {p q : Parse α} {b : Parse Bool} (hb : Quiet b) (hp : Quiet p) (hq : Quiet q) :
    Quiet (do if ← b then p else q) :=
  hb.bind fun _ => .ite hp hq

theorem quiet_get : Quiet (get : Parse Cursor) := fun c _ => ⟨rfl, .refl c⟩
theorem quiet_modify {g : Cursor → Cursor} (h : ∀ c : Cursor, c.Onward (g c)) :
    Quiet (modify g : Parse Unit) := fun c _ => ⟨rfl, h c⟩
theorem quiet_throw (e : Stop) : Quiet (throw e : Parse α) := fun _ _ => rfl
theorem quiet_fail (problem : Problem) (position : Position) :
    Quiet (fail problem position : Parse α) := quiet_throw _
theorem quiet_endless : Quiet (endless : Parse α) := quiet_throw _
theorem quiet_session : Quiet session := fun c _ => ⟨rfl, .refl c⟩
theorem quiet_current : Quiet current := fun c _ => ⟨rfl, .refl c⟩
theorem quiet_currentKind : Quiet currentKind := fun c _ => ⟨rfl, .refl c⟩
theorem quiet_isAt (kind : Token.Kind) : Quiet (isAt kind) := fun c _ => ⟨rfl, .refl c⟩
theorem quiet_unexpected : Quiet (unexpected : Parse α) := fun _ _ => rfl
theorem quiet_refuse (message : String) : Quiet (refuse message : Parse α) := fun _ _ => rfl
theorem quiet_advance : Quiet advance := fun c _ => ⟨rfl, c.onward_next⟩
theorem quiet_spanFrom (start : Position) : Quiet (spanFrom start) := fun c _ => ⟨rfl, .refl c⟩
theorem quiet_spanOf (id : NodeId) : Quiet (spanOf id) := fun c _ => ⟨rfl, .refl c⟩
theorem quiet_bound : Quiet bound := fun c _ => ⟨rfl, .refl c⟩

theorem quiet_expect (kind : Token.Kind) : Quiet (expect kind) :=
  (quiet_isAt kind).bind fun _ => .ite quiet_advance quiet_unexpected

theorem quiet_accept (kind : Token.Kind) : Quiet (accept kind) :=
  (quiet_isAt kind).bind fun _ => .ite (quiet_advance.bind fun _ => .pure _) (.pure _)

theorem quiet_refuseName (refusal : ScopeTable.Refusal) (name : Token) :
    Quiet (refuseName refusal name : Parse α) := by
  cases refusal
  · exact quiet_fail _ _
  · exact quiet_throw _

theorem quiet_separated {item : Parse α} (close : Token.Kind) (message : String)
    (h : Quiet item) (fuel : Nat) : Quiet (separated close message item fuel) := by
  induction fuel with
  | zero => exact quiet_endless
  | succ fuel ih =>
    refine (quiet_isAt close).bind fun b => ?_
    cases b
    · refine h.bind fun _ => (quiet_accept .comma).bind fun b => ?_
      cases b
      · refine (quiet_isAt close).bind fun b => ?_
        cases b
        · exact quiet_refuse message
        · exact .pure _
      · exact ih.bind fun _ => .pure _
    · exact .pure _

/-- A production that stops leaves everything as it was. -/
theorem Reads.stop {p : Parse α}
    (h : ∀ c s, Triple (p.run c) s (fun _ _ => False) fun _ s' => s' = s) :
    Reads I n m p s ts R := by
  intro c rest hforest hi _
  refine (h c s).mono (fun _ _ hf => hf.elim) ?_
  rintro e s' rfl
  exact ⟨n, c, ts, hforest, hi, .refl _⟩

theorem Reads.refuse (message : String) : Reads I n m (refuse message) s ts R :=
  .stop fun _ _ => rfl

/-- Nothing comes after a token that is refused. -/
theorem Reads.refuse_bind (message : String) : Reads I n m (Parse.refuse message >>= f) s ts R' :=
  .stop fun _ _ => rfl

theorem Reads.unexpected : Reads I n m unexpected s ts R := .stop fun _ _ => rfl

theorem Reads.endless : Reads I n m endless s ts R := .stop fun _ _ => rfl

-- ---------------------------------------------------------------------------
-- Names
-- ---------------------------------------------------------------------------

/-- A name is read if there is one. -/
theorem Reads.nameOr (hI : Adds.Keeps W I) {f : Token → Parse β} {p : Parse β}
    (hf : ∀ token, W token.value → Reads I n m (f token) s ts R') (hp : Reads I n m p s ts R') :
    Reads I n m (do if ← isAt .identifier then advance >>= f else p) s ts R' := by
  intro c rest hforest hi hw
  by_cases hk : c.current.kind = .identifier
  · have hrun : (do if ← isAt .identifier then advance >>= f else p : Parse β).run c =
        (f c.current).run c.next := by simp [isAt, advance, current, hk]
    rw [hrun]
    exact hf _ (hI.name _ _ _ hi hk) c.next rest hforest (hI.cursor _ _ _ _ hi c.onward_next) hw
  · have hrun : (do if ← isAt .identifier then advance >>= f else p : Parse β).run c =
        p.run c := by simp [isAt, hk]
    rw [hrun]
    exact hp c rest hforest hi hw

theorem Reads.expectName (hI : Adds.Keeps W I) {f : Token → Parse β}
    (hf : ∀ token, W token.value → Reads I n m (f token) s ts R') :
    Reads I n m (expect .identifier >>= f) s ts R' := by
  have heq : expect .identifier >>= f =
      (do if ← isAt .identifier then advance >>= f else Parse.unexpected >>= f) := by
    simp only [expect, bind_assoc]
    refine bind_congr fun b => ?_
    cases b <;> rfl
  rw [heq]
  exact .nameOr hI hf (.stop fun _ _ => rfl)

/-- Reading goes on at the top level only. -/
theorem Reads.requireTopLevel (hI : Adds.Keeps W I) {first : Token} {word message : String}
    {p : Parse β} (hp : n = 0 → Reads I n m p s ts R') :
    Reads I n m (Grammar.requireTopLevel first word message >>= fun _ => p) s ts R' := by
  intro c rest hforest hi hw
  have hdepth := hI.depth _ _ _ hi
  cases hc : c.inner with
  | nil =>
    have hrun : (Grammar.requireTopLevel first word message >>= fun _ => p).run c = p.run c := by
      simp [Grammar.requireTopLevel, Cursor.atTopLevel, hc]
    rw [hrun]
    exact hp (by simpa [hc] using hdepth.symm) c rest hforest hi hw
  | cons scope scopes =>
    have hrun : (Grammar.requireTopLevel first word message >>= fun _ => p).run c =
        (Parse.fail (.unexpectedTokenDetailed word message) first.span.start >>=
          fun (_ : Unit) => p).run c := by
      simp [Grammar.requireTopLevel, Cursor.atTopLevel, hc]
    rw [hrun]
    exact ⟨n, c, ts, hforest, hi, .refl _⟩

end Parse
end BlockLang
