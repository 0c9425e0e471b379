import BlockLang.Proofs.Grammar.Expression

/-!
# Reading comes to an end

Every round of a loop and every second level of nesting reads a token, so no bound of the
grammar is ever met.
-/

namespace BlockLang

/-- Fewer than `n` tokens are ahead, and then the end of the file. -/
structure Cursor.Within (n : Nat) (c : Cursor) : Prop where
  closed : c.eof.kind = .eof
  fewer : c.rest.length < n

theorem Cursor.Within.mono {c : Cursor} (h : c.Within m) (hmn : m ≤ n) : c.Within n :=
  ⟨h.closed, Nat.lt_of_lt_of_le h.fewer hmn⟩

theorem Cursor.Within.next {c : Cursor} (h : c.Within n) : c.next.Within n := by
  unfold Cursor.next
  split
  · exact h
  · next hrest =>
    have hfewer := h.fewer
    rw [hrest, List.length_cons] at hfewer
    exact ⟨h.closed, Nat.lt_of_succ_lt hfewer⟩

theorem Cursor.Within.next_of_ne {c : Cursor} (h : c.Within n) (hk : c.current.kind ≠ .eof) :
    c.next.Within c.rest.length := by
  unfold Cursor.next
  split
  · next hrest =>
    rw [Cursor.current, hrest] at hk
    exact absurd h.closed hk
  · next hrest =>
    rw [hrest, List.length_cons]
    exact ⟨h.closed, Nat.lt_succ_self _⟩

-- ---------------------------------------------------------------------------
-- Faults
-- ---------------------------------------------------------------------------

theorem ne_endless_bind {x : Except Fault α} {f : α → Except Fault β}
    (hx : x ≠ .error .endless) (hf : ∀ a, f a ≠ .error .endless) : x >>= f ≠ .error .endless := by
  cases x with
  | error fault => exact fun h => hx (congrArg Except.error (Except.error.inj h))
  | ok a => exact hf a

theorem entry_ne_endless (found : Option α) (index size : Nat) :
    entry found index size ≠ .error .endless := by
  unfold entry
  split <;> simp

namespace Arena

theorem pushChild_ne_endless (a : Arena) (parent child : NodeId) :
    a.pushChild parent child ≠ .error .endless := by
  have hdetached : a.checkDetached child ≠ .error .endless := by
    refine ne_endless_bind (entry_ne_endless _ _ _) fun n => ?_
    split
    · exact nofun
    · exact nofun
  refine ne_endless_bind hdetached fun _ => ?_
  exact ne_endless_bind (entry_ne_endless _ _ _) fun _ => nofun

theorem pushChildren_ne_endless (a : Arena) (parent : NodeId) (children : List NodeId) :
    a.pushChildren parent children ≠ .error .endless := by
  induction children generalizing a with
  | nil => exact nofun
  | cons child children ih =>
    rw [pushChildren, List.foldlM_cons]
    exact ne_endless_bind (a.pushChild_ne_endless parent child) ih

end Arena

namespace ScopeTable

theorem addVar_ne_endless (t : ScopeTable) (scope : ScopeId) (name : String) (decl : DeclId)
    (overloadable : Bool) : t.addVar scope name decl overloadable ≠ .error (.fault .endless) := by
  have hfind : t.find scope ≠ .error .endless := entry_ne_endless _ _ _
  unfold addVar
  cases hf : t.find scope with
  | error fault =>
    rintro ⟨⟩
    exact hfind hf
  | ok old =>
    cases hd : declare old.vars name decl overloadable with
    | error problem => simp [Except.mapError, hd, bind, Except.bind]
    | ok vars => simp [Except.mapError, hd, bind, Except.bind, pure, Except.pure]

theorem addType_ne_endless (t : ScopeTable) (scope : ScopeId) (typeDef : TypeDef) :
    t.addType scope typeDef ≠ .error (.fault .endless) := by
  have hfind : t.find scope ≠ .error .endless := entry_ne_endless _ _ _
  unfold addType
  cases hf : t.find scope with
  | error fault =>
    rintro ⟨⟩
    exact hfind hf
  | ok old =>
    simp only [Except.mapError, bind, Except.bind]
    split <;> exact nofun

end ScopeTable

namespace Parse

variable {n m : Nat} {c : Cursor} {p : Parse α} {f : α → Parse β}

-- ---------------------------------------------------------------------------
-- Rules
-- ---------------------------------------------------------------------------

/-- From `c`, no bound is met, and fewer than `n` tokens are ahead in the end. -/
def Ends (n : Nat) (p : Parse α) (c : Cursor) : Prop :=
  ∀ s, Triple (p.run c) s (fun r _ => r.2.Within n) fun e _ => e ≠ .fault .endless

/-- Where fewer than `n` tokens are ahead, no bound is met and there are never more. -/
def Stays (n : Nat) (p : Parse α) : Prop := ∀ c, c.Within n → Ends n p c

/-- From `c`, no bound is met and a token is read. -/
abbrev Shortens (p : Parse α) (c : Cursor) : Prop := Ends c.rest.length p c

theorem Ends.bind (hp : Ends n p c) (hf : ∀ a c', c'.Within n → Ends m (f a) c') :
    Ends m (p >>= f) c := by
  intro s
  rw [StateT.run_bind, triple_bind]
  exact (hp s).imp fun r s' hr => hf r.1 r.2 hr s'

theorem Ends.mono (h : Ends m p c) (hmn : m ≤ n) : Ends n p c :=
  fun s => (h s).imp fun _ _ hr => hr.mono hmn

theorem Stays.bind (hp : Stays n p) (hf : ∀ a, Stays n (f a)) : Stays n (p >>= f) :=
  fun c hc => (hp c hc).bind fun a c' hc' => hf a c' hc'

theorem Stays.pure (a : α) : Stays n (Pure.pure a) := fun _ hc _ => hc

theorem Stays.map {g : α → β} (hp : Stays n p) : Stays n (g <$> p) := by
  rw [← bind_pure_comp]
  exact hp.bind fun _ => .pure _

theorem Stays.ite {b : Prop} [Decidable b] {p q : Parse α} (hp : Stays n p) (hq : Stays n q) :
    Stays n (if b then p else q) := by
  split
  · exact hp
  · exact hq

theorem Stays.of_shortens (h : ∀ c, c.Within n → Shortens p c) : Stays n p :=
  fun c hc => (h c hc).mono (Nat.le_of_lt hc.fewer)

theorem stays_throw {e : Stop} (h : e ≠ .fault .endless) : Stays n (throw e : Parse α) :=
  fun _ _ _ => h

theorem stays_fail (problem : Problem) (position : Position) :
    Stays n (fail problem position : Parse α) := stays_throw nofun

theorem stays_get : Stays n get := fun _ hc _ => hc
theorem stays_session : Stays n session := fun _ hc _ => hc
theorem stays_currentKind : Stays n currentKind := fun _ hc _ => hc
theorem stays_isAt (kind : Token.Kind) : Stays n (isAt kind) := fun _ hc _ => hc
theorem stays_spanFrom (start : Position) : Stays n (spanFrom start) := fun _ hc _ => hc
theorem stays_spanOf (id : NodeId) : Stays n (spanOf id) := fun _ hc _ => hc
theorem stays_advance : Stays n advance := fun _ hc _ => hc.next
theorem ends_unexpected : Ends n (unexpected : Parse α) c := fun _ => Stop.noConfusion
theorem stays_unexpected : Stays n (unexpected : Parse α) := fun _ _ => ends_unexpected
theorem stays_refuse (message : String) : Stays n (refuse message : Parse α) := fun _ _ _ => nofun
theorem stays_leaveScope : Stays n leaveScope := fun _ hc _ => ⟨hc.closed, hc.fewer⟩
theorem stays_enterScope (kind : ScopeKind) : Stays n (enterScope kind) :=
  fun _ hc _ => ⟨hc.closed, hc.fewer⟩

theorem stays_setExporting (b : Bool) :
    Stays n (modify fun c => { c with exporting := b } : Parse Unit) :=
  fun _ hc _ => ⟨hc.closed, hc.fewer⟩

theorem stays_expect (kind : Token.Kind) : Stays n (expect kind) :=
  (stays_isAt kind).bind fun _ => .ite stays_advance stays_unexpected

theorem stays_accept (kind : Token.Kind) : Stays n (accept kind) :=
  (stays_isAt kind).bind fun _ => .ite (stays_advance.bind fun _ => .pure _) (.pure _)

theorem stays_modifySession (g : Session → Session) :
    Stays n (modifyThe Session g : Parse PUnit) := fun _ hc _ => hc

theorem stays_pass {p : Pass α}
    (h : ∀ s, Triple p s (fun _ _ => True) fun e _ => e ≠ .endless) : Stays n (pass p) := by
  intro c hc s
  refine triple_pass.mpr ((h s).mono (fun _ _ _ => hc) fun e _ he => ?_)
  rintro ⟨⟩
  exact he rfl

theorem tryTree_ne_endless {g : Arena → Except Fault Arena} (h : ∀ a, g a ≠ .error .endless)
    (s : Session) : Triple (Pass.tryTree g) s (fun _ _ => True) fun e _ => e ≠ .endless := by
  refine Pass.triple_tryTree.mpr ?_
  split
  · trivial
  · next hg =>
    rintro rfl
    exact h _ hg

theorem stays_node (kind : NodeKind) (span : Span) (children : List NodeId) :
    Stays n (node kind span children) := by
  refine stays_get.bind fun c => stays_pass fun s => ?_
  refine triple_bind.mpr (triple_get.mpr (triple_bind.mpr (triple_modify.mpr (triple_bind.mpr ?_))))
  exact (tryTree_ne_endless (fun a => a.pushChildren_ne_endless _ _) _).imp fun _ _ _ => trivial

theorem stays_refuseName {refusal : ScopeTable.Refusal} (h : refusal ≠ .fault .endless)
    (name : Token) : Stays n (refuseName refusal name : Parse α) := by
  cases refusal with
  | taken problem => exact stays_fail _ _
  | fault fault =>
    refine stays_throw fun he => h ?_
    rw [Stop.fault.inj he]

theorem stays_declare (name : Token) (kind : DeclKind) (scope : ScopeId) (overloadable : Bool) :
    Stays n (declare name kind scope overloadable) := by
  refine stays_session.bind fun s => Stays.bind (fun _ hc _ => hc) fun _ => ?_
  split
  · exact (stays_modifySession _).bind fun _ => .pure _
  · next hadd =>
    refine stays_refuseName (fun he => ?_) name
    exact ScopeTable.addVar_ne_endless _ _ _ _ _ (he ▸ hadd)

/-- A production that begins with a token other than the end of the file. -/
theorem shortens_advance {f : Token → Parse β} (hc : c.Within n) (hk : c.current.kind ≠ .eof)
    (hf : ∀ token, Stays c.rest.length (f token)) : Shortens (advance >>= f) c :=
  Ends.bind (n := c.rest.length) (fun _ => hc.next_of_ne hk) fun token c' hc' => hf token c' hc'

theorem shortens_expect {f : Token → Parse β} {kind : Token.Kind} (hc : c.Within n)
    (hk : kind ≠ .eof) (hf : ∀ token, Stays c.rest.length (f token)) :
    Shortens (expect kind >>= f) c := by
  refine Ends.bind (n := c.rest.length) (fun s => ?_) fun token c' hc' => hf token c' hc'
  by_cases hcur : c.current.kind = kind
  · have hrun : (Parse.expect kind).run c = Parse.advance.run c := by
      simp [Parse.expect, isAt, hcur]
    rw [hrun]
    exact hc.next_of_ne (hcur ▸ hk)
  · have hrun : (Parse.expect kind).run c = (Parse.unexpected : Parse Token).run c := by
      simp [Parse.expect, isAt, hcur]
    rw [hrun]
    exact ends_unexpected s

theorem ends_isAt {kind : Token.Kind} {f : Bool → Parse β} :
    Ends m (isAt kind >>= f) c ↔ Ends m (f (c.current.kind = kind)) c := Iff.rfl

theorem ends_current {f : Token → Parse β} :
    Ends m (current >>= f) c ↔ Ends m (f c.current) c := Iff.rfl

theorem ends_session {f : Session → Parse β} (h : ∀ s, Ends m (f s) c) :
    Ends m (session >>= f) c := fun s => h s s

theorem ends_spanOf {id : NodeId} {f : Span → Parse β} (h : ∀ span, Ends m (f span) c) :
    Ends m (spanOf id >>= f) c := fun s => h _ s

theorem ends_currentKind {f : Token.Kind → Parse β} :
    Ends m (currentKind >>= f) c ↔ Ends m (f c.current.kind) c := Iff.rfl

theorem shortens_after {f : α → Parse β} (hc : c.Within n) (hp : Stays (c.rest.length + 1) p)
    (hf : ∀ a c', c'.Within (c.rest.length + 1) → Shortens (f a) c') : Shortens (p >>= f) c :=
  (hp c ⟨hc.closed, Nat.lt_succ_self _⟩).bind fun a c' hc' =>
    (hf a c' hc').mono (Nat.le_of_lt_succ hc'.fewer)

theorem shortens_map {g : α → β} (hp : Shortens p c) : Shortens (g <$> p) c := by
  rw [← bind_pure_comp]
  exact Ends.bind hp fun _ c' hc' => Stays.pure _ c' hc'

-- ---------------------------------------------------------------------------
-- Loops
-- ---------------------------------------------------------------------------

/-- A loop does not use up its rounds if there are more of them than tokens. -/
def Loops (n : Nat) (loop : Nat → Parse α) : Prop :=
  ∀ fuel c, c.Within n → c.rest.length < fuel → Ends n (loop fuel) c

theorem Loops.stays {loop : Nat → Parse α} (h : Loops n loop) : Stays n (bound >>= loop) :=
  fun c hc => h (c.rest.length + 1) c hc (Nat.lt_succ_self _)

theorem Loops.bind {loop : Nat → Parse α} (h : Loops n loop) (hf : ∀ a, Stays n (f a)) :
    Loops n fun fuel => loop fuel >>= f :=
  fun fuel c hc hlt => (h fuel c hc hlt).bind fun a c' hc' => hf a c' hc'

/-- A token is read in every round that is not the last one. -/
theorem Loops.of_rounds {ι : Type} {l : ι → Nat → Parse α}
    (h : ∀ fuel i c, c.Within n → (∀ j c', c'.Within c.rest.length → Ends n (l j fuel) c') →
      Ends n (l i (fuel + 1)) c) (i : ι) : Loops n (l i) := by
  intro fuel
  induction fuel generalizing i with
  | zero => exact fun c _ hlt => absurd hlt (Nat.not_lt_zero _)
  | succ fuel ih =>
    intro c hc hlt
    refine h fuel i c hc fun j c' hc' => ih j c' (hc'.mono (Nat.le_of_lt hc.fewer)) ?_
    exact Nat.lt_of_lt_of_le hc'.fewer (Nat.le_of_lt_succ hlt)

theorem Loops.of_round {loop : Nat → Parse α}
    (h : ∀ fuel c, c.Within n → (∀ c', c'.Within c.rest.length → Ends n (loop fuel) c') →
      Ends n (loop (fuel + 1)) c) : Loops n loop :=
  of_rounds (l := fun _ : Unit => loop) (fun fuel _ c hc ih => h fuel c hc (ih ())) ()

theorem loops_separated {item : Parse α} (hitem : ∀ c, c.Within n → Shortens item c)
    (close : Token.Kind) (message : String) : Loops n (separated close message item) := by
  refine .of_round fun fuel c hc ih => ends_isAt.mpr ?_
  split
  · exact Stays.pure _ c hc
  · refine (hitem c hc).bind fun first c₁ hc₁ => ?_
    refine (stays_accept .comma c₁ hc₁).bind fun b c₂ hc₂ => ?_
    cases b with
    | true => exact (ih c₂ hc₂).bind fun r c₃ hc₃ => Stays.pure _ c₃ hc₃
    | false =>
      refine Stays.bind (stays_isAt close) (fun _ => ?_) c₂ (hc₂.mono (Nat.le_of_lt hc.fewer))
      exact .ite (.pure _) (stays_refuse message)

end Parse

namespace Grammar

open Parse

variable {n m : Nat} {c : Cursor} {parts : Productions Power}

-- ---------------------------------------------------------------------------
-- Types
-- ---------------------------------------------------------------------------

theorem stays_boundedNumber (token : Token) (limit : Nat) :
    Stays n (boundedNumber token limit) := .ite (.pure _) (stays_fail _ _)

theorem stays_fieldName : Stays n fieldName :=
  stays_get.bind fun _ => .ite
    (stays_advance.bind fun _ => stays_advance.bind fun _ => .pure _) (.pure _)

/-- A name or none and what follows it. -/
theorem shortens_field {p : Parse α} (h : ∀ c, c.Within n → Shortens p c) (hc : c.Within n) :
    Shortens (do return (← fieldName, ← p)) c :=
  shortens_after hc stays_fieldName fun _ c' hc' => shortens_map (h c' (hc'.mono hc.fewer))

/-- A type begins with a token, and its parts come after that. -/
theorem shortens_typeSyntax {type : Parse TypeExpr} (hc : c.Within n)
    (h : ∀ c', c'.Within c.rest.length → Shortens type c') : Shortens (typeSyntax type) c := by
  have htype := Stays.of_shortens h
  refine ends_currentKind.mpr ?_
  split
  · refine shortens_expect hc nofun fun name => (stays_accept _).bind fun _ => .ite ?_ (.pure _)
    exact ((loops_separated h _ _).bind fun _ => (stays_expect _).bind fun _ => .pure _).stays
  · refine shortens_expect hc nofun fun _ => htype.bind fun _ =>
      (stays_accept _).bind fun _ => .ite ?_ ?_
    · exact (stays_expect _).bind fun _ => (stays_boundedNumber _ _).bind fun _ =>
        (stays_expect _).bind fun _ => .pure _
    · exact (stays_expect _).bind fun _ => .pure _
  · refine shortens_expect hc nofun fun _ => ?_
    refine ((loops_separated (fun _ => shortens_field h) _ _).bind fun r => ?_).stays
    refine (stays_expect _).bind fun _ => ?_
    split
    · exact .pure _
    · exact .pure _
  · exact shortens_expect hc nofun fun _ => htype.map
  · refine shortens_expect hc nofun fun _ => (stays_expect _).bind fun _ => ?_
    refine ((loops_separated h _ _).bind fun _ => (stays_expect _).bind fun _ => ?_).stays
    exact (stays_accept _).bind fun _ => .ite htype.map (.pure _)
  · exact ends_unexpected

-- ---------------------------------------------------------------------------
-- Expressions
-- ---------------------------------------------------------------------------

/-- The parts of a construct end where fewer than `n` tokens are ahead. -/
structure PartsEnd (n : Nat) (parts : Productions Power) : Prop where
  type : ∀ c, c.Within n → Shortens parts.type c
  expr : ∀ power c, c.Within n → Shortens (parts.expr power) c
  stmt : ∀ c, c.Within n → Shortens parts.stmt c

theorem PartsEnd.mono (h : PartsEnd n parts) (hmn : m ≤ n) : PartsEnd m parts :=
  ⟨fun c hc => h.type c (hc.mono hmn), fun power c hc => h.expr power c (hc.mono hmn),
    fun c hc => h.stmt c (hc.mono hmn)⟩

theorem PartsEnd.stays_type (h : PartsEnd n parts) : Stays n parts.type := .of_shortens h.type

theorem PartsEnd.stays_expr (h : PartsEnd n parts) (power : Power) :
    Stays n (parts.expr power) := .of_shortens (h.expr power)

theorem PartsEnd.stays_stmt (h : PartsEnd n parts) : Stays n parts.stmt := .of_shortens h.stmt

theorem stays_spannedNode (kind : NodeKind) (start : Position) (children : List NodeId) :
    Stays n (do node kind (← spanFrom start) children) :=
  (stays_spanFrom start).bind fun _ => stays_node _ _ _

theorem stays_literal (type : TypeId) (value : Heap → ValueId × Heap) (span : Span) :
    Stays n (literal type value span) :=
  (stays_node _ _ _).bind fun _ =>
    (stays_pass fun _ => Pass.triple_onValues.mpr trivial).bind fun _ =>
    (stays_pass fun _ => Pass.triple_annotate.mpr trivial).bind fun _ => .pure _

theorem loops_statements (h : PartsEnd n parts) : Loops n (statements parts) := by
  refine .of_round fun fuel c hc ih => ends_currentKind.mpr ?_
  split
  · exact Stays.pure _ c hc
  · exact stays_refuse _ c hc
  · exact (h.stmt c hc).bind fun first c₁ hc₁ =>
      (ih c₁ hc₁).bind fun _ c₂ hc₂ => Stays.pure _ c₂ hc₂

theorem stays_chain (ids : List NodeId) : Stays n (chain ids) := by
  induction ids with
  | nil => exact .pure _
  | cons first others ih =>
    cases others with
    | nil => exact .pure _
    | cons second others =>
      refine ih.bind fun r => ?_
      cases r with
      | none => exact .pure _
      | some rest =>
        exact (stays_spanOf _).bind fun _ => (stays_spanOf _).bind fun _ =>
          (stays_node _ _ _).bind fun _ => .pure _

theorem shortens_block (hc : c.Within n) (hk : c.current.kind ≠ .eof)
    (h : PartsEnd c.rest.length parts) : Shortens (block parts) c := by
  refine shortens_advance hc hk fun _ => (stays_enterScope _).bind fun _ =>
    ((loops_statements h).bind fun ids => ?_).stays
  exact (stays_chain ids).bind fun _ => stays_leaveScope.bind fun _ =>
    (stays_expect _).bind fun _ => stays_spannedNode _ _ _

theorem shortens_conditional {arm : Parse NodeId} (hc : c.Within n) (hk : c.current.kind ≠ .eof)
    (h : PartsEnd c.rest.length parts) (harm : Stays c.rest.length arm) :
    Shortens (conditional parts arm) c := by
  refine shortens_advance hc hk fun _ => (h.stays_expr _).bind fun _ => harm.bind fun _ =>
    (stays_accept _).bind fun b => ?_
  extract_lets afterElse
  have helse : ∀ second, Stays c.rest.length (afterElse second) := fun _ => stays_spannedNode _ _ _
  cases b with
  | true => exact harm.bind fun _ => helse _
  | false => exact helse _

theorem stays_armExpr (h : PartsEnd n parts) : Stays n (armExpr parts) := by
  intro c hc
  refine ends_isAt.mpr ?_
  split
  · next hk =>
    have hcurly : c.current.kind = .openCurly := by simpa using hk
    have hle := Nat.le_of_lt hc.fewer
    exact (shortens_block hc (by simp [hcurly]) (h.mono hle)).mono hle
  · exact h.stays_expr _ c hc

/-- A number that is read leaves the cursor where it is. -/
theorem ends_boundedNumber {token : Token} {limit : Nat} {f : Nat → Parse β}
    (h : ∀ number, Ends m (f number) c) : Ends m (boundedNumber token limit >>= f) c := by
  unfold boundedNumber
  dsimp only
  split
  · rw [pure_bind]
    exact h _
  · exact fun _ => nofun

/-- An operand begins with a token, and its parts come after that. -/
theorem shortens_operand (hc : c.Within n) (h : PartsEnd c.rest.length parts) :
    Shortens (operand parts) c := by
  refine ends_current.mpr ?_
  cases hkind : c.current.kind
  case number =>
    exact ends_boundedNumber fun _ => shortens_advance hc (by simp [hkind]) fun _ =>
      stays_literal _ _ _
  case float => exact shortens_advance hc (by simp [hkind]) fun _ => stays_literal _ _ _
  case trueWord => exact shortens_advance hc (by simp [hkind]) fun _ => stays_literal _ _ _
  case falseWord => exact shortens_advance hc (by simp [hkind]) fun _ => stays_literal _ _ _
  case string =>
    refine shortens_advance hc (by simp [hkind]) fun _ => ?_
    exact (stays_pass fun _ => Pass.triple_makeType.mpr trivial).bind fun _ => stays_literal _ _ _
  case identifier => exact shortens_advance hc (by simp [hkind]) fun _ => stays_node _ _ _
  case dash =>
    exact shortens_advance hc (by simp [hkind]) fun _ => (h.stays_expr _).bind fun _ =>
      stays_spannedNode _ _ _
  case not =>
    exact shortens_advance hc (by simp [hkind]) fun _ => (h.stays_expr _).bind fun _ =>
      stays_spannedNode _ _ _
  case openParen =>
    refine shortens_advance hc (by simp [hkind]) fun _ => ?_
    refine ((loops_separated (fun _ => shortens_field (h.expr _)) _ _).bind fun r => ?_).stays
    refine (stays_expect _).bind fun _ => ?_
    split
    · exact .pure _
    · exact stays_spannedNode _ _ _
  case openBracket =>
    refine shortens_advance hc (by simp [hkind]) fun _ => ?_
    refine ((loops_separated (h.expr _) _ _).bind fun r => ?_).stays
    exact (stays_expect _).bind fun _ => stays_spannedNode _ _ _
  case openCurly => exact shortens_block hc (by simp [hkind]) h
  case ifWord => exact shortens_conditional hc (by simp [hkind]) h (stays_armExpr h)
  all_goals exact ends_unexpected

theorem loops_arguments (h : PartsEnd n parts) : Loops n (arguments parts) := by
  refine .of_round fun fuel c hc ih => ends_currentKind.mpr ?_
  split
  · exact Stays.pure _ c hc
  · next hk =>
    have hnext := hc.next_of_ne (by simp [hk])
    exact Ends.bind (n := c.rest.length) (fun _ => hnext) fun _ c₁ hc₁ => ih c₁ hc₁
  · exact (h.expr _ c hc).bind fun first c₁ hc₁ =>
      (ih c₁ hc₁).bind fun _ c₂ hc₂ => Stays.pure _ c₂ hc₂

/-- What extends an expression begins with a token. -/
theorem shortens_extend (hc : c.Within n) (h : PartsEnd c.rest.length parts)
    {continuation : Continuation} (hk : continuation? c.current.kind = some continuation)
    (left : NodeId) : Shortens (extend parts left continuation) c := by
  have hne : c.current.kind ≠ .eof := by
    intro he
    rw [he] at hk
    cases hk
  have hoperation : ∀ kind power, Shortens (operation parts kind power left) c := by
    intro kind power
    exact shortens_advance hc hne fun _ => (h.stays_expr _).bind fun _ =>
      (stays_spanOf _).bind fun _ => (stays_spanOf _).bind fun _ => stays_node _ _ _
  cases continuation with
  | assign => exact hoperation _ _
  | refBind => exact hoperation _ _
  | binary op => exact hoperation _ _
  | call =>
    refine ends_session fun s => ?_
    split
    · refine ends_spanOf fun _ => shortens_advance hc hne fun _ => ?_
      exact ((loops_arguments h).bind fun _ => (stays_expect _).bind fun _ =>
        stays_spannedNode _ _ _).stays
    · exact fun _ => nofun
  | index =>
    exact shortens_advance hc hne fun _ => (h.stays_expr _).bind fun _ => (stays_expect _).bind
      fun _ => (stays_spanOf _).bind fun _ => stays_spannedNode _ _ _
  | member =>
    refine shortens_advance hc hne fun _ => stays_currentKind.bind fun kind => ?_
    have hname : Stays c.rest.length (do
        let name ← advance
        node (.field name.value) (← spanFrom (← spanOf left).start) [left]) :=
      stays_advance.bind fun _ => (stays_spanOf _).bind fun _ => stays_spannedNode _ _ _
    split
    · exact hname
    · exact hname
    · exact stays_refuse _

theorem loops_climb (h : PartsEnd n parts) (power : Power) (left : NodeId) :
    Loops n fun fuel => climb parts power fuel left := by
  refine Loops.of_rounds (l := fun left fuel => climb parts power fuel left)
    (fun fuel left c hc ih => ends_currentKind.mpr ?_) left
  split
  · exact Stays.pure _ c hc
  · next hk =>
    split
    · exact Stays.pure _ c hc
    · exact (shortens_extend hc (h.mono (Nat.le_of_lt hc.fewer)) hk left).bind ih

theorem shortens_expression (hc : c.Within n) (h : PartsEnd c.rest.length parts) (power : Power) :
    Shortens (expression parts power) c :=
  (shortens_operand hc h).bind fun left c' hc' => (loops_climb h power left).stays c' hc'

-- ---------------------------------------------------------------------------
-- Statements
-- ---------------------------------------------------------------------------

theorem shortens_varDecl (hc : c.Within n) (hk : c.current.kind ≠ .eof)
    (h : PartsEnd c.rest.length parts) (isConst : Bool) : Shortens (varDecl parts isConst) c := by
  refine shortens_advance hc hk fun first => (stays_isAt _).bind fun b => ?_
  extract_lets afterName
  have hname : ∀ name, Stays c.rest.length (afterName name) := by
    intro name
    refine (stays_accept _).bind fun b => ?_
    extract_lets afterType
    have htype : ∀ declared, Stays c.rest.length (afterType declared) := by
      intro declared
      refine stays_currentKind.bind fun kind => ?_
      extract_lets afterValue
      have hvalue : ∀ r, Stays c.rest.length (afterValue r) := by
        rintro ⟨initial, isRef⟩
        exact (stays_expect _).bind fun _ => stays_get.bind fun _ =>
          (stays_declare _ _ _ _).bind fun _ => stays_spannedNode _ _ _
      clear_value afterValue
      split
      · exact stays_advance.bind fun _ => (h.stays_expr _).bind fun _ => hvalue _
      · exact stays_advance.bind fun _ => (h.stays_expr _).bind fun _ => hvalue _
      · refine .ite ((stays_refuse _).bind hvalue) (.ite ((stays_refuse _).bind hvalue) ?_)
        exact (Stays.pure _).bind hvalue
      · exact (stays_refuse _).bind hvalue
    cases b with
    | false => exact htype none
    | true => exact h.stays_type.map.bind htype
  cases b with
  | false => exact (stays_refuse _).bind hname
  | true => exact stays_advance.bind hname

theorem shortens_param (hc : c.Within n) (h : PartsEnd n parts) (scope : ScopeId) :
    Shortens (param parts scope) c := by
  refine shortens_expect hc nofun fun name => (stays_expect _).bind fun _ => ?_
  exact (h.mono (Nat.le_of_lt hc.fewer)).stays_type.bind fun _ =>
    (stays_declare _ _ _ _).bind fun _ => .pure _

theorem stays_signatureAndBody (h : PartsEnd n parts) (scope : ScopeId) :
    Stays n (signatureAndBody parts scope) := by
  refine (stays_expect _).bind fun _ => Loops.stays (.bind
    (loops_separated (fun c hc => shortens_param hc h scope) _ _) fun params => ?_)
  refine (stays_expect _).bind fun _ => (stays_accept _).bind fun b => ?_
  extract_lets afterResult
  have hbody : ∀ result, Stays n (afterResult result) := by
    intro result c hc
    refine ends_isAt.mpr ?_
    split
    · next hk =>
      have hle := Nat.le_of_lt hc.fewer
      have hblock := shortens_block hc (by simp [of_decide_eq_true hk]) (h.mono hle)
      exact (hblock.mono hle).bind fun _ c' hc' => Stays.pure _ c' hc'
    · exact stays_refuse _ c hc
  cases b with
  | false => exact hbody none
  | true => exact h.stays_type.map.bind hbody

theorem stays_typeParams : Stays n typeParams := by
  refine (stays_accept _).bind fun _ => .ite ?_ (.pure _)
  refine ((loops_separated (fun c hc => ?_) _ _).bind fun _ => (stays_expect _).bind fun _ =>
    .pure _).stays
  exact shortens_expect hc nofun fun _ => .pure _

theorem shortens_typeDecl (hc : c.Within n) (hk : c.current.kind ≠ .eof)
    (h : PartsEnd c.rest.length parts) : Shortens (typeDecl parts) c := by
  refine shortens_advance hc hk fun first => (stays_expect _).bind fun name =>
    stays_typeParams.bind fun params => (stays_expect _).bind fun _ =>
    h.stays_type.bind fun body => (stays_expect _).bind fun _ => stays_get.bind fun c' =>
    stays_session.bind fun s => ?_
  dsimp only
  split
  · exact (stays_modifySession _).bind fun _ => stays_spannedNode _ _ _
  · next hadd =>
    refine (stays_refuseName (fun he => ?_) name).bind fun _ => stays_spannedNode _ _ _
    exact ScopeTable.addType_ne_endless _ _ _ (he ▸ hadd)

theorem stays_requireTopLevel (first : Token) (word message : String) :
    Stays n (requireTopLevel first word message) :=
  stays_get.bind fun _ => .ite (stays_fail _ _) (.pure _)

theorem shortens_exportItem (hc : c.Within n) (hk : c.current.kind ≠ .eof)
    (h : PartsEnd c.rest.length parts) : Shortens (exportItem parts) c := by
  have hitem : Stays c.rest.length (do
      modify fun c => { c with exporting := true }
      let item ← parts.stmt
      modify fun c => { c with exporting := false }
      return item) :=
    (stays_setExporting _).bind fun _ => h.stays_stmt.bind fun _ =>
      (stays_setExporting _).bind fun _ => .pure _
  refine shortens_advance hc hk fun first => (stays_requireTopLevel _ _ _).bind fun _ =>
    stays_currentKind.bind fun kind => ?_
  split
  · exact hitem
  · exact hitem
  · exact hitem
  · exact hitem
  · exact hitem
  · exact stays_refuse _

theorem shortens_returnStmt (hc : c.Within n) (hk : c.current.kind ≠ .eof)
    (h : PartsEnd c.rest.length parts) : Shortens (returnStmt parts) c := by
  refine shortens_advance hc hk fun first => (stays_isAt _).bind fun b => ?_
  extract_lets afterValue
  have hvalue : ∀ value, Stays c.rest.length (afterValue value) := fun _ =>
    (stays_expect _).bind fun _ => stays_spannedNode _ _ _
  cases b with
  | false => exact (h.stays_expr _).bind fun _ => hvalue _
  | true => exact hvalue _

theorem shortens_exprStmt (h : Shortens (parts.expr .lowest) c) : Shortens (exprStmt parts) c := by
  refine h.bind fun expr c' hc' => ?_
  refine Stays.bind stays_currentKind (fun kind => ?_) c' hc'
  split
  · exact stays_advance.bind fun _ => (stays_spanOf _).bind fun _ => stays_node _ _ _
  · exact .pure _
  · exact .pure _
  · exact stays_refuse _

/-- A statement begins with a token or is an expression. -/
theorem shortens_statement (hc : c.Within n) (h : PartsEnd c.rest.length parts)
    (hexpr : Shortens (parts.expr .lowest) c) : Shortens (statement parts) c := by
  refine ends_currentKind.mpr ?_
  cases hkind : c.current.kind
  case constWord => exact shortens_varDecl hc (by simp [hkind]) h true
  case letWord => exact shortens_varDecl hc (by simp [hkind]) h false
  case importWord =>
    exact shortens_advance hc (by simp [hkind]) fun _ => (stays_requireTopLevel _ _ _).bind fun _ =>
      (stays_expect _).bind fun _ => (stays_expect _).bind fun _ => stays_get.bind fun _ =>
      stays_spannedNode _ _ _
  case exportWord => exact shortens_exportItem hc (by simp [hkind]) h
  case ifWord => exact shortens_conditional hc (by simp [hkind]) h h.stays_stmt
  case whileWord =>
    exact shortens_advance hc (by simp [hkind]) fun _ => (h.stays_expr _).bind fun _ =>
      h.stays_stmt.bind fun _ => stays_spannedNode _ _ _
  case openCurly => exact shortens_block hc (by simp [hkind]) h
  case fnWord =>
    refine shortens_advance hc (by simp [hkind]) fun _ => (stays_expect _).bind fun _ =>
      stays_get.bind fun _ => (stays_enterScope _).bind fun scope =>
      (stays_signatureAndBody h scope).bind fun _ => ?_
    exact stays_leaveScope.bind fun _ => (stays_declare _ _ _ _).bind fun _ =>
      stays_spannedNode _ _ _
  case typeWord => exact shortens_typeDecl hc (by simp [hkind]) h
  case returnWord => exact shortens_returnStmt hc (by simp [hkind]) h
  all_goals exact shortens_exprStmt hexpr

-- ---------------------------------------------------------------------------
-- Modules
-- ---------------------------------------------------------------------------

/-- Types and expressions need a level for each token and one for their parts, statements one
more for the expression that they may be. -/
theorem shortens_productions (depth : Nat) (hc : c.Within n) :
    (2 * c.rest.length + 1 ≤ depth → Shortens (productions depth).type c ∧
      ∀ power, Shortens ((productions depth).expr power) c) ∧
    (2 * c.rest.length + 2 ≤ depth → Shortens (productions depth).stmt c) := by
  induction depth generalizing c n with
  | zero => exact ⟨fun h => absurd h (by omega), fun h => absurd h (by omega)⟩
  | succ depth ih =>
    have hparts : 2 * c.rest.length ≤ depth → PartsEnd c.rest.length (productions depth) := by
      intro hdepth
      have hless : ∀ {c' : Cursor}, c'.Within c.rest.length →
          2 * c'.rest.length + 2 ≤ depth := fun hc' => by
        have := hc'.fewer
        omega
      exact ⟨fun c' hc' => ((ih hc').1 (Nat.le_of_succ_le (hless hc'))).1,
        fun power c' hc' => ((ih hc').1 (Nat.le_of_succ_le (hless hc'))).2 power,
        fun c' hc' => (ih hc').2 (hless hc')⟩
    refine ⟨fun hdepth => ⟨?_, fun power => ?_⟩, fun hdepth => ?_⟩
    · exact shortens_typeSyntax hc (hparts (Nat.le_of_succ_le_succ hdepth)).type
    · exact shortens_expression hc (hparts (Nat.le_of_succ_le_succ hdepth)) power
    · have hdepth' := Nat.le_of_succ_le_succ hdepth
      exact shortens_statement hc (hparts (Nat.le_of_succ_le hdepth')) (((ih hc).1 hdepth').2 _)

theorem loops_items {stmt : Parse NodeId} (h : ∀ c, c.Within n → Shortens stmt c)
    (root : NodeId) : Loops n (items root stmt) := by
  refine .of_round fun fuel c hc ih => ends_isAt.mpr ?_
  split
  · exact Stays.pure _ c hc
  · refine (h c hc).bind fun item c₁ hc₁ => ?_
    have hpush : Stays c.rest.length (pass (.tryTree (·.pushChild root item))) :=
      stays_pass (tryTree_ne_endless fun a => a.pushChild_ne_endless root item)
    exact (hpush c₁ hc₁).bind fun _ c₂ hc₂ => ih c₂ hc₂

end Grammar

/-- The last token of a text stands for its end. -/
theorem Token.kind_getLastD_of_scan {file : String} {taken offset : Nat} {cs : List Char}
    {tokens : List Token} (h : scan file taken offset cs = .ok tokens) (token : Token) :
    (tokens.getLastD token).kind = .eof := by
  induction cs generalizing taken offset tokens token with
  | nil =>
    obtain rfl := Except.ok.inj h
    rfl
  | cons c cs ih =>
    unfold scan at h
    split at h
    · exact ih h token
    split at h
    · cases h
    · next rule n _ =>
      dsimp only at h
      split at h
      · exact ih h token
      · cases hrest : scan file (n - 1) (offset + c.utf8Size) cs with
        | error e =>
          rw [hrest] at h
          cases h
        | ok rest =>
          rw [hrest] at h
          obtain rfl := Except.ok.inj h
          rw [List.getLastD_cons]
          exact ih hrest _

/-- Reading a module up to the token for its end meets no bound. -/
theorem parseModule_ends {tokens : List Token} {s : Session}
    (h : ∀ token, (tokens.getLastD token).kind = .eof) (file : String) (module : ModuleId) :
    Triple (parseModule tokens file module) s (fun _ _ => True) fun e _ => e ≠ .fault .endless := by
  have hstart : (Cursor.start tokens file (s.module module).layers).Within (tokens.length + 1) :=
    ⟨h _, Nat.lt_succ_self _⟩
  have hstmt : ∀ c : Cursor, c.Within (tokens.length + 1) →
      Parse.Shortens (Grammar.productions (2 * tokens.length + 2)).stmt c := by
    intro c hc
    have hfewer := hc.fewer
    exact (Grammar.shortens_productions _ hc).2 (by omega)
  unfold parseModule
  refine triple_bind.mpr (triple_get.mpr (triple_bind.mpr ?_))
  have hitems := Grammar.loops_items hstmt (s.module module).root (tokens.length + 1) _ hstart
    (Nat.lt_succ_self _)
  exact (hitems s).imp fun _ _ _ => trivial

theorem parseModule_ne_endless {tokens : List Token} {text path : String} {s : Session}
    (h : tokenize text path = .ok tokens) (file : String) (module : ModuleId) :
    Triple (parseModule tokens file module) s (fun _ _ => True) fun e _ => e ≠ .fault .endless :=
  parseModule_ends (Token.kind_getLastD_of_scan h) file module

end BlockLang
