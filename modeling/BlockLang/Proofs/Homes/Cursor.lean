import BlockLang.Proofs.Grammar.Expression
import BlockLang.Proofs.Homes.Lodged

/-!
# Reading in place

A production is read at a spot: within certain scopes, after `export` or not. `Yields` says that
it comes back to that spot, that what it adds is lodged, and which nodes are at hand then.
The word `export` is never the last token read, except right before an item; that is how the
tokens tell whether a declaration is exported.
-/

namespace BlockLang

/-- Whether `export` can stand before the token. -/
def Token.Kind.isItem : Token.Kind → Bool
  | .fnWord | .typeWord | .letWord | .constWord | .importWord => true
  | _ => false

/-- Whether a node of this kind hands its scope on and adds no name. -/
def NodeKind.isLevel : NodeKind → Bool
  | .block | .funcDecl _ | .varDecl .. | .typeDecl _ | .symbol _ => false
  | _ => true

/-- Where a cursor stands in a module. -/
structure Spot where
  inner : List ScopeId
  exporting : Bool

namespace Spot

/-- The item after `export` is read. -/
structure Exporting (spot : Spot) : Prop where
  item : spot.inner = []
  exported : spot.exporting = true

variable (g : Ground) (spot : Spot)

def scope : ScopeId := spot.inner.headD g.layers.privateLayer

/-- Where what is declared at the spot belongs. -/
def home : ScopeId :=
  if spot.exporting && spot.inner.isEmpty then g.layers.publicLayer else spot.scope g

/-- Within another scope. -/
def enter (scope : ScopeId) : Spot := { spot with inner := scope :: spot.inner }

/-- The scopes of the spot are there. -/
structure In (s : Session) : Prop where
  root : g.root.index < s.tree.size
  privateLayer : s.scopes.Has g.layers.privateLayer
  inner : ∀ scope ∈ spot.inner, g.layers.privateLayer.index < scope.index

end Spot

/-- The cursor stands at the spot, and the last token read is not `export`. -/
structure Cursor.At (c : Cursor) (g : Ground) (spot : Spot) : Prop where
  layers : c.layers = g.layers
  inner : c.inner = spot.inner
  exporting : c.exporting = spot.exporting
  eof : c.eof.kind = .eof
  past : ∃ read, g.tokens = read ++ c.rest ∧ ∀ word ∈ read.getLast?, word.kind ≠ .exportWord

/-- The cursor goes on within a scope. -/
def Cursor.enter (c : Cursor) (scope : ScopeId) : Cursor := { c with inner := scope :: c.inner }

def Cursor.leave (c : Cursor) : Cursor := { c with inner := c.inner.tail }

/-- The cursor stands before a statement: an item if `export` is the last token read. -/
structure Cursor.Starts (c : Cursor) (g : Ground) (spot : Spot) : Prop where
  layers : c.layers = g.layers
  inner : c.inner = spot.inner
  exporting : c.exporting = spot.exporting
  eof : c.eof.kind = .eof
  past : ∃ read, g.tokens = read ++ c.rest ∧
    ((∃ word ∈ read.getLast?, word.kind = .exportWord) ↔ spot.Exporting)
  item : spot.Exporting → c.current.kind.isItem = true

variable {g : Ground} {spot : Spot} {c : Cursor}

theorem Cursor.At.scope (h : c.At g spot) : c.scope = spot.scope g := by
  rw [Cursor.scope, h.inner, h.layers, Spot.scope]

theorem Cursor.At.home (h : c.At g spot) : c.declarationScope = spot.home g := by
  rw [Cursor.declarationScope, Cursor.atTopLevel, h.exporting, h.inner, h.layers, h.scope,
    Spot.home]

theorem Cursor.At.next (h : c.At g spot) (hk : c.current.kind ≠ .exportWord) :
    c.next.At g spot := by
  obtain ⟨read, htokens, hlast⟩ := h.past
  unfold Cursor.next
  split
  · exact h
  · next token rest hrest =>
    refine ⟨h.layers, h.inner, h.exporting, h.eof, read ++ [token], ?_, ?_⟩
    · rw [htokens, hrest, List.append_assoc]
      rfl
    · rw [Cursor.current, hrest] at hk
      simpa using hk

theorem Cursor.At.enter (h : c.At g spot) (scope : ScopeId) :
    (c.enter scope).At g (spot.enter scope) :=
  ⟨h.layers, congrArg (scope :: ·) h.inner, h.exporting, h.eof, h.past⟩

theorem Cursor.At.leave {scope : ScopeId} (h : c.At g (spot.enter scope)) : c.leave.At g spot :=
  ⟨h.layers, congrArg List.tail h.inner, h.exporting, h.eof, h.past⟩

/-- What is no item is not exported. -/
theorem Cursor.Starts.at (h : c.Starts g spot) (he : ¬ spot.Exporting) : c.At g spot := by
  obtain ⟨read, htokens, hlast⟩ := h.past
  exact ⟨h.layers, h.inner, h.exporting, h.eof, read, htokens, fun word hword hk =>
    he (hlast.mp ⟨word, hword, hk⟩)⟩

theorem Cursor.At.starts (h : c.At g spot) (he : ¬ spot.Exporting) : c.Starts g spot := by
  obtain ⟨read, htokens, hlast⟩ := h.past
  refine ⟨h.layers, h.inner, h.exporting, h.eof, ⟨read, htokens, ?_, fun hexp => absurd hexp he⟩,
    fun hexp => absurd hexp he⟩
  rintro ⟨word, hword, hk⟩
  exact absurd hk (hlast word hword)

theorem Cursor.Starts.not_exporting (h : c.Starts g spot) (hk : c.current.kind.isItem = false) :
    ¬ spot.Exporting := fun he => by simp [h.item he] at hk

/-- After the first token of a statement, the cursor is within it. -/
theorem Cursor.Starts.next (h : c.Starts g spot) (hk : c.current.kind ≠ .exportWord)
    (heof : c.current.kind ≠ .eof) : c.next.At g spot := by
  obtain ⟨read, htokens, -⟩ := h.past
  unfold Cursor.next
  split
  · next hrest =>
    rw [Cursor.current, hrest] at heof
    exact absurd h.eof heof
  · next token rest hrest =>
    refine ⟨h.layers, h.inner, h.exporting, h.eof, read ++ [token], ?_, ?_⟩
    · rw [htokens, hrest, List.append_assoc]
      rfl
    · rw [Cursor.current, hrest] at hk
      simpa using hk

/-- Where a declaration is at home can be told from the tokens. -/
theorem Cursor.Starts.home (h : c.Starts g spot) (heof : c.current.kind ≠ .eof) :
    g.Home (spot.scope g) c.current.span.start (spot.home g) := by
  obtain ⟨read, htokens, hlast⟩ := h.past
  cases hrest : c.rest with
  | nil =>
    rw [Cursor.current, hrest] at heof
    exact absurd h.eof heof
  | cons first rest =>
    have hcurrent : c.current = first := by rw [Cursor.current, hrest]; rfl
    rw [hrest] at htokens
    have hhead : Heads g.tokens read.length c.current.span.start :=
      ⟨first, by simp [htokens], by rw [hcurrent]⟩
    have hexported : Exported g.tokens read.length ↔ spot.Exporting := by
      rw [Exported, htokens, List.take_left]
      exact hlast
    by_cases he : spot.Exporting
    · have hscope : spot.scope g = g.layers.privateLayer := by rw [Spot.scope, he.item]; rfl
      have hhome : spot.home g = g.layers.publicLayer := by
        rw [Spot.home, he.item, he.exported]
        rfl
      rw [hhome]
      exact .exported hhead hscope (hexported.mpr he)
    · have hhome : spot.home g = spot.scope g := by
        refine if_neg fun hboth => he ?_
        simp only [Bool.and_eq_true, List.isEmpty_iff] at hboth
        exact ⟨hboth.2, hboth.1⟩
      rw [hhome]
      exact .own hhead fun _ hexp => he (hexported.mp hexp)

/-- The cursor stands at the spot, where the nodes in `hs` are at hand. What came since `s₀` is
lodged. -/
structure InPlace (g : Ground) (spot : Spot) (s₀ : Session) (hs : List NodeId) (c : Cursor)
    (s : Session) : Prop where
  cursor : c.At g spot
  place : spot.In g s
  lodged : g.Lodged s₀ s hs
  hands : ∀ id ∈ hs, g.Hands s (spot.scope g) id

section
variable {s s' s₀ : Session} {hs us : List NodeId} {id : NodeId}

theorem Spot.In.enter (h : spot.In g s) (kind : ScopeKind) (parent : ScopeId) :
    (spot.enter s.nextScope).In g (s.enter kind parent) := by
  refine ⟨h.root, h.privateLayer.mono (by simp [Session.enter]), fun scope hscope => ?_⟩
  rcases List.mem_cons.mp hscope with rfl | hscope
  · exact h.privateLayer
  · exact h.inner scope hscope

theorem Spot.In.keep (h : spot.In g s) (hk : g.Keeps s s') : spot.In g s' :=
  ⟨Nat.lt_of_lt_of_le h.root hk.tree, h.privateLayer.mono hk.size, h.inner⟩

theorem InPlace.refl (hc : c.At g spot) (hs : spot.In g s) : InPlace g spot s [] c s :=
  ⟨hc, hs, .refl s [], nofun⟩

/-- What is at hand stays there while more is read. -/
theorem InPlace.append {c' : Cursor} (h : InPlace g spot s₀ hs c s)
    (h' : InPlace g spot s us c' s') : InPlace g spot s₀ (hs ++ us) c' s' := by
  refine ⟨h'.cursor, h'.place, h.lodged.append h'.lodged, fun id hid => ?_⟩
  rcases List.mem_append.mp hid with hid | hid
  · exact h'.lodged.toKeeps.hands (h.hands id hid)
  · exact h'.hands id hid

theorem Ground.hands_addsNode {kind : NodeKind} {span : Span} {scope : ScopeId}
    {children : List NodeId} (hroot : g.root.index < s.tree.size)
    (hn : s.AddsNode s' id kind span scope children) : g.Hands s' scope id :=
  ⟨(Ground.new_of_addsNode hroot hn).toHolds, hn.scope⟩

/-- A new node is at hand beside others. -/
theorem InPlace.node {kind : NodeKind} {span : Span} {children ks : List NodeId}
    (hc : c.At g spot) (hs : spot.In g s)
    (hn : s.AddsNode s' id kind span c.scope children)
    (hl : g.Lodged s₀ s' (ks ++ [id])) (hks : ∀ id ∈ ks, g.Hands s (spot.scope g) id) :
    InPlace g spot s₀ (ks ++ [id]) c s' := by
  have hk : g.Keeps s s' := Ground.keeps_of_addsNode hs.root hn
  refine ⟨hc, hs.keep hk, hl, fun other hother => ?_⟩
  rcases List.mem_append.mp hother with hother | hother
  · exact hk.hands (hks other hother)
  · obtain rfl := List.mem_singleton.mp hother
    rw [← hc.scope]
    exact Ground.hands_addsNode hs.root hn

/-- Level nodes take what is written in their scope. -/
theorem Ground.admits_level {kind : NodeKind} {span : Span} {scope : ScopeId}
    (hkind : kind.isLevel = true ∨ ∃ name, kind = .symbol name)
    (hc : ∀ id ∈ hs, g.Hands s scope id) : g.Admits s kind span scope hs where
  below := fun id hid => (hc id hid).toHolds
  level := fun _ id hid => (hc id hid).scope
  opens := by
    intro k hk
    rcases hkind with hkind | ⟨name, rfl⟩
    · cases kind <;> simp_all [NodeKind.isLevel, NodeKind.opens?]
    · cases hk
  declares := by
    intro d hd
    rcases hkind with hkind | ⟨name, rfl⟩
    · cases kind <;> simp_all [NodeKind.isLevel, NodeKind.declares?]
    · cases hd
  function := by
    rintro d rfl
    simp [NodeKind.isLevel] at hkind
  type := by
    rintro name rfl
    simp [NodeKind.isLevel] at hkind

/-- A level node opens no scope. -/
theorem Arena.not_opens {a : Arena} {scope : ScopeId} (h : (a.kind id).opens? = none) :
    ¬ a.Opens id scope := by
  rintro ⟨hkind, -⟩
  simp [h] at hkind

end

namespace Parse

variable {s s₀ : Session} {hs : List NodeId} {p : Parse α} {f : α → Parse β}
  {us : α → List NodeId} {vs : β → List NodeId} {kind : Token.Kind}

/-- `p` goes on at the same spot and leaves the session alone. -/
def Calm (g : Ground) (p : Parse α) : Prop :=
  ∀ spot c s, c.At g spot → IfReturns (p.run c) s fun r s' => s' = s ∧ r.2.At g spot

/-- From where `hs` is at hand, `p` goes to where `us` is. -/
def Steps (g : Ground) (spot : Spot) (s₀ : Session) (hs : List NodeId) (p : Parse α)
    (us : α → List NodeId) : Prop :=
  ∀ c s, InPlace g spot s₀ hs c s →
    IfReturns (p.run c) s fun r s' => InPlace g spot s₀ (us r.1) r.2 s'

/-- `Steps` where the current token is known. -/
def StepsAt (g : Ground) (spot : Spot) (s₀ : Session) (hs : List NodeId) (kind : Token.Kind)
    (p : Parse α) (us : α → List NodeId) : Prop :=
  ∀ c s, InPlace g spot s₀ hs c s → c.current.kind = kind →
    IfReturns (p.run c) s fun r s' => InPlace g spot s₀ (us r.1) r.2 s'

/-- `p` puts `us` at hand. -/
def Yields (g : Ground) (spot : Spot) (p : Parse α) (us : α → List NodeId) : Prop :=
  ∀ s₀, Steps g spot s₀ [] p us

-- ---------------------------------------------------------------------------
-- What does not touch the session
-- ---------------------------------------------------------------------------

theorem Calm.pure (a : α) : Calm g (Pure.pure a) := fun _ _ _ hc => ⟨rfl, hc⟩

theorem Calm.bind (hp : Calm g p) (hf : ∀ a, Calm g (f a)) : Calm g (p >>= f) := by
  intro spot c s hc
  rw [StateT.run_bind]
  refine triple_bind.mpr ((hp spot c s hc).imp ?_)
  rintro ⟨a, c'⟩ s' ⟨rfl, hc'⟩
  exact hf a spot c' s' hc'

theorem Calm.map {f : α → β} (hp : Calm g p) : Calm g (f <$> p) := by
  rw [← bind_pure_comp]
  exact hp.bind fun _ => .pure _

theorem Calm.ite {b : Prop} [Decidable b] {p q : Parse α} (hp : Calm g p) (hq : Calm g q) :
    Calm g (if b then p else q) := by
  split
  · exact hp
  · exact hq

theorem calm_throw (e : Stop) : Calm g (throw e : Parse α) := fun _ _ _ _ => trivial
theorem calm_fail (problem : Problem) (position : Position) :
    Calm g (fail problem position : Parse α) := calm_throw _
theorem calm_get : Calm g (get : Parse Cursor) := fun _ _ _ hc => ⟨rfl, hc⟩
theorem calm_currentKind : Calm g currentKind := fun _ _ _ hc => ⟨rfl, hc⟩
theorem calm_isAt (kind : Token.Kind) : Calm g (isAt kind) := fun _ _ _ hc => ⟨rfl, hc⟩
theorem calm_unexpected : Calm g (unexpected : Parse α) := fun _ _ _ _ => trivial
theorem calm_refuse (message : String) : Calm g (refuse message : Parse α) :=
  fun _ _ _ _ => trivial
theorem calm_spanFrom (start : Position) : Calm g (spanFrom start) := fun _ _ _ hc => ⟨rfl, hc⟩
theorem calm_spanOf (id : NodeId) : Calm g (spanOf id) := fun _ _ _ hc => ⟨rfl, hc⟩
theorem calm_bound : Calm g bound := fun _ _ _ hc => ⟨rfl, hc⟩
theorem calm_endless : Calm g (endless : Parse α) := calm_throw _

theorem calm_expect (hk : kind ≠ .exportWord) : Calm g (expect kind) := by
  intro spot c s hc
  by_cases hcur : c.current.kind = kind
  · have hrun : (Parse.expect kind).run c = Parse.advance.run c := by
      simp [Parse.expect, isAt, hcur]
    rw [hrun]
    exact ⟨rfl, hc.next (hcur ▸ hk)⟩
  · have hrun : (Parse.expect kind).run c = (Parse.unexpected : Parse Token).run c := by
      simp [Parse.expect, isAt, hcur]
    rw [hrun]
    exact calm_unexpected spot c s hc

theorem calm_accept (hk : kind ≠ .exportWord) : Calm g (accept kind) := by
  intro spot c s hc
  by_cases hcur : c.current.kind = kind
  · have hrun : (Parse.accept kind).run c =
        (do let _ ← Parse.advance; return true : Parse Bool).run c := by
      simp [Parse.accept, isAt, hcur]
    rw [hrun]
    exact ⟨rfl, hc.next (hcur ▸ hk)⟩
  · have hrun : (Parse.accept kind).run c = (Pure.pure false : Parse Bool).run c := by
      simp [Parse.accept, isAt, hcur]
    rw [hrun]
    exact ⟨rfl, hc⟩

theorem calm_separated {item : Parse α} {close : Token.Kind} (message : String)
    (h : Calm g item) (fuel : Nat) : Calm g (separated close message item fuel) := by
  induction fuel with
  | zero => exact calm_endless
  | succ fuel ih =>
    refine (calm_isAt close).bind fun b => .ite (.pure _) ?_
    refine h.bind fun _ => (calm_accept (by decide)).bind fun b =>
      .ite (ih.bind fun _ => .pure _) ?_
    exact (calm_isAt close).bind fun b => .ite (.pure _) (calm_refuse message)

-- ---------------------------------------------------------------------------
-- Rules
-- ---------------------------------------------------------------------------

theorem Steps.pure {a : α} (h : us a = hs) : Steps g spot s₀ hs (Pure.pure a) us := by
  intro c s hr
  show InPlace g spot s₀ (us a) c s
  rwa [h]

theorem Steps.bind (hp : Steps g spot s₀ hs p us) (hf : ∀ a, Steps g spot s₀ (us a) (f a) vs) :
    Steps g spot s₀ hs (p >>= f) vs := by
  intro c s hr
  rw [StateT.run_bind]
  refine triple_bind.mpr ((hp c s hr).imp ?_)
  rintro ⟨a, c'⟩ s' hr'
  exact hf a c' s' hr'

theorem Steps.calm (hp : Calm g p) (hf : ∀ a, Steps g spot s₀ hs (f a) vs) :
    Steps g spot s₀ hs (p >>= f) vs := by
  have hcalm : Steps g spot s₀ hs p fun _ => hs := by
    intro c s hr
    refine (hp spot c s hr.cursor).imp ?_
    rintro ⟨a, c'⟩ s' ⟨rfl, hc⟩
    exact ⟨hc, hr.place, hr.lodged, hr.hands⟩
  exact hcalm.bind hf

/-- `Steps` as a step of a run with a conclusion of another form. -/
theorem Steps.run (hp : Steps g spot s₀ hs p us) {Q : β × Cursor → Session → Prop}
    (hr : InPlace g spot s₀ hs c s) (hf : ∀ a c' s', InPlace g spot s₀ (us a) c' s' →
      IfReturns ((f a).run c') s' Q) : IfReturns ((p >>= f).run c) s Q := by
  rw [StateT.run_bind]
  refine triple_bind.mpr ((hp c s hr).imp ?_)
  rintro ⟨a, c'⟩ s' hr'
  exact hf a c' s' hr'

theorem Calm.run (hp : Calm g p) {Q : β × Cursor → Session → Prop} (hc : c.At g spot)
    (hf : ∀ a c', c'.At g spot → IfReturns ((f a).run c') s Q) :
    IfReturns ((p >>= f).run c) s Q := by
  rw [StateT.run_bind]
  refine triple_bind.mpr ((hp spot c s hc).imp ?_)
  rintro ⟨a, c'⟩ s' ⟨rfl, hc'⟩
  exact hf a c' hc'

/-- What is read first goes into the next scope. -/
theorem ifReturns_enterScope {c : Cursor} {kind : ScopeKind} {f : ScopeId → Parse β}
    {Q : β × Cursor → Session → Prop} :
    IfReturns ((enterScope kind >>= f).run c) s Q ↔
      IfReturns ((f s.nextScope).run (c.enter s.nextScope)) (s.enter kind c.scope) Q := Iff.rfl

theorem ifReturns_leaveScope {c : Cursor} {f : Unit → Parse β}
    {Q : β × Cursor → Session → Prop} :
    IfReturns ((leaveScope >>= f).run c) s Q ↔ IfReturns ((f ()).run c.leave) s Q := Iff.rfl

theorem ifReturns_advance {c : Cursor} {f : Token → Parse β} {Q : β × Cursor → Session → Prop} :
    IfReturns ((advance >>= f).run c) s Q ↔ IfReturns ((f c.current).run c.next) s Q := Iff.rfl

theorem ifReturns_get {c : Cursor} {f : Cursor → Parse β} {Q : β × Cursor → Session → Prop} :
    IfReturns ((get >>= f).run c) s Q ↔ IfReturns ((f c).run c) s Q := Iff.rfl

theorem ifReturns_modify {c : Cursor} {next : Cursor → Cursor} {f : Unit → Parse β}
    {Q : β × Cursor → Session → Prop} :
    IfReturns ((modify next >>= f).run c) s Q ↔ IfReturns ((f ()).run (next c)) s Q := Iff.rfl

theorem ifReturns_currentKind {c : Cursor} {f : Token.Kind → Parse β}
    {Q : β × Cursor → Session → Prop} :
    IfReturns ((currentKind >>= f).run c) s Q ↔ IfReturns ((f c.current.kind).run c) s Q := Iff.rfl

theorem ifReturns_isAt {c : Cursor} {f : Bool → Parse β} {Q : β × Cursor → Session → Prop}
    (ht : c.current.kind = kind → IfReturns ((f true).run c) s Q)
    (hf : IfReturns ((f false).run c) s Q) : IfReturns ((isAt kind >>= f).run c) s Q := by
  by_cases hk : c.current.kind = kind
  · have hrun : (isAt kind >>= f).run c = (f true).run c := by simp [isAt, hk]
    rw [hrun]
    exact ht hk
  · have hrun : (isAt kind >>= f).run c = (f false).run c := by simp [isAt, hk]
    rw [hrun]
    exact hf

theorem ifReturns_spanFrom {c : Cursor} {start : Position} {f : Span → Parse β}
    {Q : β × Cursor → Session → Prop} :
    IfReturns ((spanFrom start >>= f).run c) s Q ↔
      IfReturns ((f ⟨start, c.previousStop⟩).run c) s Q := Iff.rfl

theorem Steps.stop {p : Parse α} (h : ∀ c s, IfReturns (p.run c) s fun _ _ => False) :
    Steps g spot s₀ hs p us := fun c s _ => (h c s).imp fun _ _ => False.elim

theorem Steps.refuse (message : String) : Steps g spot s₀ hs (refuse message) us :=
  .stop fun _ _ => trivial

theorem Steps.unexpected : Steps g spot s₀ hs unexpected us := .stop fun _ _ => trivial

theorem Steps.endless : Steps g spot s₀ hs endless us := .stop fun _ _ => trivial

theorem Steps.refuse_bind (message : String) :
    Steps g spot s₀ hs (Parse.refuse message >>= f) vs := .stop fun _ _ => trivial

/-- It is enough to look at a start with nothing at hand. -/
theorem Yields.of_start (h : ∀ c s, c.At g spot → spot.In g s →
    IfReturns (p.run c) s fun r s' => InPlace g spot s (us r.1) r.2 s') : Yields g spot p us := by
  intro s₀ c s hr
  refine (h c s hr.cursor hr.place).imp ?_
  rintro ⟨a, c'⟩ s' hr'
  exact hr.append hr'

/-- More is put at hand. -/
theorem Yields.after (hp : Yields g spot p us) (hs : List NodeId) :
    Steps g spot s₀ hs p fun a => hs ++ us a := by
  intro c s hr
  refine (hp s c s (.refl hr.cursor hr.place)).imp ?_
  rintro ⟨a, c'⟩ s' hr'
  exact hr.append hr'

theorem Yields.then (hp : Yields g spot p us)
    (hf : ∀ a, Steps g spot s₀ (hs ++ us a) (f a) vs) : Steps g spot s₀ hs (p >>= f) vs :=
  (hp.after hs).bind hf

theorem Steps.currentKind {f : Token.Kind → Parse β}
    (h : ∀ kind, StepsAt g spot s₀ hs kind (f kind) vs) :
    Steps g spot s₀ hs (currentKind >>= f) vs := fun c s hr => h _ c s hr rfl

theorem Steps.current {f : Token → Parse β}
    (h : ∀ token, StepsAt g spot s₀ hs token.kind (f token) vs) :
    Steps g spot s₀ hs (current >>= f) vs := fun c s hr => h _ c s hr rfl

theorem Steps.get {f : Cursor → Parse β}
    (h : ∀ c, c.At g spot → Steps g spot s₀ hs (f c) vs) :
    Steps g spot s₀ hs (get >>= f) vs := fun c s hr => h c hr.cursor c s hr

theorem Steps.isAt {f : Bool → Parse β} (ht : StepsAt g spot s₀ hs kind (f true) vs)
    (hf : Steps g spot s₀ hs (f false) vs) : Steps g spot s₀ hs (isAt kind >>= f) vs :=
  fun c s hr => ifReturns_isAt (ht c s hr) (hf c s hr)

theorem Steps.at (h : Steps g spot s₀ hs p us) : StepsAt g spot s₀ hs kind p us :=
  fun c s hr _ => h c s hr

theorem StepsAt.bind (hp : StepsAt g spot s₀ hs kind p us)
    (hf : ∀ a, Steps g spot s₀ (us a) (f a) vs) : StepsAt g spot s₀ hs kind (p >>= f) vs := by
  intro c s hr hk
  rw [StateT.run_bind]
  refine triple_bind.mpr ((hp c s hr hk).imp ?_)
  rintro ⟨a, c'⟩ s' hr'
  exact hf a c' s' hr'

theorem StepsAt.advance {f : Token → Parse β} (hk : kind ≠ .exportWord)
    (hf : ∀ token, Steps g spot s₀ hs (f token) vs) :
    StepsAt g spot s₀ hs kind (advance >>= f) vs := by
  rintro c s hr rfl
  exact hf c.current c.next s ⟨hr.cursor.next hk, hr.place, hr.lodged, hr.hands⟩

-- ---------------------------------------------------------------------------
-- Nodes
-- ---------------------------------------------------------------------------

/-- What `node` does to the session. -/
theorem ifReturns_node (c : Cursor) (s : Session) (kind : NodeKind) (span : Span)
    (children : List NodeId) : IfReturns ((node kind span children).run c) s fun r s' =>
      r.2 = c ∧ s.AddsNode s' r.1 kind span c.scope children := by
  refine triple_pass.mpr ?_
  refine (s.ifReturns_addNode kind span c.scope children).imp ?_
  rintro id s' hn
  exact ⟨rfl, hn⟩

/-- A level node takes the last nodes at hand. -/
theorem Steps.nodeLast {kind : NodeKind} {ks : List NodeId} (hkind : kind.isLevel = true)
    (span : Span) :
    Steps g spot s₀ (ks ++ hs) (node kind span hs) fun id => ks ++ [id] := by
  intro c s hr
  refine (ifReturns_node c s kind span hs).imp ?_
  rintro ⟨id, _⟩ s' ⟨rfl, hn⟩
  have hopens : (s'.tree.kind id).opens? = none := by
    rw [hn.kind]
    cases kind <;> simp_all [NodeKind.isLevel, NodeKind.opens?]
  refine .node hr.cursor hr.place hn (hr.lodged.node hr.place.root hn ?_
    (fun _ ho => absurd ho (Arena.not_opens hopens)) (fun i hi => ?_) (by simp) ?_)
    fun i hi => hr.hands i (List.mem_append_left _ hi)
  · rw [hr.cursor.scope]
    exact Ground.admits_level (.inl hkind) fun i hi => hr.hands i (List.mem_append_right _ hi)
  · exact (List.mem_append.mp hi).elim (fun hi => .inr (List.mem_append_left _ hi)) .inl
  · rintro - name rfl
    cases hkind

/-- A level node takes all nodes at hand. -/
theorem Steps.node {kind : NodeKind} (hkind : kind.isLevel = true) (span : Span) :
    Steps g spot s₀ hs (node kind span hs) fun id => [id] :=
  have hnone : Steps g spot s₀ ([] ++ hs) (Parse.node kind span hs) fun id => [] ++ [id] :=
    .nodeLast hkind span
  hnone

theorem Yields.symbol (name : String) (span : Span) :
    Yields g spot (Parse.node (.symbol name) span []) fun id => [id] := by
  intro s₀ c s hr
  refine (ifReturns_node c s (.symbol name) span []).imp ?_
  rintro ⟨id, _⟩ s' ⟨rfl, hn⟩
  have hopens : (s'.tree.kind id).opens? = none := by
    rw [hn.kind]
    rfl
  have hl : g.Lodged s₀ s' [id] := hr.lodged.node hr.place.root hn
    (Ground.admits_level (.inr ⟨name, rfl⟩) nofun) (fun _ ho => absurd ho (Arena.not_opens hopens))
    nofun (List.mem_singleton_self id) fun hne => absurd rfl hne
  have hplace : InPlace g spot s₀ ([] ++ [id]) _ s' := .node hr.cursor hr.place hn hl nofun
  exact hplace

/-- A pass that concerns neither names nor what is written. -/
theorem Steps.other {q : Pass α} (h : ∀ s, IfReturns q s fun _ s' => s'.scopes = s.scopes ∧
      s'.decls = s.decls ∧ s'.modules = s.modules ∧ s'.tree.size = s.tree.size ∧
      ∀ id, s.tree.KeepsNode s'.tree id)
    (hf : ∀ a, Steps g spot s₀ hs (f a) vs) : Steps g spot s₀ hs (pass q >>= f) vs := by
  have hpass : Steps g spot s₀ hs (pass q) fun _ => hs := by
    refine fun c s hr => triple_pass.mpr ((h s).imp ?_)
    rintro a s' ⟨hscopes, hdecls, hmodules, hsize, hnodes⟩
    have hl : g.Lodged s s' [] := Ground.lodged_of_eq hscopes hdecls hmodules hsize hnodes []
    have hplace := hr.append ⟨hr.cursor, hr.place.keep hl.toKeeps, hl, nofun⟩
    rwa [List.append_nil] at hplace
  exact hpass.bind hf

end Parse
end BlockLang
