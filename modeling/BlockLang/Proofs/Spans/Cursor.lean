import BlockLang.Proofs.Homes.Cursor
import BlockLang.Proofs.Spans.Order

/-!
# Reading in a row

A production makes nodes of the tokens it reads, so they stand behind whatever was read before.
`Lays` says that what is at hand stands in a row up to the last token read, and that the spans of
all nodes made so far nest.
-/

namespace BlockLang

open BlockLang.Span (InRow)

-- ---------------------------------------------------------------------------
-- The tokens ahead
-- ---------------------------------------------------------------------------

namespace Cursor

/-- The tokens ahead stand in a row from the last token read to the end of the text. -/
structure Aligned (c : Cursor) (stop : Position) : Prop where
  row : InRow c.previousStop (c.rest.map (·.span)) stop
  solid : ∀ token ∈ c.rest, token.kind ≠ .eof → token.span.start < token.span.stop
  eof : c.eof = ⟨.eof, "EOF", ⟨stop, stop⟩⟩
  /-- Once all are read, the last one stops at the end. -/
  ends : stop ≤ Token.lastStop c.previousStop c.rest

variable {c c' : Cursor} {stop : Position}

theorem inRow_lastStop {lo hi : Position} {read ahead : List Token}
    (h : InRow lo ((read ++ ahead).map (·.span)) hi) :
    lo ≤ Token.lastStop lo read ∧ InRow (Token.lastStop lo read) (ahead.map (·.span)) hi := by
  induction read generalizing lo with
  | nil => exact ⟨le_refl _, h⟩
  | cons token read ih =>
    obtain ⟨hle, hrow⟩ := ih h.2.2
    exact ⟨h.1.trans (h.2.1.trans hle), hrow⟩

theorem Aligned.past (h : c.Aligned stop) (hp : c.Past c') :
    c'.Aligned stop ∧ c.previousStop ≤ c'.previousStop := by
  obtain ⟨read, hrest, hstop⟩ := hp.tokens
  have hrow := h.row
  have hends := h.ends
  rw [hrest] at hrow
  rw [hrest, Token.lastStop_append, ← hstop] at hends
  obtain ⟨hle, hrow⟩ := inRow_lastStop hrow
  rw [← hstop] at hle hrow
  refine ⟨⟨hrow, fun token htoken => h.solid token ?_, hp.eof.trans h.eof, hends⟩, hle⟩
  rw [hrest]
  exact List.mem_append_right _ htoken

/-- The current token stands between the last one read and where reading goes on behind it. -/
theorem Aligned.current (h : c.Aligned stop) :
    InRow c.previousStop [c.current.span] c.next.previousStop := by
  unfold Cursor.current Cursor.next
  cases hrest : c.rest with
  | nil =>
    have hrow := h.row
    have hends := h.ends
    rw [hrest] at hrow hends
    rw [List.headD_nil, h.eof]
    exact ⟨hrow, le_refl _, hends⟩
  | cons token rest =>
    have hrow := h.row
    rw [hrest] at hrow
    exact ⟨hrow.1, hrow.2.1, le_refl _⟩

theorem Aligned.solid_current (h : c.Aligned stop) (hk : c.current.kind ≠ .eof) :
    c.current.span.start < c.current.span.stop := by
  cases hrest : c.rest with
  | nil =>
    rw [Cursor.current, hrest, List.headD_nil, h.eof] at hk
    exact absurd rfl hk
  | cons token rest =>
    rw [Cursor.current, hrest] at hk ⊢
    exact h.solid token (by simp [hrest]) hk

end Cursor

-- ---------------------------------------------------------------------------
-- The nodes at hand
-- ---------------------------------------------------------------------------

/-- The nodes from `first` on are made of a text that ends at `stop`. -/
structure Extent where
  first : Nat
  stop : Position

/-- Where what is at hand begins. -/
structure Mark where
  start : Position
  /-- Whether a token behind `start` has been read. -/
  passed : Bool

/-- The nodes in `hs` are at hand: they stand in a row from the mark to the last token read. The
spans of all nodes nest. -/
structure Extent.Laid (e : Extent) (m : Mark) (hs : List NodeId) (c : Cursor) (s : Session) :
    Prop where
  cursor : c.Aligned e.stop
  begun : e.first ≤ s.tree.size
  nests : ∀ id, e.first ≤ id.index → id.index < s.tree.size → s.tree.Nests e.first id
  known : ∀ id ∈ hs, e.first ≤ id.index ∧ id.index < s.tree.size
  row : InRow m.start (hs.map s.tree.span) c.previousStop
  passed : m.passed = true → m.start < c.previousStop

section
variable {e : Extent} {m : Mark} {lo : Position} {hs us ks : List NodeId} {c c' : Cursor}
  {s s' : Session} {id : NodeId}

namespace Extent

theorem Laid.solid (h : e.Laid m hs c s) (hid : id ∈ hs) :
    (s.tree.span id).start < (s.tree.span id).stop :=
  (h.nests id (h.known id hid).1 (h.known id hid).2).solid

theorem Laid.lower (hlo : m.start ≤ lo) (h : e.Laid ⟨lo, true⟩ hs c s) : e.Laid m hs c s :=
  ⟨h.cursor, h.begun, h.nests, h.known, h.row.widen hlo (le_refl _),
    fun _ => lt_of_le_of_lt hlo (h.passed rfl)⟩

/-- What comes next stands behind the last token read. -/
theorem Laid.start (h : e.Laid m hs c s) : e.Laid ⟨c.previousStop, false⟩ [] c s :=
  ⟨h.cursor, h.begun, h.nests, List.forall_mem_nil _, le_refl _, fun hno => Bool.noConfusion hno⟩

/-- What is at hand stays there while more is read. -/
theorem Laid.append (h : e.Laid m hs c s) (hk : s.tree.KeepsNodes s'.tree)
    (h' : e.Laid ⟨c.previousStop, false⟩ us c' s') : e.Laid m (hs ++ us) c' s' := by
  refine ⟨h'.cursor, h'.begun, h'.nests, fun id hid => ?_, ?_, fun hm => ?_⟩
  · rcases List.mem_append.mp hid with hid | hid
    · obtain ⟨hfirst, hlt⟩ := h.known id hid
      exact ⟨hfirst, Nat.lt_of_lt_of_le hlt hk.size⟩
    · exact h'.known id hid
  · rw [List.map_append, hk.spans fun id hid => (h.known id hid).2]
    exact h.row.append h'.row
  · exact lt_of_lt_of_le (h.passed hm) h'.row.le

theorem Laid.still (h : e.Laid m hs c s) (hk : s.tree.KeepsNodes s'.tree)
    (hsize : s'.tree.size = s.tree.size) (hp : c.Past c') : e.Laid m hs c' s' := by
  obtain ⟨haligned, hle⟩ := h.cursor.past hp
  refine ⟨haligned, hsize ▸ h.begun, fun id hfirst hlt => ?_, hsize ▸ h.known, ?_,
    fun hm => lt_of_lt_of_le (h.passed hm) hle⟩
  · rw [hsize] at hlt
    exact (h.nests id hfirst hlt).keep hk hlt
  · rw [hk.spans fun id hid => (h.known id hid).2]
    exact h.row.widen (le_refl _) hle

/-- A new node takes the last nodes at hand if its span goes around them. -/
theorem Laid.node {kind : NodeKind} {span : Span} {scope : ScopeId}
    (h : e.Laid m (ks ++ hs) c s) (hn : s.AddsNode s' id kind span scope hs)
    (hks : InRow m.start (ks.map s.tree.span) span.start)
    (hhs : InRow span.start (hs.map s.tree.span) span.stop) (hsolid : span.start < span.stop)
    (hstop : span.stop ≤ c.previousStop) :
    s.tree.KeepsNodes s'.tree ∧ e.Laid m (ks ++ [id]) c s' := by
  have hk := hn.keepsNodes
  have hnew : id.index = s.tree.size := by rw [hn.fresh]
  have hbefore : ∀ other ∈ ks, other.index < s.tree.size := fun other hother =>
    (h.known other (List.mem_append_left _ hother)).2
  have hnests : s'.tree.Nests e.first id :=
    hn.nests (fun child hchild => h.known child (List.mem_append_right _ hchild)) hhs hsolid
  refine ⟨hk, h.cursor, h.begun.trans hk.size, fun other hfirst hlt => ?_, fun other hother => ?_,
    ?_, h.passed⟩
  · rw [hn.size] at hlt
    rcases Nat.lt_succ_iff_lt_or_eq.mp hlt with hlt | heq
    · exact (h.nests other hfirst hlt).keep hk hlt
    · obtain rfl : other = id := by
        rw [hn.fresh]
        cases other
        exact congrArg NodeId.mk heq
      exact hnests
  · rw [hn.size]
    rcases List.mem_append.mp hother with hother | hother
    · obtain ⟨hfirst, hlt⟩ := h.known other (List.mem_append_left _ hother)
      exact ⟨hfirst, Nat.lt_succ_of_lt hlt⟩
    · rw [List.mem_singleton.mp hother, hnew]
      exact ⟨h.begun, Nat.lt_succ_self _⟩
  · rw [List.map_append, hk.spans hbefore, List.map_singleton, hn.span]
    exact hks.append ⟨le_refl _, hhs.le, hstop⟩

end Extent
end

namespace Parse

variable {e : Extent} {m : Mark} {lo : Position} {hs ks : List NodeId} {p : Parse α}
  {f : α → Parse β} {us : α → List NodeId} {vs : β → List NodeId} {token : Token} {span : Span}
  {id : NodeId}

/-- `p` reads on and leaves the nodes as they are. -/
def Still (p : Parse α) : Prop :=
  ∀ c s, IfReturns (p.run c) s fun r s' =>
    (s.tree.KeepsNodes s'.tree ∧ s'.tree.size = s.tree.size) ∧ c.Past r.2

/-- From where `hs` is at hand, `p` goes to where `us` is. -/
def Lays (e : Extent) (m : Mark) (hs : List NodeId) (p : Parse α) (us : α → List NodeId) : Prop :=
  ∀ c s, e.Laid m hs c s → IfReturns (p.run c) s fun r s' =>
    s.tree.KeepsNodes s'.tree ∧ e.Laid m (us r.1) r.2 s'

/-- `Lays` where the current token is known and nothing is at hand. -/
def LaysAt (e : Extent) (m : Mark) (token : Token) (p : Parse α) (us : α → List NodeId) : Prop :=
  ∀ c s, e.Laid m [] c s → c.current = token → IfReturns (p.run c) s fun r s' =>
    s.tree.KeepsNodes s'.tree ∧ e.Laid m (us r.1) r.2 s'

/-- `p` puts `us` at hand. -/
def Brings (e : Extent) (p : Parse α) (us : α → List NodeId) : Prop :=
  ∀ lo, Lays e ⟨lo, false⟩ [] p us

/-- `p` makes a node with the span, which is not empty and lies before where reading goes on. -/
def Stamps (e : Extent) (span : Span) (p : Parse NodeId) : Prop :=
  ∀ m c s, e.Laid m [] c s → InRow m.start [span] c.previousStop → span.start < span.stop →
    IfReturns (p.run c) s fun r s' => s.tree.KeepsNodes s'.tree ∧ e.Laid m [r.1] r.2 s'

-- ---------------------------------------------------------------------------
-- What leaves the nodes as they are
-- ---------------------------------------------------------------------------

theorem Quiet.still (h : Quiet p) : Still p := by
  intro c s
  refine (h c s).mono ?_ fun _ _ _ => trivial
  rintro ⟨a, c'⟩ s' ⟨rfl, hc⟩
  exact ⟨⟨.refl _, rfl⟩, hc.toPast⟩

theorem Still.pure (a : α) : Still (Pure.pure a : Parse α) := (Quiet.pure a).still

theorem Still.bind (hp : Still p) (hf : ∀ a, Still (f a)) : Still (p >>= f) := by
  intro c s
  rw [StateT.run_bind]
  refine triple_bind.mpr ((hp c s).imp ?_)
  rintro ⟨a, c'⟩ s' ⟨⟨hk, hsize⟩, hc⟩
  refine (hf a c' s').imp ?_
  rintro r s'' ⟨⟨hk', hsize'⟩, hc'⟩
  exact ⟨⟨hk.trans hk', hsize'.trans hsize⟩, hc.trans hc'⟩

theorem still_enterScope (kind : ScopeKind) : Still (enterScope kind) := fun _ _ =>
  ⟨⟨.refl _, rfl⟩, rfl, [], rfl, rfl⟩

theorem still_leaveScope : Still leaveScope := fun _ _ => ⟨⟨.refl _, rfl⟩, rfl, [], rfl, rfl⟩

theorem still_onValues (f : Heap → α × Heap) : Still (pass (.onValues f)) := fun c _ =>
  ⟨⟨.refl _, rfl⟩, .refl c⟩

theorem still_makeType (f : TypeTable → TypeId × TypeTable) : Still (pass (.makeType f)) :=
  fun c _ => ⟨⟨.refl _, rfl⟩, .refl c⟩

theorem still_annotate (id : NodeId) (f : Facts → Facts) : Still (pass (.annotate id f)) :=
  fun c s =>
    have hsize : (s.tree.annotate id f).size = s.tree.size := Arena.size_modify ..
    ⟨⟨⟨Nat.le_of_eq hsize.symm, fun _ _ => Arena.keepsNode_annotate f⟩, hsize⟩, .refl c⟩

-- ---------------------------------------------------------------------------
-- Rules
-- ---------------------------------------------------------------------------

theorem Lays.pure {a : α} (h : us a = hs) : Lays e m hs (Pure.pure a) us := by
  intro c s hl
  show s.tree.KeepsNodes s.tree ∧ e.Laid m (us a) c s
  rw [h]
  exact ⟨.refl _, hl⟩

theorem Lays.bind (hp : Lays e m hs p us) (hf : ∀ a, Lays e m (us a) (f a) vs) :
    Lays e m hs (p >>= f) vs := by
  intro c s hl
  rw [StateT.run_bind]
  refine triple_bind.mpr ((hp c s hl).imp ?_)
  rintro ⟨a, c'⟩ s' ⟨hk, hl'⟩
  exact (hf a c' s' hl').imp fun r s'' ⟨hk', hl''⟩ => ⟨hk.trans hk', hl''⟩

theorem Still.lays (hp : Still p) : Lays e m hs p fun _ => hs := fun c s hl =>
  (hp c s).imp fun _ _ ⟨⟨hk, hsize⟩, hc⟩ => ⟨hk, hl.still hk hsize hc⟩

theorem Lays.still (hp : Still p) (hf : ∀ a, Lays e m hs (f a) vs) :
    Lays e m hs (p >>= f) vs := hp.lays.bind hf

theorem Lays.quiet (hp : Quiet p) (hf : ∀ a, Lays e m hs (f a) vs) :
    Lays e m hs (p >>= f) vs := .still hp.still hf

theorem Lays.stop (h : ∀ c s, IfReturns (p.run c) s fun _ _ => False) : Lays e m hs p us :=
  fun c s _ => (h c s).imp fun _ _ => False.elim

theorem Lays.refuse (message : String) : Lays e m hs (refuse message) us :=
  .stop fun _ _ => trivial

theorem Lays.refuse_bind (message : String) : Lays e m hs (Parse.refuse message >>= f) vs :=
  .stop fun _ _ => trivial

theorem Lays.unexpected : Lays e m hs unexpected us := .stop fun _ _ => trivial

theorem Lays.endless : Lays e m hs endless us := .stop fun _ _ => trivial

/-- More is put at hand. -/
theorem Brings.after (hp : Brings e p us) (hs : List NodeId) :
    Lays e m hs p fun a => hs ++ us a := fun c s hl =>
  (hp c.previousStop c s hl.start).imp fun _ _ ⟨hk, hl'⟩ => ⟨hk, hl.append hk hl'⟩

theorem Brings.then (hp : Brings e p us) (hf : ∀ a, Lays e m (hs ++ us a) (f a) vs) :
    Lays e m hs (p >>= f) vs :=
  (hp.after hs).bind hf

/-- What is put at hand is the first. -/
theorem Brings.first (hp : Brings e p us) (hf : ∀ a, Lays e m (us a) (f a) vs) :
    Lays e m [] (p >>= f) vs := hp.then hf

theorem Lays.current {f : Token → Parse β} (hf : ∀ token, LaysAt e m token (f token) vs) :
    Lays e m [] (current >>= f) vs := fun c s hl => hf c.current c s hl rfl

theorem Lays.currentKind {f : Token.Kind → Parse β}
    (hf : ∀ token, LaysAt e m token (f token.kind) vs) :
    Lays e m [] (currentKind >>= f) vs := fun c s hl => hf c.current c s hl rfl

theorem Lays.isAt {kind : Token.Kind} {f : Bool → Parse β}
    (ht : ∀ token, token.kind = kind → LaysAt e m token (f true) vs)
    (hf : Lays e m [] (f false) vs) : Lays e m [] (isAt kind >>= f) vs := fun c s hl =>
  ifReturns_isAt (fun hk => ht c.current hk c s hl rfl) (hf c s hl)

theorem LaysAt.bind (hp : LaysAt e m token p us) (hf : ∀ a, Lays e m (us a) (f a) vs) :
    LaysAt e m token (p >>= f) vs := by
  intro c s hl hc
  rw [StateT.run_bind]
  refine triple_bind.mpr ((hp c s hl hc).imp ?_)
  rintro ⟨a, c'⟩ s' ⟨hk, hl'⟩
  exact (hf a c' s' hl').imp fun r s'' ⟨hk', hl''⟩ => ⟨hk.trans hk', hl''⟩

theorem Lays.at (h : Lays e m [] p us) : LaysAt e m token p us := fun c s hl _ => h c s hl

/-- What begins with a token stands behind its start. -/
theorem LaysAt.advance {f : Token → Parse β} (hk : token.kind ≠ .eof)
    (hf : Lays e ⟨token.span.start, true⟩ [] (f token) vs) :
    LaysAt e m token (advance >>= f) vs := by
  rintro c s hl rfl
  obtain ⟨haligned, -⟩ := hl.cursor.past c.past_next
  obtain ⟨hstart, hspan, hstop⟩ := hl.cursor.current
  have hl' : e.Laid ⟨c.current.span.start, true⟩ [] c.next s :=
    ⟨haligned, hl.begun, hl.nests, List.forall_mem_nil _, hspan.trans hstop,
      fun _ => lt_of_lt_of_le (hl.cursor.solid_current hk) hstop⟩
  refine ifReturns_advance.mpr ((hf c.next s hl').imp ?_)
  rintro r s' ⟨hkeeps, hl''⟩
  exact ⟨hkeeps, hl''.lower (le_trans hl.row hstart)⟩

theorem ifReturns_spanOf {c : Cursor} {s : Session} {f : Span → Parse β}
    {Q : β × Cursor → Session → Prop} :
    IfReturns ((spanOf id >>= f).run c) s Q ↔ IfReturns ((f (s.tree.span id)).run c) s Q := Iff.rfl

/-- What begins with a node at hand stands behind its start. -/
theorem Lays.spanOf {f : Span → Parse β}
    (hf : ∀ span, Lays e ⟨span.start, true⟩ (id :: hs) (f span) vs) :
    Lays e m (id :: hs) (spanOf id >>= f) vs := by
  intro c s hl
  have hstop := hl.row.2.2.le
  have hl' : e.Laid ⟨(s.tree.span id).start, true⟩ (id :: hs) c s :=
    ⟨hl.cursor, hl.begun, hl.nests, hl.known, ⟨le_refl _, hl.row.2⟩,
      fun _ => lt_of_lt_of_le (hl.solid List.mem_cons_self) hstop⟩
  refine ifReturns_spanOf.mpr ((hf (s.tree.span id) c s hl').imp ?_)
  rintro r s' ⟨hk, hl''⟩
  exact ⟨hk, hl''.lower hl.row.1⟩

theorem Lays.drop (h : Lays e m [] p us) : Lays e m [id] p us := fun c s hl =>
  h c s ⟨hl.cursor, hl.begun, hl.nests, List.forall_mem_nil _, hl.row.le, hl.passed⟩

-- ---------------------------------------------------------------------------
-- Nodes
-- ---------------------------------------------------------------------------

theorem ifReturns_node_laid {c : Cursor} {s : Session} {kind : NodeKind}
    (hl : e.Laid m (ks ++ hs) c s) (hks : InRow m.start (ks.map s.tree.span) span.start)
    (hhs : InRow span.start (hs.map s.tree.span) span.stop) (hsolid : span.start < span.stop)
    (hstop : span.stop ≤ c.previousStop) :
    IfReturns ((node kind span hs).run c) s fun r s' =>
      s.tree.KeepsNodes s'.tree ∧ e.Laid m (ks ++ [r.1]) r.2 s' := by
  refine (ifReturns_node c s kind span hs).imp ?_
  rintro ⟨id, _⟩ s' ⟨rfl, hn⟩
  exact hl.node hn hks hhs hsolid hstop

/-- A node from where the row begins takes all of it. -/
theorem Lays.nodeFrom (kind : NodeKind) :
    Lays e ⟨lo, true⟩ hs (do node kind (← spanFrom lo) hs) fun id => [id] := by
  intro c s hl
  have hnone : e.Laid ⟨lo, true⟩ ([] ++ hs) c s := hl
  exact ifReturns_spanFrom.mpr
    (ifReturns_node_laid hnone (le_refl _) hl.row (hl.passed rfl) (le_refl _))

/-- A node over the last two at hand. -/
theorem Lays.nodeAcross (kind : NodeKind) (one other : NodeId) :
    Lays e m (ks ++ [one, other]) (do
      node kind ((← Parse.spanOf one).to (← Parse.spanOf other)) [one, other])
      fun id => ks ++ [id] := by
  intro c s hl
  have hrow := hl.row
  rw [List.map_append] at hrow
  obtain ⟨hks, hpair⟩ := hrow.cut
  obtain ⟨-, hone, hbetween, hother, hstop⟩ := hpair
  have hspans : InRow (s.tree.span one).start ([one, other].map s.tree.span)
      (s.tree.span other).stop :=
    ⟨le_refl _, hone, hbetween, hother, le_refl _⟩
  have hsolid := hl.solid (List.mem_append_right ks List.mem_cons_self)
  exact ifReturns_spanOf.mpr (ifReturns_spanOf.mpr (ifReturns_node_laid hl hks hspans
    (lt_of_lt_of_le hsolid (hbetween.trans hother)) hstop))

/-- A node over the only one at hand. -/
theorem Lays.nodeOver (kind : NodeKind) (id : NodeId) :
    Lays e m [id] (do node kind (← Parse.spanOf id) [id]) fun id => [id] := by
  intro c s hl
  obtain ⟨hstart, hspan, hstop⟩ := hl.row
  have hnone : e.Laid m ([] ++ [id]) c s := hl
  exact ifReturns_spanOf.mpr (ifReturns_node_laid hnone hstart ⟨le_refl _, hspan, le_refl _⟩
    (hl.solid List.mem_cons_self) hstop)

-- ---------------------------------------------------------------------------
-- Nodes made of one token
-- ---------------------------------------------------------------------------

theorem Stamps.node (kind : NodeKind) : Stamps e span (Parse.node kind span []) := by
  rintro m c s hl ⟨hstart, hspan, hstop⟩ hsolid
  have hnone : e.Laid m ([] ++ []) c s := hl
  exact ifReturns_node_laid hnone hstart hspan hsolid hstop

theorem Stamps.bind {p : Parse NodeId} {f : NodeId → Parse NodeId} (hp : Stamps e span p)
    (hf : ∀ id m, Lays e m [id] (f id) fun id => [id]) : Stamps e span (p >>= f) := by
  intro m c s hl hroom hsolid
  rw [StateT.run_bind]
  refine triple_bind.mpr ((hp m c s hl hroom hsolid).imp ?_)
  rintro ⟨id, c'⟩ s' ⟨hk, hl'⟩
  exact (hf id m c' s' hl').imp fun r s'' ⟨hk', hl''⟩ => ⟨hk.trans hk', hl''⟩

theorem Stamps.still {f : α → Parse NodeId} (hp : Still p) (hf : ∀ a, Stamps e span (f a)) :
    Stamps e span (p >>= f) := by
  intro m c s hl hroom hsolid
  rw [StateT.run_bind]
  refine triple_bind.mpr ((hp c s).imp ?_)
  rintro ⟨a, c'⟩ s' ⟨⟨hk, hsize⟩, hc⟩
  have hroom' := hroom.widen (le_refl _) (hl.cursor.past hc).2
  exact (hf a m c' s' (hl.still hk hsize hc) hroom' hsolid).imp fun r s'' ⟨hk', hl''⟩ =>
    ⟨hk.trans hk', hl''⟩

/-- Behind a token there is room for its span. -/
theorem LaysAt.leaf {f : Token → Parse NodeId} (hk : token.kind ≠ .eof)
    (hf : ∀ t, Stamps e token.span (f t)) :
    LaysAt e m token (Parse.advance >>= f) fun id => [id] := by
  rintro c s hl rfl
  obtain ⟨hstart, hspan, hstop⟩ := hl.cursor.current
  have hl' : e.Laid m [] c.next s := hl.still (.refl _) rfl c.past_next
  exact ifReturns_advance.mpr (hf c.current m c.next s hl'
    ⟨le_trans hl.row hstart, hspan, hstop⟩ (hl.cursor.solid_current hk))

end Parse
end BlockLang
