import BlockLang.Proofs.Homes.Retained
import BlockLang.Proofs.Source.Bytes
import BlockLang.Proofs.Token.Tiling
import Mathlib.Order.Defs.PartialOrder

/-!
# Spans in a row

Spans stand in a row if each begins where the one before it ends, or later. So do the tokens of
a text. The span of a node nests if the spans of its children stand in a row within it.
-/

namespace BlockLang

/-- A position comes before those behind it in the same source. -/
instance : Preorder Position where
  le p q := p.file = q.file ∧ p.offset ≤ q.offset
  le_refl _ := ⟨rfl, UInt32.le_refl _⟩
  le_trans _ _ _ h h' := ⟨h.1.trans h'.1, UInt32.le_trans h.2 h'.2⟩

theorem Position.lt_of_offset_lt {p q : Position} (h : p ≤ q) (hlt : p.offset < q.offset) :
    p < q := lt_of_le_not_ge h fun hge => UInt32.not_le.mpr hlt hge.2

-- ---------------------------------------------------------------------------
-- Rows
-- ---------------------------------------------------------------------------

namespace Span

/-- The spans stand one after another between two positions. -/
def InRow : Position → List Span → Position → Prop
  | lo, [], hi => lo ≤ hi
  | lo, span :: spans, hi => lo ≤ span.start ∧ span.start ≤ span.stop ∧ InRow span.stop spans hi

variable {lo lo' mid hi hi' : Position} {span : Span} {spans others : List Span}

@[simp] theorem inRow_nil : InRow lo [] hi ↔ lo ≤ hi := Iff.rfl

@[simp] theorem inRow_cons : InRow lo (span :: spans) hi ↔
    lo ≤ span.start ∧ span.start ≤ span.stop ∧ InRow span.stop spans hi := Iff.rfl

theorem InRow.le (h : InRow lo spans hi) : lo ≤ hi := by
  induction spans generalizing lo with
  | nil => exact h
  | cons span spans ih => exact h.1.trans (h.2.1.trans (ih h.2.2))

theorem InRow.widen (hlo : lo ≤ lo') (h : InRow lo' spans hi) (hhi : hi ≤ hi') :
    InRow lo spans hi' := by
  induction spans generalizing lo lo' with
  | nil => exact hlo.trans (le_trans h hhi)
  | cons span spans ih => exact ⟨hlo.trans h.1, h.2.1, ih (le_refl _) h.2.2⟩

theorem InRow.append (h : InRow lo spans mid) (h' : InRow mid others hi) :
    InRow lo (spans ++ others) hi := by
  induction spans generalizing lo with
  | nil => exact h'.widen h (le_refl _)
  | cons span spans ih => exact ⟨h.1, h.2.1, ih h.2.2⟩

/-- A row can be cut before each of its spans. -/
theorem InRow.cut (h : InRow lo (spans ++ span :: others) hi) :
    InRow lo spans span.start ∧ InRow span.start (span :: others) hi := by
  induction spans generalizing lo with
  | nil => exact ⟨h.1, le_refl _, h.2⟩
  | cons first spans ih =>
    obtain ⟨hspans, hothers⟩ := ih h.2.2
    exact ⟨⟨h.1, h.2.1, hspans⟩, hothers⟩

theorem InRow.ordered (h : InRow lo spans hi) : ∀ span ∈ spans, span.start ≤ span.stop := by
  induction spans generalizing lo with
  | nil => exact List.forall_mem_nil _
  | cons first spans ih => exact List.forall_mem_cons.mpr ⟨h.2.1, ih h.2.2⟩

theorem InRow.inside (h : InRow lo spans hi) :
    ∀ span ∈ spans, lo ≤ span.start ∧ span.stop ≤ hi := by
  induction spans generalizing lo with
  | nil => exact List.forall_mem_nil _
  | cons first spans ih =>
    refine List.forall_mem_cons.mpr ⟨⟨h.1, h.2.2.le⟩, fun span hspan => ?_⟩
    obtain ⟨hstart, hstop⟩ := ih h.2.2 span hspan
    exact ⟨h.1.trans (h.2.1.trans hstart), hstop⟩

theorem InRow.pairwise (h : InRow lo spans hi) :
    spans.Pairwise fun first second => first.stop ≤ second.start := by
  induction spans generalizing lo with
  | nil => exact .nil
  | cons first spans ih =>
    exact .cons (fun second hsecond => (h.2.2.inside second hsecond).1) (ih h.2.2)

end Span

open BlockLang.Span (InRow)

-- ---------------------------------------------------------------------------
-- Tokens
-- ---------------------------------------------------------------------------

namespace Token

variable {source file : String} {tokens : List Token}

theorem ofByte_le_ofByte {m n : Nat} (h : m ≤ n) (hn : n < UInt32.size) (file : String) :
    Position.ofByte m file ≤ .ofByte n file := by
  refine ⟨rfl, UInt32.le_iff_toNat_le.mpr ?_⟩
  rwa [toNat_ofByte (Nat.lt_of_le_of_lt h hn), toNat_ofByte hn]

theorem Tiles.inRow {offset : Nat} {text rest : List Char}
    (h : Tiles file offset text rest tokens) (hsize : offset + byteLength text < UInt32.size) :
    InRow (.ofByte offset file) (tokens.map (·.span))
      (.ofByte (offset + byteLength text) file) := by
  induction h with
  | done => exact le_refl _
  | @gap offset piece text rest tokens _ _ _ ih =>
    rw [byteLength_append, ← Nat.add_assoc] at hsize ⊢
    have hpiece := ofByte_le_ofByte (Nat.le_add_right offset (byteLength piece))
      (Nat.lt_of_le_of_lt (Nat.le_add_right _ _) hsize) file
    exact (ih hsize).widen hpiece (le_refl _)
  | @token offset piece text rest token tokens _ hspan _ _ _ ih =>
    rw [byteLength_append, ← Nat.add_assoc] at hsize ⊢
    rw [List.map_cons, hspan.eq_ofBytes]
    have hpiece := ofByte_le_ofByte (Nat.le_add_right offset (byteLength piece))
      (Nat.lt_of_le_of_lt (Nat.le_add_right _ _) hsize) file
    exact ⟨le_refl _, hpiece, ih hsize⟩

/-- The tokens of a text stand in a row up to its end. The last one is there and has no text,
unlike the others. -/
theorem inRow_tokenize (hsize : source.utf8ByteSize < UInt32.size)
    (h : tokenize source file = .ok tokens) :
    InRow (.ofByte 0 file) (tokens.map (·.span)) (.ofByte source.utf8ByteSize file) ∧
      (∀ token ∈ tokens, token.kind ≠ .eof → token.span.start < token.span.stop) ∧
      ∃ read, tokens = read ++ [atEnd file source.utf8ByteSize] := by
  have hlaid := laidOut_tokenize hsize file
  rw [h, LaidOut, Nat.zero_add, ← utf8ByteSize_eq] at hlaid
  obtain ⟨read, rfl, htiles⟩ := hlaid
  have hrow := htiles.inRow (by rwa [Nat.zero_add, ← utf8ByteSize_eq])
  rw [Nat.zero_add, ← utf8ByteSize_eq] at hrow
  refine ⟨?_, ?_, read, rfl⟩
  · rw [List.map_append]
    exact hrow.append ⟨le_refl _, le_refl _, le_refl _⟩
  · rintro token htoken hkind
    obtain htoken | htoken := List.mem_append.mp htoken
    · exact Position.lt_of_offset_lt (hrow.ordered _ (List.mem_map_of_mem htoken))
        (htiles.start_lt_stop token htoken)
    · rw [List.mem_singleton.mp htoken] at hkind
      exact absurd rfl hkind

end Token

-- ---------------------------------------------------------------------------
-- Nodes
-- ---------------------------------------------------------------------------

namespace Arena

/-- All nodes stay as they are. -/
structure KeepsNodes (a b : Arena) : Prop where
  size : a.size ≤ b.size
  node : ∀ id, id.index < a.size → a.KeepsNode b id

/-- The span of the node is not empty. Its children come before it, from the node numbered
`first` on, and their spans stand in a row within its own. -/
structure Nests (first : Nat) (a : Arena) (id : NodeId) : Prop where
  solid : (a.span id).start < (a.span id).stop
  below : ∀ child ∈ a.children id, first ≤ child.index ∧ child.index < id.index
  row : InRow (a.span id).start ((a.children id).map a.span) (a.span id).stop

/-- The span of the node is one, and has those of the children in it, one after another. -/
structure SpansNest (a : Arena) (id : NodeId) : Prop where
  ordered : (a.span id).start ≤ (a.span id).stop
  inside : ∀ child ∈ a.children id,
    (a.span id).start ≤ (a.span child).start ∧ (a.span child).stop ≤ (a.span id).stop
  apart : (a.children id).Pairwise fun one other => (a.span one).stop ≤ (a.span other).start

variable {a b c : Arena} {id : NodeId} {ids : List NodeId} {first : Nat}

theorem KeepsNodes.refl (a : Arena) : a.KeepsNodes a := ⟨Nat.le_refl _, fun id _ => .refl a id⟩

theorem KeepsNodes.trans (h : a.KeepsNodes b) (h' : b.KeepsNodes c) : a.KeepsNodes c :=
  ⟨h.size.trans h'.size, fun id hid =>
    (h.node id hid).trans (h'.node id (Nat.lt_of_lt_of_le hid h.size))⟩

theorem KeepsNodes.spans (h : a.KeepsNodes b) (hids : ∀ id ∈ ids, id.index < a.size) :
    ids.map b.span = ids.map a.span :=
  List.map_congr_left fun id hid => (h.node id (hids id hid)).span

theorem Nests.congr (h : a.Nests first id) (hchildren : b.children id = a.children id)
    (hspan : b.span id = a.span id)
    (hspans : ∀ child ∈ a.children id, b.span child = a.span child) : b.Nests first id := by
  constructor
  · rw [hspan]
    exact h.solid
  · rw [hchildren]
    exact h.below
  · rw [hspan, hchildren, List.map_congr_left hspans]
    exact h.row

theorem Nests.keep (h : a.Nests first id) (hk : a.KeepsNodes b) (hid : id.index < a.size) :
    b.Nests first id :=
  h.congr (hk.node id hid).children (hk.node id hid).span fun child hchild =>
    (hk.node child ((h.below child hchild).2.trans hid)).span

theorem spansNest_of_inRow
    (h : InRow (a.span id).start ((a.children id).map a.span) (a.span id).stop) :
    a.SpansNest id where
  ordered := h.le
  inside := fun child hchild => h.inside (a.span child) (List.mem_map_of_mem hchild)
  apart := List.pairwise_map.mp h.pairwise

end Arena

namespace Session

variable {s s' : Session} {id : NodeId} {kind : NodeKind} {span : Span} {scope : ScopeId}
  {children : List NodeId}

theorem AddsNode.keepsNodes (h : s.AddsNode s' id kind span scope children) :
    s.tree.KeepsNodes s'.tree :=
  ⟨h.size ▸ Nat.le_succ _, h.others⟩

/-- A new node nests if its span goes around its children. -/
theorem AddsNode.nests {first : Nat} (h : s.AddsNode s' id kind span scope children)
    (hbelow : ∀ child ∈ children, first ≤ child.index ∧ child.index < s.tree.size)
    (hrow : InRow span.start (children.map s.tree.span) span.stop)
    (hsolid : span.start < span.stop) : s'.tree.Nests first id := by
  constructor
  · rw [h.span]
    exact hsolid
  · rw [h.children, h.fresh]
    exact hbelow
  · rw [h.span, h.children, h.keepsNodes.spans fun child hchild => (hbelow child hchild).2]
    exact hrow

end Session
end BlockLang
