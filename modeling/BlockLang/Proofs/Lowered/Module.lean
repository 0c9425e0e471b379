import BlockLang.Proofs.Grammar.Statement
import BlockLang.Proofs.Lowered.Build
import BlockLang.Proofs.Lowered.Normalize
import BlockLang.Proofs.Lowered.Order

/-!
# Lowering a module that was read

Whatever the parser reads without error can be lowered, in normal form or not. The
result has lowered form and passes both checks, and every node is where it was.
-/

namespace BlockLang

/-- Brings a module into normal form, or leaves it as it was read. -/
def arrange (normalizes : Bool) (root : NodeId) : Pass Unit :=
  if normalizes then normalize root else pure ()

/-- The tokens of a function that calls another one with the value of a block. -/
def callTokens : List Token :=
  [(.fnWord, "fn"), (.identifier, "f"), (.openParen, "("), (.closeParen, ")"),
    (.openCurly, "\x7b"), (.identifier, "g"), (.openParen, "("), (.openCurly, "\x7b"),
    (.identifier, "x"), (.closeCurly, "\x7d"), (.closeParen, ")"), (.semicolon, ";"),
    (.closeCurly, "\x7d"), (.eof, "")].map fun (kind, value) => ⟨kind, value, .null⟩

/-- A session without any names. -/
def bareSession : Session :=
  let (universal, scopes) := ScopeTable.empty.addScope .universal none
  ⟨.empty, .initial, scopes, #[], .empty, #[], [], #[], universal, "main"⟩

theorem read_callTokens : ∃ s₁,
    (parseModule callTokens "m" (bareSession.addModule "m" "m" "").1).start
      (bareSession.addModule "m" "m" "").2 = (.ok (), s₁) := by
  have h : ((parseModule callTokens "m" (bareSession.addModule "m" "m" "").1).start
      (bareSession.addModule "m" "m" "").2).1.toBool = true := by decide +kernel
  generalize (parseModule callTokens "m" (bareSession.addModule "m" "m" "").1).start
    (bareSession.addModule "m" "m" "").2 = r at h ⊢
  obtain ⟨_ | _, s₁⟩ := r
  · simp [Except.toBool] at h
  · exact ⟨s₁, rfl⟩

section
variable {s s' : Session} {us ts : List Tree}

/-- The parser can read into any session, whatever the names are. -/
theorem keeps_depth : Adds.Keeps (fun _ => True) fun depth c _ => c.inner.length = depth where
  depth := fun _ _ _ h => h
  name := fun _ _ _ _ _ => trivial
  cursor := fun _ _ _ _ h hc => hc.inner ▸ h
  leave := fun _ _ _ h => by simp [h]
  enter := fun _ _ _ _ h => by simp [h]
  tree := fun _ _ _ _ h _ => h
  decl := fun _ _ _ _ _ _ _ h _ _ => h
  declare := fun _ _ _ _ _ _ _ _ _ h _ _ _ => h
  typeDef := fun _ _ _ _ _ _ _ _ _ _ h _ => h
  listType := fun _ _ _ _ h => h
  literal := fun _ _ _ _ _ _ h _ _ => h

theorem Written.unmarked {t : Tree} (h : t.Every (Written s)) : Normalize.Unmarked s t := by
  intro u hu
  by_cases hk : u.kind = .literal
  · obtain ⟨type, value, hf⟩ := (h u hu).literal hk
    rw [hf]
  · rw [(h u hu).fresh hk]
    rfl

theorem Written.source {t : Tree} (h : t.Every (Written s)) : t.Source :=
  fun u hu => (h u hu).formed.toShaped

theorem Session.module_root_addModule (name path source : String) :
    ((s.addModule name path source).2.module (s.addModule name path source).1).root =
      ⟨s.tree.size⟩ := by
  simp [Session.addModule, Session.module, Arena.add, Arena.size]

/-- A module that was read is a tree of its own. -/
theorem triple_read {W : String → Prop} {I : Nat → Cursor → Session → Prop}
    (hI : Adds.Keeps W I) (tokens : List Token) (name path source file : String)
    (hf : s.tree.Forest us)
    (hi : I 0 (.start tokens file ((s.addModule name path source).2.module ⟨s.modules.size⟩).layers)
      (s.addModule name path source).2) :
    let m := (s.addModule name path source).1
    let s₀ := (s.addModule name path source).2
    let Q := fun s' => ∃ d c ts,
      s'.tree.Forest (.node (s'.module m).root (.moduleRoot name) ts :: us) ∧ I d c s' ∧
        (∀ t ∈ ts, t.Every (Written s')) ∧ Adds s₀ s'
    Triple (parseModule tokens file m) s₀ (fun _ => Q) fun _ => Q := by
  intro m s₀ Q
  have hroot : (s₀.module m).root = ⟨s.tree.size⟩ := s.module_root_addModule name path source
  have hf₀ : s₀.tree.Forest (.node (s₀.module m).root (.moduleRoot name) [] :: us) := by
    rw [hroot]
    exact hf.add _ _ _
  refine (triple_parseModule hI tokens file hf₀ hi).mono ?_ ?_
  all_goals
    rintro - s' ⟨d, c, ts, hf', hi', hw, ha⟩
    have hsame : s'.module m = s₀.module m := by
      rw [ha.rest]
      rfl
    rw [← hsame] at hf'
    exact ⟨d, c, ts, hf', hi', hw, ha⟩

/-- Arranging a module touches only the nodes below its root, and adds none. -/
theorem returns_arrange (normalizes : Bool) {root : NodeId}
    (hf : s.tree.Forest (.node root (.moduleRoot name) ts :: us))
    (hw : ∀ t ∈ ts, t.Every (Written s)) :
    Returns (arrange normalizes root) s fun _ s' => ∃ ts',
      s'.tree.Forest (.node root (.moduleRoot name) ts' :: us) ∧ (∀ t ∈ ts', t.Source) ∧
        Marks s s' ∧ (∀ id, id ∉ Tree.idsOf ts → s'.tree.label id = s.tree.label id) ∧
        ∀ id ∈ Tree.idsOf ts', id ∈ Tree.idsOf ts := by
  cases normalizes with
  | false =>
    exact ⟨ts, hf, fun t ht => Written.source (hw t ht), .refl s, fun _ _ => rfl, fun _ h => h⟩
  | true =>
    refine (returns_normalize hf (fun t ht => Written.unmarked (hw t ht))
      fun t ht => Written.source (hw t ht)).imp ?_
    rintro - s' ⟨hf', hn⟩
    refine ⟨_, hf', fun t ht => ?_, hn.marks, hn.others, fun id hid => ?_⟩
    · obtain ⟨u, hu, rfl⟩ := List.mem_map.mp ht
      exact (Tree.source_normalized u (Written.source (hw u hu))).1
    · obtain ⟨t, ht, hid⟩ := Tree.mem_idsOf.mp hid
      obtain ⟨u, hu, rfl⟩ := List.mem_map.mp ht
      exact Tree.mem_idsOf.mpr ⟨u, hu, u.ids_normalized_subset hid⟩

/-- What a module that was read is lowered to. -/
theorem returns_lower_read {s₁ : Session} {tokens : List Token} {name path source file : String}
    (h : (parseModule tokens file (s.addModule name path source).1).start
      (s.addModule name path source).2 = (.ok (), s₁)) (normalizes : Bool) :
    let root := (s₁.module (s.addModule name path source).1).root
    Returns (arrange normalizes root) s₁ fun _ s₂ => Returns (lower root) s₂ fun _ s' =>
      ∃ ts ts', s₂.tree.Forest [.node root (.moduleRoot name) ts] ∧
        s'.tree.Forest [.node root (.moduleRoot name) ts'] ∧ (∀ t ∈ ts, t.Source) ∧
        Lowers s₂.tree.size s'.temps (.statements ts ts') := by
  intro root
  have hread := triple_read keeps_depth tokens name path source file s.tree.forest_nil rfl
  simp only [Triple, h] at hread
  obtain ⟨-, -, ts₁, hf₁, -, hw, -⟩ := hread
  refine (returns_arrange normalizes hf₁ hw).imp ?_
  rintro - s₂ ⟨ts, hf₂, hs, -⟩
  refine (returns_lower hf₂ hs).imp ?_
  rintro - s' ⟨ts', hf', -, hl⟩
  exact ⟨ts, ts', hf₂, hf', hs, hl⟩

/-- A module that was read without error is lowered, in normal form or not. Then its
statements have lowered form, no block and no expression statement can be reached, and
both checks come to their end and find nothing. -/
theorem loweredModule_of_read {s₁ : Session} {tokens : List Token}
    {name path source file : String}
    (h : (parseModule tokens file (s.addModule name path source).1).start
      (s.addModule name path source).2 = (.ok (), s₁)) (normalizes : Bool) :
    let root := (s₁.module (s.addModule name path source).1).root
    Returns (arrange normalizes root) s₁ fun _ s₂ => Returns (lower root) s₂ fun _ s' =>
      (∃ t, t.handle = root ∧ s'.tree.Holds none t ∧ LoweredModule t) ∧
      (∀ id, s'.tree.Reaches root id → s'.tree.kind id ≠ .block ∧ s'.tree.kind id ≠ .exprStmt) ∧
      ((∃ n, s'.tree.ChecksForm [root] n none) ∧ s'.tree.notLowered? root = none) ∧
      (∃ n, s'.tree.Checks [root] n none) ∧ s'.tree.badLink? root = none := by
  intro root
  refine (returns_lower_read h normalizes).imp fun _ s₂ hl => hl.imp ?_
  rintro - s' ⟨ts, ts', -, hf, hs, hl⟩
  obtain ⟨hholds, hnodup⟩ := hf.head
  have hform : LoweredModule (.node root (.moduleRoot name) ts') := ⟨⟨name, rfl⟩, (hl.forms hs).2⟩
  refine ⟨⟨_, rfl, hholds, hform⟩, fun id hr => ?_, hholds.checksForm hnodup hform,
    hholds.checks hnodup⟩
  obtain ⟨u, hu, rfl⟩ := Tree.mem_ids.mp (hholds.reaches_iff.mp hr)
  obtain ⟨q, hq⟩ := hholds.subtree hu
  rw [hq.kind]
  exact ⟨(hform.every u hu).notBlock, (hform.every u hu).notExprStmt⟩

theorem loweredModule_callTokens : ∃ s₁,
    (parseModule callTokens "m" (bareSession.addModule "m" "m" "").1).start
      (bareSession.addModule "m" "m" "").2 = (.ok (), s₁) ∧
    let root := (s₁.module (bareSession.addModule "m" "m" "").1).root
    Returns (arrange true root) s₁ fun _ s₂ => Returns (lower root) s₂ fun _ s' =>
      (∃ t, t.handle = root ∧ s'.tree.Holds none t ∧ LoweredModule t) ∧
      (∀ id, s'.tree.Reaches root id → s'.tree.kind id ≠ .block ∧ s'.tree.kind id ≠ .exprStmt) ∧
      ((∃ n, s'.tree.ChecksForm [root] n none) ∧ s'.tree.notLowered? root = none) ∧
      (∃ n, s'.tree.Checks [root] n none) ∧ s'.tree.badLink? root = none := by
  obtain ⟨s₁, h⟩ := read_callTokens
  exact ⟨s₁, h, loweredModule_of_read h true⟩

/-- Lowering a module that was read keeps its nodes in order: those of the lowered tree
without what is added are those of the tree before it without what only groups others.
Every step of a basic block is a node of that tree with a temporary for each operand, set
by the node that the value of the operand comes from, or else a new value of the empty
tuple. -/
theorem kept_and_wired_of_read {s₁ : Session} {tokens : List Token}
    {name path source file : String}
    (h : (parseModule tokens file (s.addModule name path source).1).start
      (s.addModule name path source).2 = (.ok (), s₁)) (normalizes : Bool) :
    let root := (s₁.module (s.addModule name path source).1).root
    Returns (arrange normalizes root) s₁ fun _ s₂ => Returns (lower root) s₂ fun _ s' =>
      ∃ t t', t.handle = root ∧ s₂.tree.Holds none t ∧ t.ids.Nodup ∧
        t'.handle = root ∧ s'.tree.Holds none t' ∧ t'.ids.Nodup ∧
        t'.kept NodeKind.isAdded = t.kept NodeKind.isGroup ∧
        ∀ block ∈ t'.subtrees, block.kind = .basicBlock → ∀ step ∈ block.children,
          StepOf s₂.tree.size s'.temps t.subtrees t'.subtrees step := by
  intro root
  refine (returns_lower_read h normalizes).imp fun _ s₂ hl => hl.imp ?_
  rintro - s' ⟨ts, ts', hf₂, hf, hs, hl⟩
  have hform : LoweredModule (.node root (.moduleRoot name) ts') := ⟨⟨name, rfl⟩, (hl.forms hs).2⟩
  refine ⟨.node root (.moduleRoot name) ts, .node root (.moduleRoot name) ts', rfl, hf₂.head.1,
    hf₂.head.2, rfl, hf.head.1, hf.head.2, ?_, fun block hb hk step hm => ?_⟩
  · rw [Tree.kept_node rfl, Tree.kept_node rfl, hl.keeps hs]
  · have hstep := (hform.every block hb).steps hk step hm
    have hbelow : step ∈ (Tree.node root (.moduleRoot name) ts').subtrees :=
      Tree.subtrees_trans hb (Tree.child_mem_subtrees hm)
    have hwires : Wires s₂.tree.size s'.temps [.node root (.moduleRoot name) ts]
        [.node root (.moduleRoot name) ts'] := (Wires.over hl.wires rfl).below
    simpa using hwires step (by simpa using hbelow) hstep.kind

theorem kept_and_wired_callTokens : ∃ s₁,
    (parseModule callTokens "m" (bareSession.addModule "m" "m" "").1).start
      (bareSession.addModule "m" "m" "").2 = (.ok (), s₁) ∧
    let root := (s₁.module (bareSession.addModule "m" "m" "").1).root
    Returns (arrange true root) s₁ fun _ s₂ => Returns (lower root) s₂ fun _ s' =>
      ∃ t t', t.handle = root ∧ s₂.tree.Holds none t ∧ t.ids.Nodup ∧
        t'.handle = root ∧ s'.tree.Holds none t' ∧ t'.ids.Nodup ∧
        t'.kept NodeKind.isAdded = t.kept NodeKind.isGroup ∧
        ∀ block ∈ t'.subtrees, block.kind = .basicBlock → ∀ step ∈ block.children,
          StepOf s₂.tree.size s'.temps t.subtrees t'.subtrees step := by
  obtain ⟨s₁, h⟩ := read_callTokens
  exact ⟨s₁, h, kept_and_wired_of_read h true⟩

end
end BlockLang
