import BlockLang.Proofs.Lowered.Relation

/-!
# Lowered form

The grammar of lowered statements, and that lowering leads to it. A tree of this form
passes the check of the lowered form.
-/

namespace BlockLang

open BlockLang.Tree (idsOf subtreesOf)

/-- A step of a basic block: no statement but one, with temporaries only below it. -/
structure Step (t : Tree) : Prop where
  kind : t.kind.isStep = true
  operands : ∀ c ∈ t.children, ∃ j temp, c = .node j (.temp temp) []

/-- The lowered statements. -/
inductive Lowered : Tree → Prop
  | basicBlock (steps : ∀ step ∈ cs, Step step) : Lowered (.node i .basicBlock cs)
  | pair (first : Lowered a) (second : Lowered b) : Lowered (.node i .pair [a, b])
  | ifThen (condition : Lowered c) (arm : Lowered a) : Lowered (.node i .ifElse [c, a])
  | ifElse (condition : Lowered c) (arm : Lowered a) (other : Lowered b) :
    Lowered (.node i .ifElse [c, a, b])
  | whileLoop (condition : Lowered c) (body : Lowered b) : Lowered (.node i .whileLoop [c, b])
  | funcDecl (body : Lowered b) : Lowered (.node i (.funcDecl d) [b])
  | typeDecl : Lowered (.node i (.typeDecl name) [])
  | importDecl : Lowered (.node i (.importDecl name isPublic) [])

/-- What steps are before they are packed. -/
def Loose (t : Tree) : Prop := Step t ∨ Lowered t ∧ t.kind.splitsBlock = true

theorem Packs.lowered (h : Packs first steps t) (hs : ∀ step ∈ steps, Loose step) : Lowered t := by
  induction h with
  | run _ plain =>
    refine .basicBlock fun step hm => ?_
    rcases hs step hm with h | ⟨-, h⟩
    · exact h
    · rw [plain step hm] at h
      exact absurd h (by simp)
  | single splits =>
    rcases hs _ (List.mem_singleton_self _) with h | ⟨h, -⟩
    · rw [NodeKind.splitsBlock_of_isStep h.kind] at splits
      exact absurd splits (by simp)
    · exact h
  | pair _ _ _ iha ihb =>
    exact .pair (iha fun s hm => hs s (by simp [hm])) (ihb fun s hm => hs s (by simp [hm]))

/-- What lowering is to establish, case by case. -/
def Lowers.Forms : Judgement → Prop
  | .statement t t' => t.Source → Lowered t'
  | .statements ts ts' =>
    (∀ t ∈ ts, t.Source) → ts'.length = ts.length ∧ ∀ t ∈ ts', Lowered t
  | .effects ts steps => (∀ t ∈ ts, t.Source) → ∀ step ∈ steps, Loose step
  | .value t steps _ => t.Source → ∀ step ∈ steps, Loose step
  | .values ts steps temps => (∀ t ∈ ts, t.Source) →
    (∀ step ∈ steps, Loose step) ∧ ∀ c ∈ temps, ∃ j temp, c = .node j (.temp temp) []

theorem loose_null (j : NodeId) : Loose (.node j .nullValue []) := .inl ⟨rfl, by simp⟩

theorem Lowered.branch {as : List Tree} (kind : k.isControlFlow = true)
    (h : k.Arity (as.length + 1)) (hc : Lowered c) (ha : ∀ a ∈ as, Lowered a) :
    Lowered (.node i k (c :: as)) := by
  cases k with
  | ifElse =>
    have hlen : as.length = 1 ∨ as.length = 2 := by
      have : as.length + 1 = 2 ∨ as.length + 1 = 3 := h
      omega
    rcases hlen with hlen | hlen
    · obtain ⟨a, rfl⟩ := List.length_eq_one_iff.mp hlen
      exact .ifThen hc (ha a (by simp))
    · obtain ⟨a, b, rfl⟩ := List.length_eq_two.mp hlen
      exact .ifElse hc (ha a (by simp)) (ha b (by simp))
  | whileLoop =>
    have hlen : as.length + 1 = 2 := h
    obtain ⟨b, rfl⟩ := List.length_eq_one_iff.mp (Nat.succ.inj hlen)
    exact .whileLoop hc (ha b (by simp))
  | _ => simp [NodeKind.isControlFlow] at kind

theorem Lowers.forms (h : Lowers first temps judgement) : Forms judgement := by
  induction h with
  | pair _ _ iha ihb =>
    intro hs
    exact .pair (iha (hs.child (by simp))) (ihb (hs.child (by simp)))
  | emptyBlock => exact fun _ => .basicBlock (by simp)
  | block _ ih => exact fun hs => ih (hs.child (by simp))
  | funcDecl _ ih => exact fun hs => .funcDecl (ih (hs.child (by simp)))
  | typeDecl => exact fun _ => .typeDecl
  | importDecl => exact fun _ => .importDecl
  | packed _ packs ih => exact fun hs => packs.lowered (ih (by simpa using hs))
  | noStatements => exact fun _ => ⟨rfl, by simp⟩
  | moreStatements _ _ ih ihs =>
    intro hs
    obtain ⟨hlen, hall⟩ := ihs fun t ht => hs t (by simp [ht])
    exact ⟨by simp [hlen], by simpa using ⟨ih (hs _ (by simp)), hall⟩⟩
  | noEffects => exact fun _ => by simp
  | moreEffects _ _ ih ihs =>
    intro hs
    exact List.forall_mem_append.mpr
      ⟨ih (by simpa using hs _ (by simp)), ihs fun t ht => hs t (by simp [ht])⟩
  | group _ _ ih =>
    intro hs
    simp only [List.mem_singleton, forall_eq] at hs
    exact ih fun c hc => hs.child hc
  | idle kind _ ih =>
    intro hs
    simp only [List.mem_singleton, forall_eq] at hs
    obtain ⟨hout, htemps⟩ := ih fun c hc => hs.child hc
    exact List.forall_mem_append.mpr ⟨hout, by simpa using .inl ⟨kind, htemps⟩⟩
  | declaration kind _ same ih =>
    intro hs
    simp only [List.mem_singleton, forall_eq] at hs ⊢
    exact .inr ⟨ih hs, by simp [same, NodeKind.splitsBlock, kind]⟩
  | drop _ ih => exact fun hs => ih (by simpa using hs)
  | last _ _ _ ihe ihv =>
    intro hs
    exact List.forall_mem_append.mpr
      ⟨ihe fun c hc => hs.child (by simp [hc]), ihv (hs.child (by simp))⟩
  | nothing => exact fun _ => by simpa using loose_null _
  | branch kind _ packs _ ihc iha =>
    intro hs
    obtain ⟨hlen, harms⟩ := iha fun a ha => hs.child (by simp [ha])
    have hc := packs.lowered (ihc (hs.child (by simp)))
    have harity := hs.shaped.arity
    simp only [Tree.kind_node, Tree.children_node, List.length_cons, ← hlen] at harity
    simp only [List.mem_singleton, forall_eq]
    exact .inr ⟨.branch kind harity hc harms, by simp [NodeKind.splitsBlock, kind]⟩
  | expression kind _ _ ih =>
    intro hs
    obtain ⟨hout, htemps⟩ := ih fun c hc => hs.child hc
    exact List.forall_mem_append.mpr ⟨hout, by simpa using .inl ⟨kind, htemps⟩⟩
  | null _ _ _ ih =>
    intro hs
    exact List.forall_mem_append.mpr ⟨ih (by simpa using hs), by simpa using loose_null _⟩
  | noValues => exact fun _ => by simp
  | moreValues _ _ _ _ ih ihs =>
    intro hs
    obtain ⟨hout, htemps⟩ := ihs fun t ht => hs t (by simp [ht])
    exact ⟨List.forall_mem_append.mpr ⟨ih (hs _ (by simp)), hout⟩, by simpa using htemps⟩

-- ---------------------------------------------------------------------------
-- The check of the lowered form
-- ---------------------------------------------------------------------------

/-- The root of a module whose items are lowered. -/
structure LoweredModule (t : Tree) : Prop where
  kind : ∃ name, t.kind = .moduleRoot name
  items : ∀ c ∈ t.children, Lowered c

/-- What every node of lowered form is like. -/
structure LoweredNode (u : Tree) : Prop where
  notBlock : u.kind ≠ .block
  notExprStmt : u.kind ≠ .exprStmt
  steps : u.kind = .basicBlock → ∀ step ∈ u.children, Step step

theorem LoweredNode.of_isStep {u : Tree} (h : u.kind.isStep = true) : LoweredNode u := by
  refine ⟨?_, ?_, ?_⟩ <;> intro hk <;> simp [hk, NodeKind.isStep, NodeKind.isExpression] at h

theorem Step.every (h : Step t) : t.Every LoweredNode := by
  cases t with
  | node i k cs =>
    refine Tree.every_node.mpr ⟨fun c hc u hu => ?_, .of_isStep h.kind⟩
    obtain ⟨j, temp, rfl⟩ := h.operands c hc
    obtain rfl : u = .node j (.temp temp) [] := by simpa using hu
    exact ⟨nofun, nofun, nofun⟩

theorem Lowered.every (h : Lowered t) : t.Every LoweredNode := by
  induction h with
  | basicBlock steps =>
    exact Tree.every_node.mpr ⟨fun c hc => (steps c hc).every, nofun, nofun, fun _ => steps⟩
  | _ => exact Tree.every_node.mpr ⟨by simp_all, nofun, nofun, nofun⟩

theorem LoweredModule.every (h : LoweredModule t) : t.Every LoweredNode := by
  obtain ⟨⟨name, hk⟩, hitems⟩ := h
  cases t with
  | node i k cs =>
    obtain rfl : k = .moduleRoot name := hk
    exact Tree.every_node.mpr ⟨fun c hc => (hitems c hc).every, nofun, nofun, nofun⟩

namespace Arena

variable {a : Arena}

theorem isStep_of_step (h : a.Holds q t) (hs : Step t) : a.isStep t.handle = true := by
  have hplain := NodeKind.splitsBlock_of_isStep hs.kind
  have htemps : ∀ c ∈ t.children.map Tree.handle, (a.kind c).isTemp = true := by
    intro c hc
    obtain ⟨d, hd, rfl⟩ := List.mem_map.mp hc
    obtain ⟨j, temp, rfl⟩ := hs.operands d hd
    rw [(holdsAll_iff.mp h.below _ hd).kind]
    rfl
  simpa [isStep, h.kind, h.children, hplain] using htemps

-- ---------------------------------------------------------------------------
-- The check of the form
-- ---------------------------------------------------------------------------

/-- From the nodes on the stack, the check of the form ends after so many steps, at a node that
breaks it or because no node is left. -/
inductive ChecksForm (a : Arena) : List NodeId → Nat → Option NodeId → Prop
  | done : ChecksForm a [] 0 none
  | left {node : NodeId} {stack : List NodeId}
    (kind : a.kind node = .block ∨ a.kind node = .exprStmt) :
    ChecksForm a (node :: stack) 1 (some node)
  | bad {node step : NodeId} {stack : List NodeId} (kind : a.kind node = .basicBlock)
    (found : (a.children node).find? (!a.isStep ·) = some step) :
    ChecksForm a (node :: stack) 1 (some step)
  | basicBlock {node : NodeId} {stack : List NodeId} {n : Nat} {r : Option NodeId}
    (kind : a.kind node = .basicBlock) (clean : (a.children node).find? (!a.isStep ·) = none)
    (rest : ChecksForm a stack n r) : ChecksForm a (node :: stack) (n + 1) r
  | next {node : NodeId} {stack : List NodeId} {n : Nat} {r : Option NodeId}
    (kind : a.kind node ≠ .block ∧ a.kind node ≠ .exprStmt ∧ a.kind node ≠ .basicBlock)
    (rest : ChecksForm a ((a.children node).reverse ++ stack) n r) :
    ChecksForm a (node :: stack) (n + 1) r

theorem ChecksForm.notLoweredWithin_eq {stack : List NodeId} {n : Nat} {r : Option NodeId}
    (h : a.ChecksForm stack n r) {fuel : Nat} (hn : n ≤ fuel) :
    a.notLoweredWithin fuel stack = r := by
  induction h generalizing fuel with
  | done => cases fuel <;> rfl
  | left kind =>
    cases fuel with
    | zero => omega
    | succ fuel => rcases kind with kind | kind <;> simp only [notLoweredWithin, kind]
  | bad kind found =>
    cases fuel with
    | zero => omega
    | succ fuel => simp only [notLoweredWithin, kind, found]
  | basicBlock kind clean _ ih =>
    cases fuel with
    | zero => omega
    | succ fuel =>
      simp only [notLoweredWithin, kind, clean]
      exact ih (by omega)
  | next kind _ ih =>
    cases fuel with
    | zero => omega
    | succ fuel =>
      obtain ⟨hblock, hexprStmt, hbasicBlock⟩ := kind
      rw [notLoweredWithin]
      split
      · contradiction
      · contradiction
      · contradiction
      · exact ih (by omega)

/-- Below trees of lowered form the check ends and finds nothing. -/
theorem exists_checksForm (ts : List Tree) (m : Nat) (hm : (idsOf ts).length ≤ m)
    (h : ∀ t ∈ ts, (∃ q, a.Holds q t) ∧ t.Every LoweredNode) :
    ∃ n, n ≤ m ∧ a.ChecksForm (ts.map Tree.handle) n none := by
  induction m generalizing ts with
  | zero =>
    cases ts with
    | nil => exact ⟨0, Nat.le_refl _, .done⟩
    | cons t ts => exact absurd (Tree.length_idsOf_cons t ts ▸ hm) (Nat.not_succ_le_zero _)
  | succ m ih =>
    cases ts with
    | nil => exact ⟨0, Nat.zero_le _, .done⟩
    | cons t ts =>
      obtain ⟨⟨⟨q, hq⟩, hform⟩, hts⟩ := List.forall_mem_cons.mp h
      have hroot := hform.self
      rw [Tree.length_idsOf_cons, Nat.succ_le_succ_iff] at hm
      by_cases hblock : t.kind = .basicBlock
      · have hclean : (a.children t.handle).find? (!a.isStep ·) = none := by
          rw [hq.children, List.find?_eq_none]
          intro c hc
          obtain ⟨d, hd, rfl⟩ := List.mem_map.mp hc
          simp [isStep_of_step (holdsAll_iff.mp hq.below d hd) (hroot.steps hblock d hd)]
        have hfewer : (idsOf ts).length ≤ m := by
          rw [Tree.idsOf_append, List.length_append] at hm
          omega
        obtain ⟨n, hn, hchecks⟩ := ih ts hfewer hts
        exact ⟨n + 1, Nat.succ_le_succ hn, .basicBlock (hq.kind.trans hblock) hclean hchecks⟩
      · have hrest : ∀ u ∈ t.children.reverse ++ ts, (∃ q, a.Holds q u) ∧ u.Every LoweredNode := by
          intro u hu
          rcases List.mem_append.mp hu with hu | hu
          · have hc := List.mem_reverse.mp hu
            exact ⟨⟨_, holdsAll_iff.mp hq.below u hc⟩, hform.child hc⟩
          · exact hts u hu
        obtain ⟨n, hn, hchecks⟩ := ih _ hm hrest
        rw [List.map_append, List.map_reverse, ← hq.children] at hchecks
        refine ⟨n + 1, Nat.succ_le_succ hn, .next ?_ hchecks⟩
        rw [hq.kind]
        exact ⟨hroot.notBlock, hroot.notExprStmt, hblock⟩

/-- The check of the form of a lowered module comes to its end and finds nothing. -/
theorem Holds.checksForm (h : a.Holds q t) (hn : t.ids.Nodup) (hm : LoweredModule t) :
    (∃ n, a.ChecksForm [t.handle] n none) ∧ a.notLowered? t.handle = none := by
  obtain ⟨n, hle, hchecks⟩ := exists_checksForm (a := a) [t] a.size
    (by simpa using length_le_size hn h.lt_size) (by simpa using ⟨⟨q, h⟩, hm.every⟩)
  exact ⟨⟨n, hchecks⟩, hchecks.notLoweredWithin_eq (Nat.le_succ_of_le hle)⟩

end Arena
end BlockLang
