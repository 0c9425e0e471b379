import BlockLang.Proofs.Tree.Subtree

/-!
# The shape of written trees

Which children a node can have as it is written: how many, and which of them stand
where a value is wanted. Only expressions and blocks stand there, and imports only stand
outside of them.
-/

namespace BlockLang

/-- Whether a node can stand where a value is wanted. -/
def NodeKind.isOperand : NodeKind → Bool
  | .block => true
  | kind => kind.isExpression

def NodeKind.isImport : NodeKind → Bool
  | .importDecl .. => true
  | _ => false

/-- Whether a written node can have `count` children. -/
def NodeKind.Arity : NodeKind → Nat → Prop
  | .block, count | .returnStmt, count => count ≤ 1
  | .exprStmt, count | .unary _, count | .field _, count | .funcDecl _, count => count = 1
  | .pair, count | .binary _, count | .assign, count | .refBind, count | .index, count
  | .whileLoop, count => count = 2
  | .ifElse, count => count = 2 ∨ count = 3
  | .typeDecl _, count | .importDecl .., count | .literal, count | .symbol _, count => count = 0
  | .tuple names, count => count = names.length
  | .call _, _ | .list, _ => True
  -- without an initial value there is a type, and nothing to refer to
  | .varDecl _ declared isRef, count => count = 1 ∨ count = 0 ∧ declared.isSome ∧ isRef = false
  | .moduleRoot _, _ | .basicBlock, _ | .temp _, _ | .builtinCall _, _ | .cast _, _
  | .nullValue, _ => False

namespace Tree

/-- The children that stand where a value is wanted. -/
def operands : Tree → List Tree
  | node _ .block _ | node _ .pair _ | node _ (.funcDecl _) _ => []
  | node _ .ifElse children | node _ .whileLoop children => children.take 1
  | node _ _ children => children

/-- There is no import in the tree. -/
def ImportFree (t : Tree) : Prop := t.Every fun u => u.kind.isImport = false

/-- The tree can stand where a value is wanted. -/
structure IsValue (t : Tree) : Prop where
  kind : t.kind.isOperand = true
  importFree : t.ImportFree

theorem IsValue.single {t : Tree} (h : t.IsValue) : t.kind ≠ .pair := by
  intro hk
  have hoperand := h.kind
  rw [hk] at hoperand
  cases hoperand

/-- The node has children as it can be written with. -/
structure Shaped (t : Tree) : Prop where
  arity : t.kind.Arity t.children.length
  operands : ∀ c ∈ t.operands, c.IsValue

/-- The node has children as it is read with: pairs chain the statements of a block, and the
body of a function is a block. Only what opens no scope has imports below it. -/
structure Formed (t : Tree) : Prop extends Shaped t where
  chain : t.kind = .pair → ∀ first rest, t.children = first :: rest → first.kind ≠ .pair
  chained : ∀ c ∈ t.children, c.kind = .pair → t.kind = .block ∨ t.kind = .pair
  body : ∀ d, t.kind = .funcDecl d → ∀ c ∈ t.children, c.kind = .block
  outside : t.kind ≠ .ifElse → t.kind ≠ .whileLoop → ∀ c ∈ t.children, c.ImportFree

/-- Every node has children as it can be written with. -/
abbrev Source (t : Tree) : Prop := t.Every Shaped

variable {cs : List Tree}

theorem importFree_node :
    (node i k cs).ImportFree ↔ (∀ c ∈ cs, c.ImportFree) ∧ k.isImport = false := every_node

theorem ImportFree.child (h : (node i k cs).ImportFree) (hc : c ∈ cs) : c.ImportFree :=
  Every.child h hc

-- ---------------------------------------------------------------------------
-- The children of each kind
-- ---------------------------------------------------------------------------

theorem Shaped.block (h : (node i .block cs).Shaped) : cs = [] ∨ ∃ c, cs = [c] := by
  have hl : cs.length ≤ 1 := h.arity
  match cs, hl with
  | [], _ => exact .inl rfl
  | [c], _ => exact .inr ⟨c, rfl⟩

theorem Shaped.pair (h : (node i .pair cs).Shaped) : ∃ a b, cs = [a, b] :=
  List.length_eq_two.mp h.arity

theorem Shaped.funcDecl (h : (node i (.funcDecl d) cs).Shaped) : ∃ b, cs = [b] :=
  List.length_eq_one_iff.mp h.arity

theorem Shaped.exprStmt (h : (node i .exprStmt cs).Shaped) :
    ∃ e, cs = [e] ∧ e.kind.isOperand := by
  obtain ⟨e, rfl⟩ := List.length_eq_one_iff.mp h.arity
  exact ⟨e, rfl, (h.operands e (by simp [Tree.operands])).kind⟩

theorem Shaped.ifElse (h : (node i .ifElse cs).Shaped) :
    ∃ c arms, cs = c :: arms ∧ c.kind.isOperand ∧ (arms.length = 1 ∨ arms.length = 2) := by
  have hl : cs.length = 2 ∨ cs.length = 3 := h.arity
  cases cs with
  | nil => simp at hl
  | cons c arms =>
    exact ⟨c, arms, rfl, (h.operands c (by simp [Tree.operands])).kind, by simpa using hl⟩

theorem Shaped.whileLoop (h : (node i .whileLoop cs).Shaped) :
    ∃ c body, cs = [c, body] ∧ c.kind.isOperand := by
  obtain ⟨c, body, rfl⟩ := List.length_eq_two.mp h.arity
  exact ⟨c, body, rfl, (h.operands c (by simp [Tree.operands])).kind⟩

theorem Shaped.formed {t : Tree} (h : t.Shaped) (hc : ∀ c ∈ t.children, c.kind ≠ .pair)
    (hk : ∀ d, t.kind ≠ .funcDecl d)
    (hf : t.kind ≠ .ifElse → t.kind ≠ .whileLoop → ∀ c ∈ t.children, c.ImportFree) :
    t.Formed where
  toShaped := h
  chain _ first _ hchildren := hc first (hchildren ▸ List.mem_cons_self)
  chained c hmem hpair := absurd hpair (hc c hmem)
  body d hd := absurd hd (hk d)
  outside := hf

theorem Source.child (h : (node i k cs).Source) (hc : c ∈ cs) : c.Source :=
  Every.child h hc

theorem Source.shaped {t : Tree} (h : t.Source) : t.Shaped := Every.self h

end Tree
end BlockLang
