import BlockLang.Grammar.Expression

/-!
# Chains of operators

A chain is what stands between binary operators, and the operators. A term is one way to put
it together. There is at most one in which operators bind as strongly as they should and
group to the left (`Term.Grouped.unique`).
-/

namespace BlockLang.Grammar

/-- The prefix operator that a token stands for. -/
def prefixOp? : Token.Kind → Option UnaryOp
  | .dash => some .neg
  | .not => some .not
  | _ => none

/-- A token that is a prefix operator. -/
structure UnaryMark where
  token : Token
  op : UnaryOp
  reads : prefixOp? token.kind = some op

/-- A token that is a binary operator. -/
structure BinaryMark where
  token : Token
  op : BinaryOp
  reads : binaryOp? token.kind = some op

def BinaryMark.rank (mark : BinaryMark) : Nat := (operatorPower mark.op).rank

/-- Whether a token is a name, or a literal with a value that there is. -/
def isAtom (token : Token) : Bool :=
  match token.kind with
  | .identifier | .float | .trueWord | .falseWord | .string => true
  | .number => Number.ofDigits token.value.toList ≤ Nat.pow 2 63 - 1
  | _ => false

/-- A name or a literal behind prefix operators, the first of them outermost. -/
structure Factor where
  marks : List UnaryMark
  atom : Token
  isAtom : isAtom atom = true

def Factor.tokens (x : Factor) : List Token := x.marks.map (·.token) ++ [x.atom]

/-- The tokens of operators with what follows each of them. -/
def linkTokens (links : List (BinaryMark × Factor)) : List Token :=
  links.flatMap fun (mark, x) => mark.token :: x.tokens

structure Chain where
  first : Factor
  links : List (BinaryMark × Factor)

def Chain.tokens (chain : Chain) : List Token := chain.first.tokens ++ linkTokens chain.links

inductive Term where
  | factor (x : Factor)
  | binary (left : Term) (mark : BinaryMark) (right : Term)

namespace Term

def first : Term → Factor
  | factor x => x
  | binary left _ _ => left.first

def links : Term → List (BinaryMark × Factor)
  | factor _ => []
  | binary left mark right => left.links ++ (mark, right.first) :: right.links

/-- The term read in order. -/
def chain (t : Term) : Chain := ⟨t.first, t.links⟩

/-- The operator at the root. -/
def mark? : Term → Option BinaryMark
  | factor _ => none
  | binary _ mark _ => some mark

/-- On its left an operator has only operators that bind as strongly or more strongly, and on
its right only ones that bind more strongly. -/
def Grouped : Term → Prop
  | factor _ => True
  | binary left mark right => left.Grouped ∧ right.Grouped ∧
    (∀ m ∈ left.mark?, mark.rank ≤ m.rank) ∧ ∀ m ∈ right.mark?, mark.rank < m.rank

variable {t u : Term}

/-- Without operators a term is the factor it starts with. -/
theorem eq_factor {x : Factor} (hfirst : t.first = x) (hlinks : t.links = []) : t = factor x := by
  cases t with
  | factor y => exact congrArg factor hfirst
  | binary left mark right => simp [links] at hlinks

theorem exists_link_of_mark? (h : m ∈ t.mark?) : ∃ x, (m, x) ∈ t.links := by
  cases t with
  | factor x => cases h
  | binary left mark right =>
    obtain rfl : mark = m := by simpa [mark?] using h
    exact ⟨right.first, by simp [links]⟩

/-- No operator of a grouped term binds less strongly than the one at the root. -/
theorem Grouped.le_rank (h : t.Grouped) (hn : ∀ m ∈ t.mark?, n ≤ m.rank) :
    ∀ link ∈ t.links, n ≤ link.1.rank := by
  induction t generalizing n with
  | factor x => simp [links]
  | binary left mark right ihl ihr =>
    obtain ⟨hl, hr, hleft, hright⟩ := h
    have hmark : n ≤ mark.rank := hn mark rfl
    rw [links]
    refine List.forall_mem_append.mpr ⟨ihl hl fun m hm => Nat.le_trans hmark (hleft m hm),
      List.forall_mem_cons.mpr ⟨hmark, ihr hr fun m hm => ?_⟩⟩
    exact Nat.le_trans hmark (Nat.le_of_lt (hright m hm))

/-- The last of the least elements of a list is at one place only. -/
theorem last_least {α : Type} (rank : α → Nat) {xs ys xs' ys' : List α} {x x' : α}
    (h : xs ++ x :: ys = xs' ++ x' :: ys') (hxs : ∀ y ∈ xs, rank x ≤ rank y)
    (hys : ∀ y ∈ ys, rank x < rank y) (hxs' : ∀ y ∈ xs', rank x' ≤ rank y)
    (hys' : ∀ y ∈ ys', rank x' < rank y) : xs = xs' ∧ x = x' ∧ ys = ys' := by
  rcases List.append_eq_append_iff.mp h with ⟨zs, rfl, hzs⟩ | ⟨zs, rfl, hzs⟩
  · cases zs with
    | nil => simpa using hzs
    | cons z zs =>
      obtain ⟨rfl, rfl⟩ := List.cons.inj hzs
      have hlt := hys x' (by simp)
      have hle := hxs' x (by simp)
      omega
  · cases zs with
    | nil => simpa [eq_comm] using hzs
    | cons z zs =>
      obtain ⟨rfl, rfl⟩ := List.cons.inj hzs
      have hlt := hys' x (by simp)
      have hle := hxs x' (by simp)
      omega

/-- There is at most one grouped term for a chain. -/
theorem Grouped.unique (ht : t.Grouped) (hu : u.Grouped) (h : t.chain = u.chain) : t = u := by
  obtain ⟨hfirst, hlinks⟩ := Chain.mk.inj h
  clear h
  induction t generalizing u with
  | factor x =>
    cases u with
    | factor y => rw [show x = y from hfirst]
    | binary left mark right => simp [links] at hlinks
  | binary left mark right ihl ihr =>
    cases u with
    | factor y => simp [links] at hlinks
    | binary left' mark' right' =>
      obtain ⟨hl, hr, hleft, hright⟩ := ht
      obtain ⟨hl', hr', hleft', hright'⟩ := hu
      obtain ⟨hlefts, hroot, hrights⟩ := last_least (fun link => link.1.rank) hlinks
        (hl.le_rank hleft) (hr.le_rank hright) (hl'.le_rank hleft') (hr'.le_rank hright')
      obtain ⟨hmark, hnext⟩ := Prod.mk.inj hroot
      rw [ihl hl hl' hfirst hlefts, hmark, ihr hr hr' hnext hrights]

end Term
end BlockLang.Grammar
