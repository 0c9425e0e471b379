import BlockLang.Lowered.Check
import BlockLang.Proofs.Grammar.Shape

/-!
# What lowering makes of a tree

`Lowers` relates written trees to what they are lowered to, apart from any arena. It
leaves open which handles new nodes get: they are all taken from `first` on. A
temporary is set by the node that `temps` has for it.
-/

namespace BlockLang

namespace NodeKind

/-- Whether a node of this kind can be a step of a basic block. -/
def isStep : NodeKind → Bool
  | .varDecl .. | .returnStmt => true
  | .ifElse | .temp _ => false
  | kind => kind.isExpression

/-- Whether the value of a node is that of its last child. -/
def isGroup : NodeKind → Bool
  | .block | .pair | .exprStmt => true
  | _ => false

/-- Whether a node is a statement without a value. -/
def isIdle : NodeKind → Bool
  | .varDecl .. | .returnStmt | .funcDecl _ | .typeDecl _ | .importDecl .. => true
  | _ => false

theorem splitsBlock_of_isStep {k : NodeKind} (h : k.isStep = true) : k.splitsBlock = false := by
  cases k <;> first | rfl | exact absurd h (by simp [isStep, isExpression])

end NodeKind

/-- Steps packed into one statement: runs of plain ones into basic blocks, all chained
by pairs. -/
inductive Packs (first : Nat) : List Tree → Tree → Prop
  | run (fresh : first ≤ i.index) (plain : ∀ step ∈ steps, step.kind.splitsBlock = false) :
    Packs first steps (.node i .basicBlock steps)
  | single (splits : step.kind.splitsBlock = true) : Packs first [step] step
  | pair (fresh : first ≤ i.index) (left : Packs first xs a) (right : Packs first ys b) :
    Packs first (xs ++ ys) (.node i .pair [a, b])

namespace Lowers

/-- What can be said of lowering. -/
inductive Judgement where
  /-- A statement becomes another one. -/
  | statement (t t' : Tree)
  | statements (ts ts' : List Tree)
  /-- Statements become steps. -/
  | effects (ts steps : List Tree)
  /-- A value is computed by steps and set by a node. -/
  | value (t : Tree) (steps : List Tree) (setter : NodeId)
  /-- Values are computed by steps and get temporaries in their place. -/
  | values (ts steps temps : List Tree)

end Lowers

open Lowers (Judgement)

inductive Lowers (first : Nat) (temps : Array NodeId) : Judgement → Prop
  -- statements
  | pair (left : Lowers first temps (.statement a a'))
    (right : Lowers first temps (.statement b b')) :
    Lowers first temps (.statement (.node i .pair [a, b]) (.node i .pair [a', b']))
  | emptyBlock (fresh : first ≤ j.index) :
    Lowers first temps (.statement (.node i .block []) (.node j .basicBlock []))
  | block (only : Lowers first temps (.statement c c')) :
    Lowers first temps (.statement (.node i .block [c]) c')
  | funcDecl (body : Lowers first temps (.statement b b')) :
    Lowers first temps (.statement (.node i (.funcDecl d) [b]) (.node i (.funcDecl d) [b']))
  | typeDecl : Lowers first temps
      (.statement (.node i (.typeDecl name) []) (.node i (.typeDecl name) []))
  | importDecl : Lowers first temps
      (.statement (.node i (.importDecl name isPublic) []) (.node i (.importDecl name isPublic) []))
  | packed (steps : Lowers first temps (.effects [t] out)) (packs : Packs first out t') :
    Lowers first temps (.statement t t')
  | noStatements : Lowers first temps (.statements [] [])
  | moreStatements (head : Lowers first temps (.statement t t'))
    (tail : Lowers first temps (.statements ts ts')) :
    Lowers first temps (.statements (t :: ts) (t' :: ts'))
  -- effects
  | noEffects : Lowers first temps (.effects [] [])
  | moreEffects (head : Lowers first temps (.effects [t] out))
    (tail : Lowers first temps (.effects ts outs)) :
    Lowers first temps (.effects (t :: ts) (out ++ outs))
  | group (kind : k.isGroup = true) (parts : Lowers first temps (.effects cs out)) :
    Lowers first temps (.effects [.node i k cs] out)
  | idle (kind : k.isStep = true) (operands : Lowers first temps (.values cs out ts)) :
    Lowers first temps (.effects [.node i k cs] (out ++ [.node i k ts]))
  | declaration (kind : t.kind.isDeclaration = true)
    (lowered : Lowers first temps (.statement t t')) (same : t'.kind = t.kind) :
    Lowers first temps (.effects [t] [t'])
  | drop (value : Lowers first temps (.value t out setter)) : Lowers first temps (.effects [t] out)
  -- values
  | last (kind : k.isGroup = true) (leading : Lowers first temps (.effects cs out))
    (last : Lowers first temps (.value t out' setter)) :
    Lowers first temps (.value (.node i k (cs ++ [t])) (out ++ out') setter)
  | nothing (kind : k.isGroup = true) (fresh : first ≤ j.index) :
    Lowers first temps (.value (.node i k []) [.node j .nullValue []] j)
  | branch (kind : k.isControlFlow = true) (condition : Lowers first temps (.value c out setter))
    (packs : Packs first out c') (arms : Lowers first temps (.statements as as')) :
    Lowers first temps (.value (.node i k (c :: as)) [.node i k (c' :: as')] i)
  | expression (kind : k.isStep = true) (value : k.isExpression = true)
    (operands : Lowers first temps (.values cs out ts)) :
    Lowers first temps (.value (.node i k cs) (out ++ [.node i k ts]) i)
  | null (kind : t.kind.isIdle = true) (effect : Lowers first temps (.effects [t] out))
    (fresh : first ≤ j.index) : Lowers first temps (.value t (out ++ [.node j .nullValue []]) j)
  | noValues : Lowers first temps (.values [] [] [])
  | moreValues (head : Lowers first temps (.value t out setter)) (fresh : first ≤ j.index)
    (set : temps[temp.index]? = some setter) (tail : Lowers first temps (.values ts outs us)) :
    Lowers first temps (.values (t :: ts) (out ++ outs) (.node j (.temp temp) [] :: us))

theorem Packs.mono (h : Packs first out t) (hf : first' ≤ first) : Packs first' out t := by
  induction h with
  | run fresh plain => exact .run (Nat.le_trans hf fresh) plain
  | single splits => exact .single splits
  | pair fresh _ _ iha ihb => exact .pair (Nat.le_trans hf fresh) iha ihb

/-- More temporaries and earlier handles do no harm. -/
theorem Lowers.mono {temps temps' : Array NodeId} (h : Lowers first temps judgement)
    (hf : first' ≤ first)
    (ht : ∀ (i : Nat) n, temps[i]? = some n → temps'[i]? = some n) :
    Lowers first' temps' judgement := by
  induction h with
  | pair _ _ iha ihb => exact .pair iha ihb
  | emptyBlock fresh => exact .emptyBlock (Nat.le_trans hf fresh)
  | block _ ih => exact .block ih
  | funcDecl _ ih => exact .funcDecl ih
  | typeDecl => exact .typeDecl
  | importDecl => exact .importDecl
  | packed _ packs ih => exact .packed ih (packs.mono hf)
  | noStatements => exact .noStatements
  | moreStatements _ _ ih ihs => exact .moreStatements ih ihs
  | noEffects => exact .noEffects
  | moreEffects _ _ ih ihs => exact .moreEffects ih ihs
  | group kind _ ih => exact .group kind ih
  | idle kind _ ih => exact .idle kind ih
  | declaration kind _ same ih => exact .declaration kind ih same
  | drop _ ih => exact .drop ih
  | last kind _ _ ihe ihv => exact .last kind ihe ihv
  | nothing kind fresh => exact .nothing kind (Nat.le_trans hf fresh)
  | branch kind _ packs _ ihc iha => exact .branch kind ihc (packs.mono hf) iha
  | expression kind value _ ih => exact .expression kind value ih
  | null kind _ fresh ih => exact .null kind ih (Nat.le_trans hf fresh)
  | noValues => exact .noValues
  | moreValues _ fresh set _ ih ihs =>
    exact .moreValues ih (Nat.le_trans hf fresh) (ht _ _ set) ihs

end BlockLang
