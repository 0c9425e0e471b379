import BlockLang.Lowered.Build

/-!
# Lowered form

A tree is lowered if no block and no expression statement is left in it and every
step of a basic block is plain and takes only temporaries.
-/

namespace BlockLang.Arena

/-- Whether a step of a basic block is plain and takes only temporaries. -/
def isStep (a : Arena) (step : NodeId) : Bool :=
  !(a.kind step).splitsBlock && (a.children step).all fun operand => (a.kind operand).isTemp

/-- The first node below those on `stack` that breaks the form, the last child of a
node first. -/
def notLoweredWithin (a : Arena) : Nat → List NodeId → Option NodeId
  | 0, _ | _, [] => none
  | fuel + 1, node :: stack =>
    match a.kind node with
    | .block | .exprStmt => some node
    | .basicBlock =>
      match (a.children node).find? (!a.isStep ·) with
      | some step => some step
      | none => notLoweredWithin a fuel stack
    | _ => notLoweredWithin a fuel ((a.children node).reverse ++ stack)

/-- The first node below `root` that is not in lowered form, if any. -/
def notLowered? (a : Arena) (root : NodeId) : Option NodeId :=
  a.notLoweredWithin (a.size + 1) [root]

end BlockLang.Arena
