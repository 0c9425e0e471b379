import BlockLang.Scope.Basic

/-!
# Looking names up

From a scope one sees the scope itself, what it imports, then its parent in the
same way. What is seen through an import ends before the universal scope, so
that built-in names are found once. A scope being looked through as an import is
marked and not entered as one again, which ends import cycles. A scope that has
been looked through below an import shows nothing new when it is met there again
and is passed over, which changes neither what is found nor in which order
(`ScopeTable.Built.find_tour`).

Looking around stops as soon as enough has been found. All marks are cleared on
the way back, so the table a lookup ends with is the one it began with.
-/

namespace BlockLang

/-- What looking around works on. -/
structure Sight (β : Type) where
  table : ScopeTable
  /-- The scopes that have been looked through below an import. -/
  finished : List ScopeId
  found : β

/-- Looking around, up to a scope that does not exist. -/
abbrev Look (β : Type) := StateT (Sight β) (Except Fault)

/-- What a scope adds to what has been found, and whether that is enough. -/
abbrev Visit (β : Type) := Scope → β → β × Bool

namespace Look

def scopeOf (id : ScopeId) : Look β Scope := do (← get).table.find id

/-- Whether the scope `start` is left out below an import. -/
def isPassed (scope : Scope) (start : ScopeId) : Look β Bool := do
  return scope.kind == .universal || (← get).finished.any (· == start)

def offer (visit : Visit β) (scope : Scope) : Look β Bool := do
  let (found, enough) := visit scope (← get).found
  modify ({ · with found })
  return enough

def mark (id : ScopeId) (visiting : Bool) : Look β Unit :=
  modify fun sight => { sight with table := sight.table.mark id visiting }

/-- Looks through an import, unless that is being done already. -/
def enter (look : ScopeId → Look β Bool) (exported : ScopeId) : Look β Bool := do
  let _ ← scopeOf exported
  if (← get).table.isVisiting exported then return false
  mark exported true
  let enough ← look exported
  mark exported false
  return enough

def finish (start : ScopeId) : Look β Bool := do
  modify fun sight => { sight with finished := start :: sight.finished }
  return false

/-- Looks around from `start` in at most `depth` steps until enough has been found, and
says whether it has. `universal` says whether the universal scope is seen. -/
def within (visit : Visit β) : Nat → Bool → ScopeId → Look β Bool
  | 0, _, _ => return false
  | depth + 1, universal, start => do
    let scope ← scopeOf start
    if !universal && (← isPassed scope start) then return false
    offer visit scope
      <||> scope.imports.anyM (enter (within visit depth false))
      <||> scope.parent.elim (pure false) (within visit depth universal)
      <||> if universal then pure false else finish start

end Look

namespace ScopeTable

variable (t : ScopeTable)

/-- More than the steps of any path: it enters each scope as an import at most once
and goes up from it at most through every scope. So a lookup never runs out of steps
(`ScopeTable.Ordered.look_within`). -/
def depth : Nat := (t.scopes.size + 1) * (t.scopes.size + 1)

/-- Looks around from `start`: what has been found, and the table after it. -/
def look (visit : Visit β) (start : ScopeId) (found : β) : Except Fault (β × ScopeTable) := do
  let (_, sight) ← (Look.within visit t.depth true start).run ⟨t, [], found⟩
  return (sight.found, sight.table)

/-- Takes the first result of `f`. -/
def takeFirst (f : Scope → Option α) : Visit (Option α) := fun scope _ =>
  (f scope, (f scope).isSome)

/-- The first result of `f` on the scopes seen from `start`. -/
def first? (f : Scope → Option α) (start : ScopeId) : Except Fault (Option α) :=
  (t.look (takeFirst f) start none).map (·.1)

/-- The nearest meaning of `name`. -/
def findVar? (start : ScopeId) (name : String) : Except Fault (Option VarDef) :=
  t.first? (·.vars.lookup name) start

/-- The nearest type definition of `name`. -/
def findType? (start : ScopeId) (name : String) : Except Fault (Option TypeDefId) :=
  t.first? (·.types.lookup name) start

/-- `xs` without the entries that are in `before` or repeat. -/
def distinct [DecidableEq α] (before : List α) : List α → List α
  | [] => []
  | x :: xs =>
    if before.any (· == x) then distinct before xs else x :: distinct (x :: before) xs

/-- Takes every declaration of `name`, each once. -/
def gather (name : String) : Visit (List DeclId) := fun scope found =>
  (found ++ distinct found (scope.declsOf name), false)

/-- Every declaration of `name` that can be seen, nearest first and each once. -/
def findVars (start : ScopeId) (name : String) : Except Fault (List DeclId) :=
  (t.look (gather name) start []).map (·.1)

end ScopeTable
end BlockLang
