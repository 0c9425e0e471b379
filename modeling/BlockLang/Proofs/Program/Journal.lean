import BlockLang.Proofs.Program.Reached

/-!
# A journal of the analysis

The analysis of a program with a journal: what each module imports when it has been read, and
when each pass over it starts and ends. Nothing else changes (`forgets_build`).
-/

namespace BlockLang

/-- Loads a program and analyzes it. -/
def build (library : Library) (root : String) : Task Stop ModuleId := do
  let module ← loadRoot library root
  analyze library module
  return module

theorem compile_eq_build (library : Library) (root : String) :
    compile library root = do
      let module ← build library root
      return ⟨module, ← entryPoint module⟩ := by
  simp [compile, build]

/-- The passes over a module, in order. -/
inductive Phase where
  | normalize
  | lower
  | infer
deriving DecidableEq

def Phase.all : List Phase := [normalize, lower, infer]

def Phase.run : Phase → NodeId → Pass Unit
  | normalize => BlockLang.normalize
  | lower => BlockLang.lower
  | infer => BlockLang.infer

inductive Event where
  /-- A module has been read that imports others. -/
  | read (name : String) (imports : List String)
  | starts (phase : Phase) (name : String)
  | ends (phase : Phase) (name : String)
deriving DecidableEq

/-- Work that is written down. -/
abbrev Recorded := StateT (List Event) (Task Stop)

namespace Recorded

def doing (task : Task Stop α) : Recorded α := StateT.lift task

def note (event : Event) : Recorded Unit := modify (· ++ [event])

/-- Loads a module. What it imports is written down if it has not been known before. -/
def load (library : Library) (name : String) (requestedAt : Position) : Recorded ModuleId := do
  let known := (← doing get).findModule? name
  let module ← doing (loadModule library name requestedAt)
  if known.isNone then note (.read name (((← doing get).imports module).map (·.name)))
  return module

def runPhase (m : Module) (phase : Phase) : Recorded Unit := do
  note (.starts phase m.name)
  doing (phase.run m.root : Pass Unit)
  note (.ends phase m.name)

def analyzeWithin (library : Library) : Nat → ModuleId → Recorded Unit
  | 0, _ => doing (throw (.fault .endless))
  | depth + 1, module => do
    if ((← doing get).module module).started then return
    doing (modify (·.modifyModule module ({ · with started := true })))
    ((← doing get).imports module).forM fun i => do
      let imported ← load library i.name i.position
      analyzeWithin library depth imported
      doing (connect module i imported : Pass Unit)
    Phase.all.forM (runPhase ((← doing get).module module))
    doing (modify (·.modifyModule module ({ · with analyzed := true })))

def build (library : Library) (root : String) : Recorded ModuleId := do
  let module ← load library root .null
  analyzeWithin library ((← doing get).modules.size + library.count + 1) module
  return module

-- ---------------------------------------------------------------------------
-- Without the journal
-- ---------------------------------------------------------------------------

/-- Apart from the journal, `p` is `task`. -/
def Forgets (p : Recorded α) (task : Task Stop α) : Prop :=
  ∀ journal, Prod.fst <$> p.run journal = task

section
variable {p : Recorded α} {f : α → Recorded β} {task : Task Stop α} {g : α → Task Stop β}

theorem forgets_pure (a : α) : Forgets (pure a) (pure a) := fun _ => rfl

theorem forgets_doing (task : Task Stop α) : Forgets (doing task) task := by
  intro journal
  simp [doing]

theorem forgets_note (event : Event) : Forgets (note event) (pure ()) := fun _ => rfl

theorem Forgets.bind (hp : Forgets p task) (hf : ∀ a, Forgets (f a) (g a)) :
    Forgets (p >>= f) (task >>= g) := by
  intro journal
  have hrest : ∀ r : α × List Event, Prod.fst <$> (f r.1).run r.2 = g r.1 :=
    fun r => hf r.1 r.2
  rw [StateT.run_bind, map_bind]
  simp only [hrest]
  rw [← hp journal, bind_map_left]

theorem Forgets.ite {c : Prop} [Decidable c] {p q : Recorded α} {t u : Task Stop α}
    (hp : Forgets p t) (hq : Forgets q u) : Forgets (if c then p else q) (if c then t else u) := by
  split
  · exact hp
  · exact hq

theorem Forgets.forM {f : α → Recorded PUnit} {g : α → Task Stop PUnit}
    (h : ∀ a, Forgets (f a) (g a)) (xs : List α) : Forgets (xs.forM f) (xs.forM g) := by
  induction xs with
  | nil => exact forgets_pure _
  | cons x xs ih => exact (h x).bind fun _ => ih

/-- A run without the journal has one. -/
theorem Forgets.exists_journal (h : Forgets p task) (journal : List Event) {s s' : Session}
    {a : α} (hrun : task.start s = (.ok a, s')) :
    ∃ journal', (p.run journal).start s = (.ok (a, journal'), s') := by
  rw [← h journal, ← bind_pure_comp, start_bind] at hrun
  rcases hp : (p.run journal).start s with ⟨_ | ⟨a', journal'⟩, s₁⟩
  · simp [hp] at hrun
  · rw [hp] at hrun
    obtain ⟨ha, rfl⟩ := Prod.mk.inj hrun
    exact ⟨journal', by rw [← Except.ok.inj ha]⟩

end

/-- Looking at the session is not seen. -/
theorem Forgets.look {f : Session → Recorded α} {task : Task Stop α}
    (h : ∀ s, Forgets (f s) task) : Forgets (doing get >>= f) task := by
  have hget : (get >>= fun _ => task : Task Stop α) = task := rfl
  exact hget ▸ (forgets_doing get).bind h

theorem forgets_load (library : Library) (name : String) (requestedAt : Position) :
    Forgets (load library name requestedAt) (loadModule library name requestedAt) := by
  have hload : Forgets (load library name requestedAt)
      (loadModule library name requestedAt >>= pure) := by
    refine .look fun s => (forgets_doing _).bind fun module => ?_
    split
    · exact .look fun s' => (forgets_note _).bind fun _ => forgets_pure module
    · exact forgets_pure module
  rwa [bind_pure] at hload

theorem lift_bind (p : Pass α) (f : α → Pass β) :
    (p >>= f).lift = p.lift >>= fun a => (f a).lift := by
  funext s
  show ((p >>= f).lift).start s = (p.lift >>= fun a => (f a).lift).start s
  have hlift : ∀ {γ} (q : Pass γ) s,
      q.lift.start s = ((q.start s).1.mapError .fault, (q.start s).2) := fun _ _ => rfl
  rw [start_bind, hlift, hlift, start_bind]
  rcases p.start s with ⟨_ | a, s'⟩
  · rfl
  · simp only [Except.mapError, hlift]

theorem forgets_runPhase (m : Module) (phase : Phase) :
    Forgets (runPhase m phase) (phase.run m.root).lift := by
  have h : Forgets (runPhase m phase)
      (pure () >>= fun _ => (phase.run m.root).lift >>= fun _ => pure ()) :=
    (forgets_note _).bind fun _ => (forgets_doing _).bind fun _ => forgets_note _
  rwa [pure_bind, bind_pure_unit] at h

theorem forgets_phases (m : Module) :
    Forgets (Phase.all.forM (runPhase m)) (analyzeTree m.root).lift := by
  have htree : (analyzeTree m.root).lift = Phase.all.forM fun phase => (phase.run m.root).lift := by
    simp [analyzeTree, lift_bind, Phase.all, Phase.run, List.forM_eq_forM]
  rw [htree]
  exact .forM (forgets_runPhase m) Phase.all

theorem forgets_analyzeWithin (library : Library) (depth : Nat) (module : ModuleId) :
    Forgets (analyzeWithin library depth module)
      (BlockLang.analyzeWithin library depth module) := by
  induction depth generalizing module with
  | zero => exact forgets_doing _
  | succ depth ih =>
    refine (forgets_doing _).bind fun s => .ite (forgets_pure _) ?_
    refine (forgets_doing _).bind fun _ => (forgets_doing _).bind fun s => ?_
    refine Forgets.bind (.forM (fun i => ?_) _) fun _ => ?_
    · exact (forgets_load _ _ _).bind fun imported => (ih imported).bind fun _ => forgets_doing _
    · exact (forgets_doing _).bind fun s => (forgets_phases _).bind fun _ => forgets_doing _

theorem forgets_build (library : Library) (root : String) :
    Forgets (build library root) (BlockLang.build library root) := by
  simp only [BlockLang.build, analyze, bind_assoc]
  exact (forgets_load _ _ _).bind fun module => (forgets_doing _).bind fun _ =>
    (forgets_analyzeWithin _ _ module).bind fun _ => forgets_pure _

end Recorded
end BlockLang
