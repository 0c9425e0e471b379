import BlockLang.Proofs.Program.Sound
import BlockLang.Proofs.Typing.Kept

/-!
# Sessions on the way through a program

`Reached` are the sessions that loading and analyzing modules go through, whether they
succeed or not. All of them are sound, so no pass over a module ever stops at a fault of
the tree, and inference leaves every module in lowered form.
-/

namespace BlockLang

/-- The sessions that loading and analyzing modules go through. -/
inductive Reached : Session → Prop
  | new (entrySymbol : String) : Reached (.new entrySymbol)
  /-- A module is asked for. -/
  | load (library : Library) (name : String) (position : Position) :
    Reached s → Reached ((loadModule library name position).start s).2
  /-- The analysis of a module begins. -/
  | begin (module : ModuleId) :
    Reached s → Reached (s.modifyModule module ({ · with started := true }))
  /-- A module sees what another one exports. -/
  | connect (module : ModuleId) (i : Import) (imported : ModuleId) :
    Reached s → Reached ((connect module i imported).start s).2
  /-- The tree of a module is analyzed, once. -/
  | analyze {m : Module} (module : ModuleId) (found : s.modules[module.index]? = some m)
    (started : m.started = true) (isOpen : m.analyzed = false) :
    Reached s → Reached (((analyzeTree m.root).start s).2.modifyModule module
      ({ · with analyzed := true }))

section
variable {s s' : Session} {m : Module}

/-- What built-ins leave alone is as in a session without any. -/
theorem field_new {α : Type} (g : Session → α)
    (hg : ∀ (s : Session) types scopes decls, g { s with types, scopes, decls } = g s)
    (entrySymbol : String) : g (.new entrySymbol) =
      g ⟨.empty, .initial, .empty, #[], .empty, #[], [], #[], ⟨0⟩, entrySymbol⟩ := by
  have hfold : ∀ {β : Type} (f : Session → β → Session) (xs : List β) (s : Session),
      (∀ s x, g (f s x) = g s) → g (xs.foldl f s) = g s := by
    intro β f xs s hf
    induction xs generalizing s with
    | nil => rfl
    | cons x xs ih => exact (ih (f s x)).trans (hf s x)
  let bare : Session := ⟨.empty, .initial, .empty, #[], .empty, #[], [], #[], ⟨0⟩, entrySymbol⟩
  have hbare := hg bare bare.types (ScopeTable.empty.addScope .universal none).2 bare.decls
  refine (hfold _ _ _ fun s op => ?_).trans ((hfold _ _ _ fun s p => ?_).trans hbare)
  · unfold Session.declareBuiltin
    dsimp only
    split <;> exact hg s _ _ _
  · unfold Session.definePrimitive
    dsimp only
    split
    · exact hg s _ _ _
    · rfl

theorem modules_new (entrySymbol : String) : (Session.new entrySymbol).modules = #[] :=
  field_new Session.modules (fun _ _ _ _ => rfl) entrySymbol

theorem report_new (entrySymbol : String) : (Session.new entrySymbol).report = [] :=
  field_new Session.report (fun _ _ _ _ => rfl) entrySymbol

theorem sound_new (entrySymbol : String) : (Session.new entrySymbol).Sound := by
  refine ⟨Session.scoped_new entrySymbol, Session.operators_new entrySymbol, [],
    Arena.forest_nil _, ?_, ?_⟩
  · rw [modules_new]
    rfl
  · intro i m t hm
    rw [modules_new] at hm
    simp at hm

theorem Reached.sound (h : Reached s) : s.Sound := by
  induction h with
  | new entrySymbol => exact sound_new entrySymbol
  | load library name position _ ih =>
    have hload := ih.loadModule library name position
    exact Triple.left (hload.mono (fun _ _ h => h.1) fun _ _ h => h.1)
  | begin module _ ih => exact ih.begin module
  | connect module i imported _ ih =>
    exact Triple.left ((ih.connect module i imported).triple.imp fun _ _ h => h.1)
  | analyze module found started isOpen _ ih =>
    have hanalyzed := ih.analyzeTree found started isOpen
    exact Triple.left (P := fun s' => (s'.modifyModule module ({ · with analyzed := true })).Sound)
      (hanalyzed.triple.imp fun _ _ h => h.1)

-- ---------------------------------------------------------------------------
-- Runs
-- ---------------------------------------------------------------------------

/-- However a task ends, it has gone through reached sessions, and left alone what was
begun before. -/
def Advances (task : Task Stop α) (s : Session) (Q : α → Session → Prop) : Prop :=
  Triple task s (fun a s' => Reached s' ∧ s.Leaves s' ∧ Q a s') fun _ s' => Reached s' ∧ s.Leaves s'

theorem Advances.bind {task : Task Stop α} {f : α → Task Stop β} {Q : α → Session → Prop}
    {R : β → Session → Prop} (h : Advances task s Q)
    (hf : ∀ a s', Reached s' → s.Leaves s' → Q a s' → Advances (f a) s' R) :
    Advances (task >>= f) s R := by
  refine triple_bind.mpr (h.imp ?_)
  rintro a s' ⟨hreached, hleaves, hq⟩
  refine (hf a s' hreached hleaves hq).mono ?_ ?_
  · rintro b s'' ⟨hreached', hleaves', hr⟩
    exact ⟨hreached', hleaves.trans hleaves', hr⟩
  · rintro - s'' ⟨hreached', hleaves'⟩
    exact ⟨hreached', hleaves.trans hleaves'⟩

theorem Advances.of_reached {task : Task Stop α} {Q : α → Session → Prop}
    (h : Triple task s (fun a s' => s.Leaves s' ∧ Q a s') fun _ s' => s.Leaves s')
    (hr : Reached (task.start s).2) : Advances task s Q := by
  unfold Advances
  unfold Triple at h ⊢
  rcases hs : task.start s with ⟨_ | a, s'⟩ <;> rw [hs] at h hr
  · exact ⟨hr, h⟩
  · exact ⟨hr, h⟩

theorem Advances.forM {f : α → Task Stop PUnit}
    (hf : ∀ x s, Reached s → Advances (f x) s fun _ _ => True) (xs : List α) (h : Reached s) :
    Advances (xs.forM f) s fun _ _ => True := by
  induction xs generalizing s with
  | nil => exact ⟨h, .of_eq rfl, trivial⟩
  | cons x xs ih => exact (hf x s h).bind fun _ s' hr _ _ => ih hr

theorem advances_loadModule (h : Reached s) (library : Library) (name : String)
    (position : Position) : Advances (loadModule library name position) s fun id s' =>
      id.index < s'.modules.size :=
  .of_reached ((h.sound.loadModule library name position).mono (fun _ _ h => h.2) fun _ _ h => h.2)
    (h.load library name position)

theorem advances_connect (h : Reached s) (module : ModuleId) (i : Import) (imported : ModuleId) :
    Advances (Pass.lift (connect module i imported)) s fun _ _ => True :=
  .of_reached (triple_adapt.mpr ((h.sound.connect module i imported).triple.imp fun _ _ h =>
    ⟨h.2, trivial⟩)) (h.connect module i imported)

/-- A module that has not been begun is analyzed in the end. -/
def Finishes (s : Session) (module : ModuleId) (s' : Session) : Prop :=
  ∀ m, s.modules[module.index]? = some m → m.started = false →
    s'.modules[module.index]? = some { m with started := true, analyzed := true }

/-- The last part of the analysis of a module that was begun after `s`. -/
theorem triple_finish {module : ModuleId} (hr : Reached s') (hl : s.Leaves s')
    (hm : s'.modules[module.index]? = some m) (hstarted : m.started = true)
    (hopen : m.analyzed = false)
    (hn : ∀ m, s.modules[module.index]? = some m → m.started = false) :
    Triple (do
        (analyzeTree ((← get).module module).root : Pass Unit)
        modify (·.modifyModule module ({ · with analyzed := true })) : Task Stop PUnit) s'
      (fun _ s'' => Reached s'' ∧ s.Leaves s'' ∧
        s''.modules[module.index]? = some { m with analyzed := true })
      fun _ s'' => Reached s'' ∧ s.Leaves s'' := by
  have hmodule : s'.module module = m := by simp [Session.module, hm]
  have hanalyzed := hr.analyze module hm hstarted hopen
  obtain ⟨_, s₁, hstart, -, hmodules⟩ := (hr.sound.analyzeTree hm hstarted hopen).exists
  rw [hstart] at hanalyzed
  refine triple_bind.mpr (triple_get.mpr (triple_bind.mpr (triple_adapt.mpr ?_)))
  rw [hmodule]
  refine Triple.of_start hstart (triple_modify.mpr ⟨hanalyzed, ?_, ?_⟩)
  · exact (hl.trans (.of_eq hmodules)).modifyModule _ hn
  · rw [s₁.getElem?_modifyModule, if_pos rfl, hmodules, hm]
    rfl

/-- Analyzing a module goes through reached sessions only. -/
theorem advances_analyzeWithin (library : Library) (depth : Nat) (module : ModuleId)
    (h : Reached s) (hm : module.index < s.modules.size) :
    Advances (analyzeWithin library depth module) s fun _ s' => Finishes s module s' := by
  induction depth generalizing s module with
  | zero => exact ⟨h, .of_eq rfl⟩
  | succ depth ih =>
    have hfound : s.modules[module.index]? = some s.modules[module.index] :=
      Array.getElem?_eq_getElem hm
    have hmodule : s.module module = s.modules[module.index] := by
      simp [Session.module, hfound]
    unfold analyzeWithin
    refine triple_bind.mpr (triple_get.mpr ?_)
    split
    · next hbegun =>
      refine ⟨h, .of_eq rfl, fun m hm hidle => absurd hbegun ?_⟩
      simp [Session.module, hm, hidle]
    · next hidle =>
      rw [hmodule, Bool.not_eq_true] at hidle
      have hn : ∀ m, s.modules[module.index]? = some m → m.started = false := by
        intro m hm
        rwa [Option.some.inj (hm.symm.trans hfound)]
      let begun := s.modifyModule module ({ · with started := true })
      have hleaves : s.Leaves begun := (Session.Leaves.of_eq rfl).modifyModule _ hn
      have himports : Advances ((begun.imports module).forM fun i => do
          let imported ← loadModule library i.name i.position
          analyzeWithin library depth imported
          (connect module i imported : Pass Unit)) begun fun _ _ => True := by
        refine .forM (fun i s' hr => ?_) _ (h.begin module)
        have hload := advances_loadModule hr library i.name i.position
        refine hload.bind fun imported s₁ hr₁ _ hi => ?_
        exact (ih imported hr₁ hi).bind fun _ s₂ hr₂ _ _ => advances_connect hr₂ module i imported
      refine triple_bind.mpr (triple_modify.mpr (triple_bind.mpr (triple_get.mpr ?_)))
      refine triple_bind.mpr (himports.mono ?_ ?_)
      · rintro - s₁ ⟨hr₁, hl₁, -⟩
        have hbegun : begun.modules[module.index]? =
            some { s.modules[module.index] with started := true } := by
          rw [s.getElem?_modifyModule, if_pos rfl, hfound]
          rfl
        have hopen : s.modules[module.index].analyzed = false := by
          obtain ⟨_, _, _, -, -, hspells, ht⟩ := h.sound.exists_tree hfound
          by_contra hne
          have hs := (hspells _ _ _ hfound ht).begun (by simpa using hne)
          exact absurd hidle (by simp [hs])
        refine (triple_finish hr₁ (hleaves.trans hl₁) (hl₁.started _ _ hbegun rfl) rfl hopen
          hn).imp ?_
        rintro - s₂ ⟨hr₂, hl₂, hfinished⟩
        refine ⟨hr₂, hl₂, fun m hm _ => ?_⟩
        rw [hfinished, Option.some.inj (hm.symm.trans hfound)]
      · rintro - s₁ ⟨hr₁, hl₁⟩
        exact ⟨hr₁, hleaves.trans hl₁⟩

theorem advances_analyze (h : Reached s) (library : Library) {module : ModuleId}
    (hm : module.index < s.modules.size) :
    Advances (analyze library module) s fun _ s' => Finishes s module s' :=
  triple_bind.mpr (triple_get.mpr (advances_analyzeWithin library _ module h hm))

-- ---------------------------------------------------------------------------
-- Inference
-- ---------------------------------------------------------------------------

/-- A tree in lowered form passes both checks. -/
theorem LoweredModule.checked {a : Arena} {t : Tree} {us : List Tree} (hf : a.Forest (t :: us))
    (hl : LoweredModule t) :
    (∃ t', t'.handle = t.handle ∧ a.Holds none t' ∧ LoweredModule t') ∧
      (∀ id, a.Reaches t.handle id → a.kind id ≠ .block ∧ a.kind id ≠ .exprStmt) ∧
      ((∃ n, a.ChecksForm [t.handle] n none) ∧ a.notLowered? t.handle = none) ∧
      (∃ n, a.Checks [t.handle] n none) ∧ a.badLink? t.handle = none := by
  obtain ⟨hholds, hnodup⟩ := hf.head
  refine ⟨⟨t, rfl, hholds, hl⟩, fun id hr => ?_, hholds.checksForm hnodup hl,
    hholds.checks hnodup⟩
  obtain ⟨u, hu, rfl⟩ := Tree.mem_ids.mp (hholds.reaches_iff.mp hr)
  obtain ⟨q, hq⟩ := hholds.subtree hu
  rw [hq.kind]
  exact ⟨(hl.every u hu).notBlock, (hl.every u hu).notExprStmt⟩

/-- The passes over a module that has not been analyzed. -/
theorem Reached.passes (h : Reached s) {i : Nat} (hm : s.modules[i]? = some m)
    (hopen : m.analyzed = false) (normalizes : Bool) : ∃ us name,
    Returns (arrange normalizes m.root) s fun _ s₁ => Returns (lower m.root) s₁ fun _ s₂ =>
      Returns (infer m.root) s₂ fun _ s' => ∃ ts ts',
        s₂.tree.Forest (.node m.root (.moduleRoot name) ts :: us) ∧ (∀ t ∈ ts, Lowered t) ∧
        List.Forall₂ (Settles s₂.tree.size) ts ts' ∧
        s'.tree.Forest (.node m.root (.moduleRoot name) ts' :: us) := by
  obtain ⟨ts, name, cs, hf, -, hspells, ht⟩ := h.sound.exists_tree hm
  have hread : ∀ c ∈ cs, c.Every (Written s) := (hspells i m _ hm ht).read hopen
  refine ⟨ts.eraseIdx i, name, ?_⟩
  refine (returns_passes normalizes h.sound.inScope (hf.front ht) hread (pure .error)).imp
    fun _ s₁ h => h.imp fun _ s₂ h => h.imp ?_
  rintro - s' ⟨ts₂, ts', hf₂, hlowered, hsettles, hreworks, -⟩
  exact ⟨ts₂, ts', hf₂, hlowered, hsettles, hreworks.forest⟩

/-- Inference comes to its end on every module that has been loaded and lowered, in normal
form or not. The module is in lowered form then: no block and no expression statement can be
reached, and both checks come to their end and find nothing. -/
theorem loweredModule_of_inferred (h : Reached s) {i : Nat} (hm : s.modules[i]? = some m)
    (hopen : m.analyzed = false) (normalizes : Bool) :
    Returns (arrange normalizes m.root) s fun _ s₁ => Returns (lower m.root) s₁ fun _ s₂ =>
      Returns (infer m.root) s₂ fun _ s' =>
        (∃ t, t.handle = m.root ∧ s'.tree.Holds none t ∧ LoweredModule t) ∧
        (∀ id, s'.tree.Reaches m.root id →
          s'.tree.kind id ≠ .block ∧ s'.tree.kind id ≠ .exprStmt) ∧
        ((∃ n, s'.tree.ChecksForm [m.root] n none) ∧ s'.tree.notLowered? m.root = none) ∧
        (∃ n, s'.tree.Checks [m.root] n none) ∧ s'.tree.badLink? m.root = none := by
  obtain ⟨us, name, h⟩ := h.passes hm hopen normalizes
  refine h.imp fun _ s₁ h => h.imp fun _ s₂ h => h.imp ?_
  rintro - s' ⟨ts, ts', -, hlowered, hsettles, hf⟩
  exact LoweredModule.checked hf ⟨⟨name, rfl⟩, Settles.lowered_all hsettles hlowered⟩

/-- Inference keeps every declaration, assignment and return of a lowered module, except with
the condition or an arm of a branch or loop that it decides. Nothing of that part is left
then, whatever the condition does before its last step. -/
theorem effects_of_inferred (h : Reached s) {i : Nat} (hm : s.modules[i]? = some m)
    (hopen : m.analyzed = false) (normalizes : Bool) :
    Returns (arrange normalizes m.root) s fun _ s₁ => Returns (lower m.root) s₁ fun _ s₂ =>
      Returns (infer m.root) s₂ fun _ s' => ∀ id, s₂.tree.Reaches m.root id →
        (s₂.tree.kind id).hasEffect = true → s₂.tree.Survives s'.tree m.root id ∨
        ∃ branch, s₂.tree.Reaches m.root branch ∧
          (s₂.tree.kind branch).isControlFlow = true ∧ ¬ s₂.tree.Survives s'.tree m.root branch ∧
          ∃ part ∈ s₂.tree.children branch, s₂.tree.Reaches part id ∧
            ∀ j, s₂.tree.Reaches part j → (s₂.tree.kind j).isFirm = true →
              ¬ s₂.tree.Survives s'.tree m.root j := by
  obtain ⟨us, name, h⟩ := h.passes hm hopen normalizes
  refine h.imp fun _ s₁ h => h.imp fun _ s₂ h => h.imp ?_
  rintro - s' ⟨ts, ts', hf, hlowered, hsettles, hf'⟩ id hid he
  obtain ⟨hholds, hnodup⟩ := hf.head
  have haccounts := (Settles.accounts_all hsettles hlowered (nodup_children hnodup)).over hnodup
  exact haccounts.survives hholds hf'.head.1 rfl hid he

end

/-- A module with a function whose only condition is known and whose only operation has
operands of different types. -/
def sumLibrary : Library := .ofTexts [("sum", "fn f() \x7b if true \x7b 1 + 2.5; \x7d \x7d")]

theorem load_sum : ∃ s m, (loadModule sumLibrary "sum" .null).start (.new "main") = (.ok ⟨0⟩, s) ∧
    s.modules[0]? = some m ∧ m.analyzed = false := by
  have h : (match (loadModule sumLibrary "sum" .null).start (.new "main") with
      | (.ok id, s) => id.index == 0 && s.modules[0]?.any (!·.analyzed)
      | (.error _, _) => false) = true := by decide +kernel
  generalize (loadModule sumLibrary "sum" .null).start (.new "main") = r at h ⊢
  obtain ⟨_ | id, s⟩ := r
  · simp at h
  · obtain ⟨index⟩ := id
    simp only [Bool.and_eq_true, beq_iff_eq, Option.any_eq_true] at h
    obtain ⟨rfl, m, hm, hopen⟩ := h
    exact ⟨s, m, rfl, hm, by simpa using hopen⟩

theorem loweredModule_of_inferred_sum : ∃ s m,
    (loadModule sumLibrary "sum" .null).start (.new "main") = (.ok ⟨0⟩, s) ∧
    s.modules[0]? = some m ∧
    Returns (arrange true m.root) s fun _ s₁ => Returns (lower m.root) s₁ fun _ s₂ =>
      Returns (infer m.root) s₂ fun _ s' =>
        (∃ t, t.handle = m.root ∧ s'.tree.Holds none t ∧ LoweredModule t) ∧
        (∀ id, s'.tree.Reaches m.root id →
          s'.tree.kind id ≠ .block ∧ s'.tree.kind id ≠ .exprStmt) ∧
        ((∃ n, s'.tree.ChecksForm [m.root] n none) ∧ s'.tree.notLowered? m.root = none) ∧
        (∃ n, s'.tree.Checks [m.root] n none) ∧ s'.tree.badLink? m.root = none := by
  obtain ⟨s, m, hload, hm, hopen⟩ := load_sum
  have hreached : Reached s := by
    have h := (Reached.new "main").load sumLibrary "sum" .null
    rwa [hload] at h
  exact ⟨s, m, hload, hm, loweredModule_of_inferred hreached hm hopen true⟩

end BlockLang
