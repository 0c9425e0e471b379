import BlockLang.Proofs.Program.Reached
import BlockLang.Proofs.Typing.Missing

/-!
# What is known of an analyzed module

Every temporary has the type of a node that is run before it, and every node has the facts
that belong to its kind. Neither gets lost when other modules are loaded and analyzed.
-/

namespace BlockLang

open BlockLang.Tree (idsOf subtreesOf RunsBefore)

variable {s s' : Session} {m : Module}

-- ---------------------------------------------------------------------------
-- Temporaries
-- ---------------------------------------------------------------------------

/-- The temporary `j` has the type of a node that is run before it. -/
structure Supplied (s : Session) (t : Tree) (j p : NodeId) : Prop where
  reached : s.tree.Reaches t.handle p
  before : RunsBefore t.children p j
  typed : (s.tree.facts p).type.isSome = true
  same : (s.tree.facts p).type = (s.tree.facts j).type

/-- A tree that inference is through with has all its temporaries supplied. -/
theorem Done.supplied {name : String} {ts : List Tree} {root : NodeId} {q : Option NodeId}
    (h : Done s ∅ ts) (hh : s.tree.Holds q (.node root (.moduleRoot name) ts)) {j : NodeId}
    {τ : TempId} (hj : s.tree.Reaches root j) (hk : s.tree.kind j = .temp τ) :
    ∃ p, s.temps[τ.index]? = some p ∧ Supplied s (.node root (.moduleRoot name) ts) j p := by
  obtain ⟨u, hu, rfl⟩ := Tree.mem_ids.mp (hh.reaches_iff.mp hj)
  obtain ⟨_, hheld⟩ := hh.subtree hu
  rw [hheld.kind] at hk
  have hu' : u ∈ subtreesOf ts := by
    simp only [Tree.subtrees_node, List.mem_append, List.mem_singleton] at hu
    refine hu.resolve_right ?_
    rintro rfl
    cases hk
  obtain ⟨hcovers, -, htemp⟩ := h.noted u hu'
  obtain ⟨p, hset, hsame⟩ := htemp τ hk
  obtain ⟨p', hset', hbefore⟩ := h.fed.runsBefore hu' hk
  obtain rfl : p = p' := by simpa [hset] using hset'
  refine ⟨p, hset, hh.reaches_iff.mpr (by simp [hbefore.mem_idsOf]), hbefore, ?_, hsame⟩
  rw [hsame]
  exact hcovers.type (by rw [hk]; rfl)

/-- Inference of a module that has been loaded and lowered ends in the same session whatever
would be done about a producer without a type, so every producer has one when it is read.
Every temporary that can be reached in the end is set by a node that can be reached too and is
run before it, both outside of functions or in the body of the same one, and it has the type
of that node. -/
theorem supplied_of_inferred (h : Reached s) {i : Nat} (hm : s.modules[i]? = some m)
    (hopen : m.analyzed = false) (normalizes : Bool) :
    Returns (arrange normalizes m.root) s fun _ s₁ => Returns (lower m.root) s₁ fun _ s₂ =>
      Returns (infer m.root) s₂ fun _ s' =>
        (∀ missing, (inferWith missing m.root).start s₂ = (.ok (), s')) ∧
        ∃ t, t.handle = m.root ∧ s'.tree.Holds none t ∧ t.ids.Nodup ∧
          ∀ j τ, s'.tree.Reaches m.root j → s'.tree.kind j = .temp τ →
            ∃ p, s'.temps[τ.index]? = some p ∧ Supplied s' t j p := by
  obtain ⟨ts, name, cs, hf, -, hspells, ht⟩ := h.sound.exists_tree hm
  have hread : ∀ c ∈ cs, c.Every (Written s) := (hspells i m _ hm ht).read hopen
  refine (returns_passes normalizes h.sound.inScope (hf.front ht) hread (throw .endless)).imp
    fun _ s₁ hrun => hrun.imp fun _ s₂ hrun => ?_
  -- it comes to its end although a missing type would stop it
  obtain ⟨_, s', hstart, ts₂, ts', -, -, -, hreworks, hdone⟩ := hrun.exists
  have hall : ∀ missing, (inferWith missing m.root).start s₂ = (.ok (), s') := fun missing =>
    refines_inferWith missing .endless m.root s₂ _ s' hstart
  obtain ⟨hholds, hnodup⟩ := hreworks.forest.head
  exact Triple.of_start (hall (pure .error))
    ⟨hall, _, rfl, hholds, hnodup, fun j τ hj hk => hdone.supplied hholds hj hk⟩

theorem reached_sum (h : (loadModule sumLibrary "sum" .null).start (.new "main") = (.ok ⟨0⟩, s)) :
    Reached s := by
  have hload := (Reached.new "main").load sumLibrary "sum" .null
  rwa [h] at hload

theorem supplied_of_inferred_sum : ∃ s m,
    (loadModule sumLibrary "sum" .null).start (.new "main") = (.ok ⟨0⟩, s) ∧
    s.modules[0]? = some m ∧
    Returns (arrange true m.root) s fun _ s₁ => Returns (lower m.root) s₁ fun _ s₂ =>
      Returns (infer m.root) s₂ fun _ s' =>
        (∀ missing, (inferWith missing m.root).start s₂ = (.ok (), s')) ∧
        ∃ t, t.handle = m.root ∧ s'.tree.Holds none t ∧ t.ids.Nodup ∧
          ∀ j τ, s'.tree.Reaches m.root j → s'.tree.kind j = .temp τ →
            ∃ p, s'.temps[τ.index]? = some p ∧ Supplied s' t j p := by
  obtain ⟨s, m, hload, hm, hopen⟩ := load_sum
  exact ⟨s, m, hload, hm, supplied_of_inferred (reached_sum hload) hm hopen true⟩

-- ---------------------------------------------------------------------------
-- Annotations
-- ---------------------------------------------------------------------------

/-- What the analysis of a module leaves of a node that can be reached from its root. -/
structure NodeId.Explained (s : Session) (j : NodeId) : Prop where
  type : (∀ name, s.tree.kind j ≠ .moduleRoot name) → (s.tree.kind j).isImport = false →
    (s.tree.facts j).type.isSome = true
  binding : (s.tree.kind j).isUse = true → (s.tree.facts j).type ≠ some .error →
    (s.tree.facts j).binding.isSome = true
  operator : (s.tree.kind j).isOperator = true → (s.tree.facts j).type = some .error

theorem Reached.explained (h : Reached s) {i : Nat} (hm : s.modules[i]? = some m)
    (ha : m.analyzed = true) {j : NodeId} (hj : s.tree.Reaches m.root j) : j.Explained s := by
  obtain ⟨ts, name, cs, hf, -, hspells, ht⟩ := h.sound.exists_tree hm
  have hholds := (hf.front ht).head.1
  have hannotated : ∀ c ∈ cs, c.Every (Annotated s.tree) := (hspells i m _ hm ht).annotated ha
  obtain ⟨u, hu, rfl⟩ := Tree.mem_ids.mp (hholds.reaches_iff.mp hj)
  obtain ⟨_, hheld⟩ := hholds.subtree hu
  simp only [Tree.subtrees_node, List.mem_append, List.mem_singleton] at hu
  rcases hu with hu | rfl
  · obtain ⟨c, hc, hu⟩ := Tree.mem_subtreesOf.mp hu
    obtain ⟨hcovers, hoperator⟩ := hannotated c hc u hu
    rw [← hheld.kind] at hcovers hoperator
    exact ⟨fun _ => hcovers.type, fun hk hne => (hcovers.binding hk).resolve_left hne, hoperator⟩
  · have hkind : s.tree.kind m.root = .moduleRoot name := hheld.kind
    constructor <;> simp [hkind, NodeKind.isUse, NodeKind.isOperator]

/-- A module that has been analyzed without being stopped is completely annotated, and so is
every other one that has been analyzed: all nodes but module roots and imports have a type,
names and calls that are not wrong have a binding, and operators are left only where they are
wrong. A module is not analyzed again, also not while its analysis is under way. -/
theorem explained_of_analyzed (h : Reached s) (library : Library) (module : ModuleId)
    (hm : s.modules[module.index]? = some m) (hidle : m.started = true → m.analyzed = true) :
    IfReturns (analyze library module) s fun _ s' =>
      (∃ m', s'.modules[module.index]? = some m' ∧ m'.root = m.root ∧ m'.analyzed = true) ∧
      ∀ (i : Nat) m', s'.modules[i]? = some m' → m'.analyzed = true →
        ∀ j, s'.tree.Reaches m'.root j → j.Explained s' := by
  have hlt : module.index < s.modules.size := (Array.getElem?_eq_some_iff.mp hm).1
  refine (advances_analyze h library hlt).mono ?_ fun _ _ _ => trivial
  rintro - s' ⟨hreached, hleaves, hfinishes⟩
  refine ⟨?_, fun i m' hm' ha j hj => hreached.explained hm' ha hj⟩
  cases hstarted : m.started with
  | true => exact ⟨m, hleaves.started _ m hm hstarted, rfl, hidle hstarted⟩
  | false => exact ⟨_, hfinishes m hm hstarted, rfl, rfl⟩

theorem analyze_sum : ∃ s m s',
    (loadModule sumLibrary "sum" .null).start (.new "main") = (.ok ⟨0⟩, s) ∧
    s.modules[0]? = some m ∧ m.started = false ∧
    (analyze sumLibrary ⟨0⟩).start s = (.ok (), s') := by
  have h : (match (loadModule sumLibrary "sum" .null).start (.new "main") with
      | (.ok id, s) => id.index == 0 && s.modules[0]?.any (!·.started) &&
        ((analyze sumLibrary ⟨0⟩).start s).1.toBool
      | (.error _, _) => false) = true := by decide +kernel
  generalize (loadModule sumLibrary "sum" .null).start (.new "main") = r at h ⊢
  obtain ⟨_ | id, s⟩ := r
  · simp at h
  · obtain ⟨index⟩ := id
    simp only [Bool.and_eq_true, beq_iff_eq, Option.any_eq_true] at h
    obtain ⟨⟨rfl, m, hm, hidle⟩, hok⟩ := h
    rcases hr : (analyze sumLibrary ⟨0⟩).start s with ⟨_ | _, s'⟩
    · simp [hr, Except.toBool] at hok
    · exact ⟨s, m, s', rfl, hm, by simpa using hidle, hr⟩

theorem explained_of_analyzed_sum : ∃ s m s',
    (loadModule sumLibrary "sum" .null).start (.new "main") = (.ok ⟨0⟩, s) ∧
    s.modules[0]? = some m ∧ (analyze sumLibrary ⟨0⟩).start s = (.ok (), s') ∧
    (∃ m', s'.modules[0]? = some m' ∧ m'.root = m.root ∧ m'.analyzed = true) ∧
    ∀ (i : Nat) m', s'.modules[i]? = some m' → m'.analyzed = true →
      ∀ j, s'.tree.Reaches m'.root j → j.Explained s' := by
  obtain ⟨s, m, s', hload, hm, hidle, hanalyze⟩ := analyze_sum
  have h := explained_of_analyzed (reached_sum hload) sumLibrary ⟨0⟩ hm (by simp [hidle])
  unfold IfReturns Triple at h
  rw [hanalyze] at h
  exact ⟨s, m, s', hload, hm, hanalyze, h⟩

end BlockLang
