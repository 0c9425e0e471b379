import BlockLang.Proofs.Grammar.Ends
import BlockLang.Proofs.Program.Journal
import BlockLang.Proofs.Program.Tour
import Mathlib.Data.List.Pairwise
import Mathlib.Data.List.Perm.Subperm

/-!
# Modules are analyzed once

The analysis of a program is a tour of its modules from the root. Its journal and the marks of
the modules agree with the tour at any time (`Tracks`), so that what holds of tours holds of
the program (`analyzed_once`). Building again changes nothing (`build_again`).
-/

namespace BlockLang

open Relation (ReflTransGen)
open BlockLang.Tree (idsOf)

/-- Reading a text meets no bound. -/
theorem parseText_ne_endless (name path text : String) (s : Session) :
    Triple (parseText name path text) s (fun _ _ => True) fun e _ => e ≠ .fault .endless := by
  unfold parseText
  refine triple_bind.mpr (triple_get.mpr (triple_bind.mpr (triple_set.mpr ?_)))
  split
  · exact nofun
  · next tokens htokens =>
    refine triple_bind.mpr (triple_adapt.mpr ?_)
    refine (parseModule_ne_endless htokens path _).mono (fun _ _ _ => trivial) fun e _ he => ?_
    cases e with
    | rejected diagnostic => exact nofun
    | fault fault => exact he

-- ---------------------------------------------------------------------------
-- What a module imports
-- ---------------------------------------------------------------------------

theorem Arena.import?_congr {a b : Arena} {id : NodeId} (h : b.label id = a.label id) :
    b.import? id = a.import? id := by
  unfold label at h
  unfold import? kind span get
  cases ha : a.nodes[id.index]? <;> cases hb : b.nodes[id.index]? <;> simp_all

section
variable {s s' : Session} {m : Module} {t : Tree}

/-- A module imports the same as long as its tree stays. -/
theorem Session.imports_congr {id : ModuleId} {p p' : Option NodeId}
    (hroot : t.handle = (s.module id).root) (hroot' : (s'.module id).root = (s.module id).root)
    (h : s.tree.Holds p t) (h' : s'.tree.Holds p' t)
    (hl : ∀ j l, j ∈ t.ids → s.tree.label j = some l → s'.tree.label j = some l) :
    s'.imports id = s.imports id := by
  unfold imports
  rw [hroot', ← hroot, h.children, h'.children]
  refine List.filterMap_congr fun j hj => Arena.import?_congr ?_
  obtain ⟨c, hc, rfl⟩ := List.mem_map.mp hj
  have hid : c.handle ∈ t.ids := Tree.mem_ids.mpr ⟨c, Tree.child_mem_subtrees hc, rfl⟩
  obtain ⟨l, hlabel⟩ := Arena.exists_label (h.lt_size _ hid)
  rw [hlabel, hl _ l hid hlabel]

/-- Reading a module changes no other one. -/
theorem HasRead.imports {us : List Tree} {name path source : String}
    (h : HasRead s name path source us s') (hf : s.tree.Forest us)
    (hlen : us.length = s.modules.size)
    (hspells : ∀ (i : Nat) m t, s.modules[i]? = some m → us[i]? = some t → m.Spells s t)
    {i : Nat} (hm : s.modules[i]? = some m) : s'.imports ⟨i⟩ = s.imports ⟨i⟩ := by
  have hmodules := h.modules
  have hlt := (Array.getElem?_eq_some_iff.mp hm).1
  obtain ⟨_, _, ts, hf', _, _, ha⟩ := h
  have hlabels := (s.extends_addModule name path source).trans ha.labels
  have ht : us[i]? = some us[i] := List.getElem?_eq_getElem (hlen ▸ hlt)
  have hmem := List.mem_of_getElem? ht
  have hm' : s'.modules[i]? = some m := by
    rw [hmodules, Array.getElem?_push_lt hlt, ← hm, Array.getElem?_eq_getElem hlt]
  refine Session.imports_congr (t := us[i]) ?_ ?_ (Arena.holdsAll_iff.mp hf.1 _ hmem)
    (Arena.holdsAll_iff.mp hf'.1 _ (List.mem_cons_of_mem _ hmem)) fun j l _ hl => hlabels j l hl
  · simpa [Session.module, hm] using (hspells i m _ hm ht).root
  · simp [Session.module, hm, hm']

/-- Analyzing a module changes what no other one imports. -/
theorem Session.Sound.imports_analyzeTree (h : s.Sound) {id : ModuleId}
    (hm : s.modules[id.index]? = some m) (hopen : m.analyzed = false) :
    IfReturns (BlockLang.analyzeTree m.root) s fun _ s' => ∀ (i : Nat) m', s.modules[i]? = some m' →
      i ≠ id.index → s'.imports ⟨i⟩ = s.imports ⟨i⟩ := by
  obtain ⟨ts, name, cs, hf, hlen, hspells, ht⟩ := h.exists_tree hm
  have hi : id.index < ts.length := (List.getElem?_eq_some_iff.mp ht).1
  unfold BlockLang.analyzeTree IfReturns
  simp only [triple_bind]
  refine (returns_passes true h.inScope (hf.front ht) ((hspells id.index m _ hm ht).read hopen)
    (pure .error)).triple.imp fun _ s₁ hrun => hrun.triple.imp fun _ s₂ hrun => hrun.triple.imp ?_
  rintro - s' ⟨cs₂, cs', -, -, -, hreworks, -⟩ i m' hm' hne
  have hmodules : s'.modules = s.modules := congrArg Names.modules hreworks.proceeds.names
  have hlt : i < ts.length := hlen ▸ (Array.getElem?_eq_some_iff.mp hm').1
  have ht' : ts[i]? = some ts[i] := List.getElem?_eq_getElem hlt
  have hmem : ts[i] ∈ ts.eraseIdx id.index :=
    List.mem_eraseIdx_iff_getElem?.mpr ⟨i, hne, ht'⟩
  refine Session.imports_congr (t := ts[i]) ?_ ?_
    (Arena.holdsAll_iff.mp hf.1 _ (List.getElem_mem hlt))
    (Arena.holdsAll_iff.mp hreworks.forest.1 _ (List.mem_cons_of_mem _ hmem)) fun j l hj hl => ?_
  · simpa [Session.module, hm'] using (hspells i m' _ hm' ht').root
  · simp [Session.module, hmodules]
  · exact hreworks.proceeds.labels j l (not_not.mpr (Tree.mem_idsOf.mpr ⟨_, hmem, hj⟩)) hl

-- ---------------------------------------------------------------------------
-- Loading
-- ---------------------------------------------------------------------------

/-- A module that was not known has come to the others. -/
structure Joins (library : Library) (s : Session) (name : String) (s' : Session) (m : Module) :
    Prop where
  modules : s'.modules = s.modules.push m
  called : m.name = name
  idle : m.started = false ∧ m.analyzed = false
  text : ∃ path text, library.find name = .text path text
  imports : ∀ (i : Nat) m, s.modules[i]? = some m → s'.imports ⟨i⟩ = s.imports ⟨i⟩

/-- A module is known, or it joins the others. Looking for it comes to an end. -/
theorem Session.Sound.joins (h : s.Sound) (library : Library) (name : String)
    (position : Position) :
    Triple (BlockLang.loadModule library name position) s
      (fun id s' => s.findModule? name = some id ∧ s' = s ∨
        s.findModule? name = none ∧ id = ⟨s.modules.size⟩ ∧ ∃ m, Joins library s name s' m)
      fun e _ => e ≠ .fault .endless := by
  unfold BlockLang.loadModule
  refine triple_bind.mpr (triple_get.mpr ?_)
  split
  · next id hfind => exact .inl ⟨hfind, rfl⟩
  · next hfind =>
    split
    · next path text htext =>
      obtain ⟨us, hf, hlen, hspells⟩ := h.trees
      have hread := (h.hasRead hf name path text).mono (E := fun _ _ => True) (fun _ _ h => h)
        fun _ _ _ => trivial
      refine ((parseText_ne_endless name path text s).and hread).imp ?_
      rintro id s' ⟨-, rfl, hread⟩
      exact .inr ⟨hfind, rfl, _, hread.modules, rfl, ⟨rfl, rfl⟩, ⟨path, text, htext⟩,
        fun i m hm => hread.imports hf hlen hspells hm⟩
    · exact nofun
    · exact nofun

-- ---------------------------------------------------------------------------
-- The journal of a tour
-- ---------------------------------------------------------------------------

def Session.moduleNames (s : Session) : List String := s.modules.toList.map Module.name

/-- The module that has been read. -/
def Event.read? : Event → Option String
  | read name _ => some name
  | _ => none

def Event.isPass : Event → Bool
  | read .. => false
  | _ => true

/-- What is written down about the passes over a module. -/
def passEvents (name : String) : List Event :=
  Phase.all.flatMap fun phase => [.starts phase name, .ends phase name]

/-- The journal says which modules are there and what has been done with them, and so do the
marks of the modules. The analysis of `begun` has begun, and that of `ended` has ended. -/
structure Tracks (library : Library) (s : Session) (journal : List Event)
    (begun ended : List String) : Prop where
  reached : Reached s
  read : journal.filterMap Event.read? = s.moduleNames
  distinct : s.moduleNames.Nodup
  text : ∀ n ∈ s.moduleNames, ∃ path text, library.find n = .text path text
  known : begun ⊆ s.moduleNames
  once : begun.Nodup
  within : ended ⊆ begun
  started : ∀ (i : Nat) m, s.modules[i]? = some m → (m.started = true ↔ m.name ∈ begun)
  analyzed : ∀ (i : Nat) m, s.modules[i]? = some m → (m.analyzed = true ↔ m.name ∈ ended)
  /-- What is not yet begun is as it was read. -/
  imports : ∀ (i : Nat) m items, s.modules[i]? = some m → m.started = false →
    .read m.name items ∈ journal → (s.imports ⟨i⟩).map (·.name) = items
  passes : journal.filter Event.isPass = ended.flatMap passEvents

theorem Session.getElem?_moduleNames (s : Session) (i : Nat) :
    s.moduleNames[i]? = (s.modules[i]?).map Module.name := by
  simp [moduleNames]

theorem Session.moduleNames_congr (h : s'.modules = s.modules) :
    s'.moduleNames = s.moduleNames := congrArg (·.toList.map Module.name) h

theorem Session.mem_moduleNames {n : String} :
    n ∈ s.moduleNames ↔ ∃ (i : Nat) (m : Module), s.modules[i]? = some m ∧ m.name = n := by
  rw [List.mem_iff_getElem?]
  simp only [getElem?_moduleNames, Option.map_eq_some_iff]

theorem Session.findModule?_eq_some {name : String} {id : ModuleId}
    (h : s.findModule? name = some id) :
    ∃ m, s.modules[id.index]? = some m ∧ m.name = name := by
  obtain ⟨i, hi, rfl⟩ := Option.map_eq_some_iff.mp h
  obtain ⟨hlt, hname, -⟩ := Array.findIdx?_eq_some_iff_getElem.mp hi
  exact ⟨_, Array.getElem?_eq_getElem hlt, by simpa using hname⟩

theorem Session.not_mem_of_findModule? {name : String} (h : s.findModule? name = none) :
    name ∉ s.moduleNames := by
  rw [findModule?, Option.map_eq_none_iff, Array.findIdx?_eq_none_iff] at h
  rw [mem_moduleNames]
  rintro ⟨i, m, hm, rfl⟩
  simpa using h m (Array.mem_of_getElem? hm)

theorem Session.moduleNames_modifyModule (s : Session) (id : ModuleId) {f : Module → Module}
    (hf : ∀ m, (f m).name = m.name) : (s.modifyModule id f).moduleNames = s.moduleNames := by
  refine List.ext_getElem? fun i => ?_
  rw [getElem?_moduleNames, getElem?_moduleNames, getElem?_modifyModule]
  split
  · cases s.modules[i]? <;> simp [hf]
  · rfl

theorem Session.imports_modifyModule (s : Session) (id : ModuleId) {f : Module → Module}
    (hf : ∀ m, (f m).root = m.root) (module : ModuleId) :
    (s.modifyModule id f).imports module = s.imports module := by
  have hroot : ((s.modifyModule id f).module module).root = (s.module module).root := by
    rw [Session.module, getElem?_modifyModule]
    split
    · cases hm : s.modules[module.index]? <;> simp [Session.module, hm, hf]
    · rfl
  unfold imports
  rw [hroot]
  rfl

theorem Session.modifyModule_cases {id : ModuleId} {f : Module → Module} {i : Nat} {m' : Module}
    (hm : s.modules[id.index]? = some m) (hm' : (s.modifyModule id f).modules[i]? = some m') :
    i = id.index ∧ m' = f m ∨ i ≠ id.index ∧ s.modules[i]? = some m' := by
  rw [s.getElem?_modifyModule] at hm'
  split at hm'
  · next hi =>
    rw [← hi, hm] at hm'
    exact .inl ⟨hi.symm, (Option.some.inj hm').symm⟩
  · next hi => exact .inr ⟨fun he => hi he.symm, hm'⟩

namespace Tracks

variable {library : Library} {journal : List Event} {b e : List String}

theorem new (library : Library) (entrySymbol : String) :
    Tracks library (.new entrySymbol) [] [] [] := by
  have hmodules := modules_new entrySymbol
  have hnames : (Session.new entrySymbol).moduleNames = [] := by
    simp [Session.moduleNames, hmodules]
  have hnone : ∀ (i : Nat) m, (Session.new entrySymbol).modules[i]? ≠ some m := by
    simp [hmodules]
  exact ⟨.new entrySymbol, hnames.symm, by simp [hnames], by simp [hnames], List.nil_subset _,
    List.nodup_nil, List.nil_subset _, fun i m hm => absurd hm (hnone i m),
    fun i m hm => absurd hm (hnone i m), fun i m _ hm => absurd hm (hnone i m), rfl⟩

theorem index_eq (h : Tracks library s journal b e) {i k : Nat} {m' : Module}
    (hm : s.modules[i]? = some m) (hm' : s.modules[k]? = some m') (hn : m.name = m'.name) :
    i = k := by
  have hi : s.moduleNames[i]? = some m.name := by rw [s.getElem?_moduleNames, hm]; rfl
  have hk : s.moduleNames[k]? = some m.name := by rw [s.getElem?_moduleNames, hm', hn]; rfl
  exact (List.getElem?_inj (List.getElem?_eq_some_iff.mp hi).1 h.distinct).mp (hi.trans hk.symm)

theorem exists_read (h : Tracks library s journal b e) {i : Nat} (hm : s.modules[i]? = some m) :
    ∃ items, .read m.name items ∈ journal := by
  have hname : m.name ∈ journal.filterMap Event.read? :=
    h.read ▸ Session.mem_moduleNames.mpr ⟨i, m, hm, rfl⟩
  obtain ⟨event, hevent, hread⟩ := List.mem_filterMap.mp hname
  cases event with
  | read name items => exact ⟨items, Option.some.inj hread ▸ hevent⟩
  | starts phase name => cases hread
  | ends phase name => cases hread

/-- Modules keep their names. -/
theorem exists_module {journal' : List Event} {b' e' : List String}
    (h : Tracks library s journal b e) (h' : Tracks library s' journal' b' e')
    (hj : journal <+: journal') {i : Nat} (hm : s.modules[i]? = some m) :
    ∃ m', s'.modules[i]? = some m' ∧ m'.name = m.name := by
  have hnames : s.moduleNames <+: s'.moduleNames := by
    rw [← h.read, ← h'.read]
    exact hj.filterMap _
  obtain ⟨more, hmore⟩ := hnames
  have hname : s.moduleNames[i]? = some m.name := by rw [s.getElem?_moduleNames, hm]; rfl
  have hlt := (List.getElem?_eq_some_iff.mp hname).1
  rw [← List.getElem?_append_left hlt, hmore, s'.getElem?_moduleNames] at hname
  exact Option.map_eq_some_iff.mp hname

/-- Nothing of the modules changes. -/
theorem congr (h : Tracks library s journal b e) (hr : Reached s') (hm : s'.modules = s.modules)
    (ht : s'.tree = s.tree) : Tracks library s' journal b e := by
  have hnames := Session.moduleNames_congr hm
  refine ⟨hr, hnames ▸ h.read, hnames ▸ h.distinct, hnames ▸ h.text, hnames ▸ h.known, h.once,
    h.within, hm ▸ h.started, hm ▸ h.analyzed, fun i m items hi => ?_, h.passes⟩
  have himports : s'.imports ⟨i⟩ = s.imports ⟨i⟩ := by
    simp only [Session.imports, Session.module, hm, ht]
  rw [himports]
  exact h.imports i m items (hm ▸ hi)

/-- A module is written down when it joins. -/
theorem join {name : String} (h : Tracks library s journal b e) (hr : Reached s')
    (hnew : name ∉ s.moduleNames) (hj : Joins library s name s' m) :
    Tracks library s'
      (journal ++ [.read name ((s'.imports ⟨s.modules.size⟩).map (·.name))]) b e := by
  obtain ⟨hmodules, rfl, ⟨hidle, hopen⟩, htext, himports⟩ := hj
  have hnames : s'.moduleNames = s.moduleNames ++ [m.name] := by
    simp [Session.moduleNames, hmodules]
  have hcases : ∀ (i : Nat) m', s'.modules[i]? = some m' →
      s.modules[i]? = some m' ∨ i = s.modules.size ∧ m' = m := by
    intro i m' hm'
    rw [hmodules, Array.getElem?_push] at hm'
    split at hm'
    · next hi => exact .inr ⟨hi, (Option.some.inj hm').symm⟩
    · exact .inl hm'
  have hold : ∀ {items}, .read m.name items ∉ journal := by
    intro items hread
    exact hnew (h.read ▸ List.mem_filterMap.mpr ⟨_, hread, rfl⟩)
  refine ⟨hr, ?_, ?_, ?_, ?_, h.once, h.within, fun i m' hm' => ?_, fun i m' hm' => ?_,
    fun i m' items hm' hs hread => ?_, ?_⟩
  · simp [hnames, h.read, Event.read?]
  · rw [hnames]
    exact List.nodup_append.mpr ⟨h.distinct, List.nodup_singleton _,
      fun x hx y hy hxy => hnew (List.mem_singleton.mp hy ▸ hxy ▸ hx)⟩
  · rw [hnames]
    intro n hn
    rcases List.mem_append.mp hn with hn | hn
    · exact h.text n hn
    · exact List.mem_singleton.mp hn ▸ htext
  · rw [hnames]
    exact fun n hn => List.mem_append_left _ (h.known hn)
  · rcases hcases i m' hm' with hm' | ⟨-, rfl⟩
    · exact h.started i m' hm'
    · simpa [hidle] using fun hb => hnew (h.known hb)
  · rcases hcases i m' hm' with hm' | ⟨-, rfl⟩
    · exact h.analyzed i m' hm'
    · simpa [hopen] using fun he => hnew (h.known (h.within he))
  · rcases List.mem_append.mp hread with hin | hin
    · rcases hcases i m' hm' with hm' | ⟨-, rfl⟩
      · rw [himports i m' hm']
        exact h.imports i m' items hm' hs hin
      · exact absurd hin hold
    · obtain ⟨hname, rfl⟩ := Event.read.inj (List.mem_singleton.mp hin)
      rcases hcases i m' hm' with hm' | ⟨rfl, -⟩
      · exact absurd (hname ▸ Session.mem_moduleNames.mpr ⟨i, m', hm', rfl⟩) hnew
      · rfl
  · simp [h.passes, Event.isPass]

theorem begin (h : Tracks library s journal b e) {id : ModuleId}
    (hm : s.modules[id.index]? = some m) (hidle : m.name ∉ b) :
    Tracks library (s.modifyModule id ({ · with started := true })) journal (m.name :: b) e := by
  have hnames := s.moduleNames_modifyModule id (f := ({ · with started := true })) fun _ => rfl
  have himports := s.imports_modifyModule id (f := ({ · with started := true })) fun _ => rfl
  refine ⟨h.reached.begin id, hnames ▸ h.read, hnames ▸ h.distinct, hnames ▸ h.text, ?_,
    List.nodup_cons.mpr ⟨hidle, h.once⟩, fun n hn => List.mem_cons_of_mem _ (h.within hn),
    fun i m' hm' => ?_, fun i m' hm' => ?_, fun i m' items hm' hs hread => ?_, h.passes⟩
  · rw [hnames]
    exact List.cons_subset.mpr ⟨Session.mem_moduleNames.mpr ⟨_, m, hm, rfl⟩, h.known⟩
  · rcases Session.modifyModule_cases hm hm' with ⟨-, rfl⟩ | ⟨hi, hm'⟩
    · simp
    · have hne : m'.name ≠ m.name := fun hn => hi (h.index_eq hm' hm hn)
      simpa [hne] using h.started i m' hm'
  · rcases Session.modifyModule_cases hm hm' with ⟨-, rfl⟩ | ⟨-, hm'⟩
    · exact h.analyzed _ m hm
    · exact h.analyzed i m' hm'
  · rcases Session.modifyModule_cases hm hm' with ⟨-, rfl⟩ | ⟨-, hm'⟩
    · cases hs
    · rw [himports]
      exact h.imports i m' items hm' hs hread

theorem finish (h : Tracks library s journal b e) {id : ModuleId}
    (hm : s.modules[id.index]? = some m) (hbegun : m.name ∈ b)
    (hr : Reached (s'.modifyModule id ({ · with analyzed := true })))
    (hmodules : s'.modules = s.modules)
    (himports : ∀ (i : Nat) m', s.modules[i]? = some m' → i ≠ id.index →
      s'.imports ⟨i⟩ = s.imports ⟨i⟩) :
    Tracks library (s'.modifyModule id ({ · with analyzed := true }))
      (journal ++ passEvents m.name) b (e ++ [m.name]) := by
  have hnames : (s'.modifyModule id ({ · with analyzed := true })).moduleNames = s.moduleNames := by
    rw [s'.moduleNames_modifyModule id (f := ({ · with analyzed := true })) fun _ => rfl,
      Session.moduleNames_congr hmodules]
  have hsame := s'.imports_modifyModule id (f := ({ · with analyzed := true })) fun _ => rfl
  have hnone : (passEvents m.name).filterMap Event.read? = [] := rfl
  refine ⟨hr, ?_, hnames ▸ h.distinct, hnames ▸ h.text, hnames ▸ h.known, h.once, ?_,
    fun i m' hm' => ?_, fun i m' hm' => ?_, fun i m' items hm' hs hread => ?_, ?_⟩
  · rw [hnames, List.filterMap_append, hnone, List.append_nil, h.read]
  · exact List.append_subset.mpr ⟨h.within, by simpa using hbegun⟩
  · rcases Session.modifyModule_cases (hmodules ▸ hm) hm' with ⟨-, rfl⟩ | ⟨-, hm'⟩
    · exact h.started _ m hm
    · exact h.started i m' (hmodules ▸ hm')
  · rcases Session.modifyModule_cases (hmodules ▸ hm) hm' with ⟨-, rfl⟩ | ⟨hi, hm'⟩
    · simp
    · have hne : m'.name ≠ m.name := fun hn => hi (h.index_eq (hmodules ▸ hm') hm hn)
      simpa [hne] using h.analyzed i m' (hmodules ▸ hm')
  · rcases Session.modifyModule_cases (hmodules ▸ hm) hm' with ⟨-, rfl⟩ | ⟨hi, hm'⟩
    · exact absurd ((h.started _ m hm).mpr hbegun) (by simpa using hs)
    · have hm' := hmodules ▸ hm'
      rw [hsame, himports i m' hm' hi]
      refine h.imports i m' items hm' hs ?_
      simpa [passEvents, Phase.all] using hread
  · have hall : (passEvents m.name).filter Event.isPass = passEvents m.name := rfl
    rw [List.filter_append, h.passes, hall, List.flatMap_append, List.flatMap_singleton]

end Tracks

-- ---------------------------------------------------------------------------
-- Runs
-- ---------------------------------------------------------------------------

/-- What is known of the session that a task leaves. -/
theorem Triple.left_and {task : Task ε α} {P : Session → Prop} {Q : α → Session → Prop}
    {E : ε → Session → Prop} (h : Triple task s Q E) (hp : P (task.start s).2) :
    Triple task s (fun a s' => P s' ∧ Q a s') E := by
  unfold Triple at h ⊢
  rcases hr : task.start s with ⟨_ | a, s'⟩ <;> rw [hr] at h hp
  · exact h
  · exact ⟨hp, h⟩

theorem Triple.ne_error {task : Task ε α} {Q : α → Session → Prop} {E : ε → Session → Prop}
    {e : ε} (h : Triple task s Q E) (he : ∀ s', ¬ E e s') : (task.start s).1 ≠ .error e := by
  unfold Triple at h
  rcases hr : task.start s with ⟨e' | a, s'⟩ <;> rw [hr] at h
  · rintro ⟨⟩
    exact he s' h
  · exact nofun

/-- If `p` returns, `Q` holds of its result, the journal and the session. It meets no bound. -/
def Runs (p : Recorded α) (s : Session) (journal : List Event)
    (Q : α → List Event → Session → Prop) : Prop :=
  Triple (p.run journal) s (fun r s' => Q r.1 r.2 s') fun e _ => e ≠ .fault .endless

section
variable {library : Library} {journal : List Event} {b e : List String} {p : Recorded α}
  {f : α → Recorded β} {Q : α → List Event → Session → Prop} {R : β → List Event → Session → Prop}

theorem Runs.bind (hp : Runs p s journal Q)
    (hf : ∀ a journal' s', Q a journal' s' → Runs (f a) s' journal' R) :
    Runs (p >>= f) s journal R := by
  unfold Runs
  rw [StateT.run_bind, triple_bind]
  exact hp.imp fun r s' hr => hf r.1 r.2 s' hr

theorem Runs.imp {R : α → List Event → Session → Prop} (hp : Runs p s journal Q)
    (h : ∀ a journal' s', Q a journal' s' → R a journal' s') : Runs p s journal R :=
  Triple.imp hp fun r s' hr => h r.1 r.2 s' hr

/-- The same without the journal. -/
theorem Runs.forget {task : Task Stop α} (hp : Runs p s journal Q) (hf : p.Forgets task) :
    Triple task s (fun a s' => ∃ journal', Q a journal' s') fun e _ => e ≠ .fault .endless := by
  rw [← hf journal, triple_map]
  exact Triple.imp hp fun r _ hr => ⟨r.2, hr⟩

theorem runs_doing {task : Task Stop α}
    (h : Triple task s (fun a s' => Runs (f a) s' journal R) fun e _ => e ≠ .fault .endless) :
    Runs (.doing task >>= f) s journal R := by
  unfold Runs Recorded.doing
  rw [StateT.run_bind, triple_bind, StateT.run_lift, triple_bind]
  exact h

theorem runs_note {event : Event} {f : Unit → Recorded β}
    (h : Runs (f ()) s (journal ++ [event]) R) : Runs (Recorded.note event >>= f) s journal R := h

theorem runs_runPhase {phase : Phase} {f : Unit → Recorded β}
    (h : Returns (phase.run m.root) s fun _ s' =>
      Runs (f ()) s' (journal ++ [.starts phase m.name, .ends phase m.name]) R) :
    Runs (Recorded.runPhase m phase >>= f) s journal R := by
  unfold Recorded.runPhase
  simp only [bind_assoc]
  refine runs_note (runs_doing (triple_adapt.mpr (h.triple.imp fun _ s' hf => runs_note ?_)))
  simpa using hf

/-- The passes over a module, one after the other. -/
theorem runs_phases {f : Unit → Recorded β}
    (h : Returns (analyzeTree m.root) s fun _ s' =>
      Runs (f ()) s' (journal ++ passEvents m.name) R) :
    Runs (Phase.all.forM (Recorded.runPhase m) >>= f) s journal R := by
  have hforM : Phase.all.forM (Recorded.runPhase m) >>= f = (do
      Recorded.runPhase m .normalize
      Recorded.runPhase m .lower
      Recorded.runPhase m .infer
      f ()) := by
    simp [Phase.all, List.forM_eq_forM]
  rw [hforM]
  unfold analyzeTree Returns at h
  simp only [triple_bind] at h
  refine runs_runPhase (h.imp fun _ s₁ h => runs_runPhase (h.imp fun _ s₂ h =>
    runs_runPhase (h.imp fun _ s₃ h => ?_)))
  simpa [passEvents, Phase.all] using h

/-- What loading leaves: a module of that name, and no other new one. -/
theorem Tracks.runs_load (h : Tracks library s journal b e) (name : String) (position : Position) :
    Runs (Recorded.load library name position) s journal fun id journal' s' =>
      Tracks library s' journal' b e ∧ journal <+: journal' ∧
        (∃ m, s'.modules[id.index]? = some m ∧ m.name = name) ∧
        s'.moduleNames ⊆ name :: s.moduleNames := by
  have hload := (h.reached.sound.joins library name position).left_and
    (h.reached.load library name position)
  refine runs_doing (triple_get.mpr (runs_doing (hload.imp ?_)))
  rintro id s' ⟨hr, ⟨hfind, rfl⟩ | ⟨hfind, rfl, m, hjoins⟩⟩
  · simp only [hfind, Option.isNone_some, Bool.false_eq_true, if_false]
    exact ⟨h, List.prefix_refl _, Session.findModule?_eq_some hfind, List.subset_cons_self _ _⟩
  · simp only [hfind, Option.isNone_none, if_true]
    have hnew := Session.not_mem_of_findModule? hfind
    refine ⟨h.join hr hnew hjoins, List.prefix_append _ _, ⟨m, ?_, hjoins.called⟩, ?_⟩
    · simp [hjoins.modules]
    · intro n hn
      simp only [Session.moduleNames, hjoins.modules, Array.toList_push, List.map_append,
        List.map_cons, List.map_nil, hjoins.called, List.mem_append, List.mem_singleton] at hn
      rcases hn with hn | rfl
      · exact List.mem_cons_of_mem _ hn
      · exact List.mem_cons_self

/-- The passes over a module and its mark. -/
theorem Tracks.runs_finish (h : Tracks library s journal b e) {id : ModuleId}
    (hm : s.modules[id.index]? = some m) (hbegun : m.name ∈ b) (hopen : m.name ∉ e) :
    Runs (do
        Phase.all.forM (Recorded.runPhase ((← Recorded.doing get).module id))
        Recorded.doing (modify (·.modifyModule id ({ · with analyzed := true })))) s journal
      fun _ journal' s' => Tracks library s' journal' b (e ++ [m.name]) ∧ journal <+: journal' ∧
        s'.moduleNames = s.moduleNames := by
  have hmodule : s.module id = m := by simp [Session.module, hm]
  have hstarted : m.started = true := (h.started _ m hm).mpr hbegun
  have hidle : m.analyzed = false := by
    have := mt (h.analyzed _ m hm).mp hopen
    simpa using this
  have hpasses := ((h.reached.sound.analyzeTree hm hstarted hidle).and
    (h.reached.sound.imports_analyzeTree hm hidle)).left_and
    (P := fun s' => Reached (s'.modifyModule id ({ · with analyzed := true })))
    (h.reached.analyze id hm hstarted hidle)
  refine runs_doing (triple_get.mpr ?_)
  rw [hmodule]
  refine runs_phases (hpasses.imp ?_)
  rintro - s' ⟨hr, ⟨-, hmodules⟩, himports⟩
  refine ⟨h.finish hm hbegun hr hmodules himports, List.prefix_append _ _, ?_⟩
  exact (s'.moduleNames_modifyModule id (f := ({ · with analyzed := true })) fun _ => rfl).trans
    (Session.moduleNames_congr hmodules)

/-- The library has a text for no more modules than it says. -/
def Library.Counts (library : Library) : Prop :=
  ∃ names : List String, names.length ≤ library.count ∧
    ∀ n path text, library.find n = .text path text → n ∈ names

/-- What is begun has a text in the library. -/
theorem Tracks.length_le (h : Tracks library s journal b e) (hlib : library.Counts) :
    b.length ≤ library.count := by
  obtain ⟨names, hlen, hnames⟩ := hlib
  have hsub : b ⊆ names := by
    intro n hn
    obtain ⟨path, text, hfind⟩ := h.text n (h.known hn)
    exact hnames n path text hfind
  exact Nat.le_trans (List.subperm_of_subset h.once hsub).length_le hlen

/-- The tour of `names` has come to its end, and with it the analysis of all new modules. -/
def Toured (library : Library) (s : Session) (journal : List Event) (b e names : List String)
    (journal' : List Event) (s' : Session) : Prop :=
  ∃ b' e', Tracks library s' journal' b' e' ∧ journal <+: journal' ∧
    Tour (fun n items => .read n items ∈ journal') b e names b' e' ∧
    s'.moduleNames ⊆ s.moduleNames ++ b'

theorem ifReturns_connect (module : ModuleId) (i : Import) (imported : ModuleId) :
    IfReturns (connect module i imported) s fun _ s' =>
      s'.modules = s.modules ∧ s'.tree = s.tree := by
  unfold connect Pass.editScopes IfReturns
  simp only [triple_bind, triple_get, Pass.triple_lookUp]
  split
  · exact ⟨rfl, rfl⟩
  · trivial

/-- Connecting modules goes unnoticed. -/
theorem Tracks.runs_connect (h : Tracks library s journal b e) (module : ModuleId) (i : Import)
    (imported : ModuleId) :
    Runs (.doing (connect module i imported).lift) s journal fun _ journal' s' =>
      journal' = journal ∧ Tracks library s' journal b e ∧ s'.modules = s.modules := by
  have hconnect := ((h.reached.sound.connect module i imported).and
    (ifReturns_connect module i imported)).left_and (h.reached.connect module i imported)
  rw [← bind_pure (Recorded.doing _)]
  refine runs_doing (triple_adapt.mpr (hconnect.mono ?_ fun _ _ he => he.elim))
  rintro - s' ⟨hr, -, hmodules, htree⟩
  exact ⟨rfl, h.congr hr hmodules htree, hmodules⟩

/-- The imports of a module are visited one after the other. -/
theorem Tracks.runs_imports {depth : Nat}
    (hrec : ∀ {s journal b e id m}, Tracks library s journal b e →
      s.modules[id.index]? = some m → library.count < depth + b.length →
      Runs (Recorded.analyzeWithin library depth id) s journal fun _ =>
        Toured library s journal b e [m.name])
    (module : ModuleId) (is : List Import) (h : Tracks library s journal b e)
    (hdepth : library.count < depth + b.length) :
    Runs (is.forM fun i => do
        let imported ← Recorded.load library i.name i.position
        Recorded.analyzeWithin library depth imported
        Recorded.doing (connect module i imported : Pass Unit)) s journal fun _ =>
      Toured library s journal b e (is.map (·.name)) := by
  induction is generalizing s journal b e with
  | nil => exact ⟨b, e, h, List.prefix_refl _, .nil, List.subset_append_left _ _⟩
  | cons i is ih =>
    have hfirst : Runs (do
        let imported ← Recorded.load library i.name i.position
        Recorded.analyzeWithin library depth imported
        Recorded.doing (connect module i imported : Pass Unit)) s journal fun _ =>
          Toured library s journal b e [i.name] := by
      refine (h.runs_load i.name i.position).bind ?_
      rintro imported j₁ s₁ ⟨h₁, hj₁, ⟨m, hm, hname⟩, hnames₁⟩
      refine (hrec h₁ hm hdepth).bind ?_
      rintro - j₂ s₂ ⟨b₂, e₂, h₂, hj₂, htour, hnames₂⟩
      refine (h₂.runs_connect module i imported).imp ?_
      rintro - _ s₃ ⟨rfl, h₃, hmodules⟩
      rw [hname] at htour
      refine ⟨b₂, e₂, h₃, hj₁.trans hj₂, htour, fun n hn => ?_⟩
      rw [Session.moduleNames_congr hmodules] at hn
      rcases List.mem_append.mp (hnames₂ hn) with hn | hn
      · rcases List.mem_cons.mp (hnames₁ hn) with rfl | hn
        · exact List.mem_append_right _ (htour.names_subset List.mem_cons_self)
        · exact List.mem_append_left _ hn
      · exact List.mem_append_right _ hn
    refine hfirst.bind ?_
    rintro - j₁ s₁ ⟨b₁, e₁, h₁, hj₁, htour₁, hnames₁⟩
    refine (ih h₁ (Nat.lt_of_lt_of_le hdepth (Nat.add_le_add_left htour₁.length_le _))).imp ?_
    rintro - j₂ s₂ ⟨b₂, e₂, h₂, hj₂, htour₂, hnames₂⟩
    refine ⟨b₂, e₂, h₂, hj₁.trans hj₂, .cons (htour₁.mono fun _ _ hr => hj₂.subset hr) htour₂,
      fun n hn => ?_⟩
    rcases List.mem_append.mp (hnames₂ hn) with hn | hn
    · rcases List.mem_append.mp (hnames₁ hn) with hn | hn
      · exact List.mem_append_left _ hn
      · exact List.mem_append_right _ (htour₂.begun_subset hn)
    · exact List.mem_append_right _ hn

/-- Analyzing a module is a tour, and its nesting stays below what the library has. -/
theorem Tracks.runs_analyzeWithin (hlib : library.Counts) (depth : Nat)
    (h : Tracks library s journal b e) {id : ModuleId} (hm : s.modules[id.index]? = some m)
    (hdepth : library.count < depth + b.length) :
    Runs (Recorded.analyzeWithin library depth id) s journal fun _ =>
      Toured library s journal b e [m.name] := by
  induction depth generalizing s journal b e id m with
  | zero =>
    have := h.length_le hlib
    omega
  | succ depth ih =>
    have hmodule : s.module id = m := by simp [Session.module, hm]
    refine runs_doing (triple_get.mpr ?_)
    rw [hmodule]
    split
    · next hstarted =>
      have hbegun := (h.started _ m hm).mp hstarted
      exact ⟨b, e, h, List.prefix_refl _, .skip hbegun .nil, List.subset_append_left _ _⟩
    · next hidle =>
      have hfresh : m.name ∉ b := mt (h.started _ m hm).mpr hidle
      obtain ⟨items, hread⟩ := h.exists_read hm
      have hitems := h.imports _ m items hm (by simpa using hidle) hread
      have himports := s.imports_modifyModule id (f := ({ · with started := true }))
        (fun _ => rfl) id
      refine runs_doing (triple_modify.mpr (runs_doing (triple_get.mpr ?_)))
      rw [himports]
      have hloop := Tracks.runs_imports (fun h hm hd => ih h hm hd) id (s.imports id)
        (h.begin hm hfresh) (by rw [List.length_cons]; omega)
      refine hloop.bind ?_
      rintro - j₁ s₁ ⟨b₁, e₁, h₁, hj₁, htour, hnames₁⟩
      obtain ⟨m₁, hm₁, hname⟩ := h.exists_module h₁ hj₁ hm
      have hopen := (htour.underway_iff m.name).mpr
        ⟨List.mem_cons_self, fun he => hfresh (h.within he)⟩
      refine (h₁.runs_finish hm₁ (hname ▸ hopen.1) (hname ▸ hopen.2)).imp ?_
      rintro - j₂ s₂ ⟨h₂, hj₂, hnames₂⟩
      have hbelow : Tour (fun n items => .read n items ∈ j₂) (m.name :: b) e items b₁ e₁ :=
        hitems ▸ htour.mono fun _ _ hr => hj₂.subset hr
      refine ⟨b₁, e₁ ++ [m.name], hname ▸ h₂, hj₁.trans hj₂,
        .enter hfresh ((hj₁.trans hj₂).subset hread) hbelow .nil, ?_⟩
      rw [hnames₂]
      rwa [s.moduleNames_modifyModule id (f := ({ · with started := true })) fun _ => rfl]
        at hnames₁

end

-- ---------------------------------------------------------------------------
-- Programs
-- ---------------------------------------------------------------------------

theorem Library.Counts.ofList (entries : List (String × Found)) :
    (Library.ofList entries).Counts := by
  refine ⟨entries.map Prod.fst, by simp [Library.ofList], fun n path text hfind => ?_⟩
  cases hlookup : entries.lookup n with
  | none => simp [Library.ofList, hlookup] at hfind
  | some found =>
    obtain ⟨left, right, rfl, -⟩ := List.lookup_eq_some_iff.mp hlookup
    simp

/-- The entry point is looked for in the end, and nothing of the modules changes. -/
theorem Session.Sound.entryPoint (h : s.Sound) (module : ModuleId) :
    Triple (BlockLang.entryPoint module) s (fun _ s' => s'.modules = s.modules)
      fun e s' => e ≠ .fault .endless ∧ s'.modules = s.modules := by
  have hscope : s.names.Has (s.module module).layers.privateLayer := (h.layers module).privateLayer
  have hfind := Learner.findVars (N := fun _ => False)
    (G := (·.Has (s.module module).layers.privateLayer)) (fun _ h => h) s.entrySymbol s
    h.inScope hscope
  have hrejected : ∀ d, Stop.rejected d ≠ .fault .endless := fun _ => Stop.noConfusion
  unfold BlockLang.entryPoint
  refine triple_bind.mpr (triple_get.mpr (triple_bind.mpr (triple_adapt.mpr ?_)))
  refine hfind.triple.imp fun found s₁ h₁ => ?_
  have hmodules₁ : s₁.modules = s.modules := congrArg Names.modules h₁.names
  split
  · exact ⟨hrejected _, hmodules₁⟩
  · have hresolve := Typing.learner_resolveOverload (N := fun _ => False)
      (G := (·.Has (s.module module).layers.privateLayer)) (fun _ h => h) s.entrySymbol .unit s₁
      (h₁.scoped h.inScope) (h₁.names ▸ hscope)
    refine triple_bind.mpr (triple_adapt.mpr (hresolve.triple.imp fun resolution s₂ h₂ => ?_))
    have hmodules₂ : s₂.modules = s.modules := (congrArg Names.modules h₂.names).trans hmodules₁
    cases resolution with
    | resolved decl signature =>
      refine triple_bind.mpr (triple_get.mpr ?_)
      split
      · exact hmodules₂
      · exact ⟨hrejected _, hmodules₂⟩
    | ambiguous first signature tied => exact ⟨hrejected _, hmodules₂⟩
    | noMatch => exact ⟨hrejected _, hmodules₂⟩
    | notDefined => exact ⟨hrejected _, hmodules₂⟩

/-- What the journal says that a module imports. -/
def ReadIn (journal : List Event) (name : String) (items : List String) : Prop :=
  .read name items ∈ journal

theorem Tracks.readIn_unique {library : Library} {journal : List Event} {b e : List String}
    (h : Tracks library s journal b e) {n : String} {items items' : List String}
    (hr : ReadIn journal n items) (hr' : ReadIn journal n items') : items = items' := by
  have hnodup : (journal.filterMap Event.read?).Nodup := h.read ▸ h.distinct
  have hsymm : Std.Symm fun x y : Event =>
      ∀ n, x.read? = some n → ∀ n', y.read? = some n' → n ≠ n' :=
    ⟨fun x y hxy n hn n' hn' => (hxy n' hn' n hn).symm⟩
  by_contra hne
  have hapart := (List.pairwise_filterMap.mp hnodup).forall hr hr'
    fun he => hne (Event.read.inj he).2
  exact hapart n rfl n rfl rfl

/-- Building a program is a tour from its root. -/
theorem runs_build {library : Library} (hlib : library.Counts) (root entrySymbol : String) :
    Runs (Recorded.build library root) (.new entrySymbol) [] fun module journal s =>
      (∃ m, s.modules[module.index]? = some m ∧ m.name = root) ∧
      ∃ b e, Tracks library s journal b e ∧ Tour (ReadIn journal) [] [] [root] b e ∧
        s.moduleNames ⊆ b := by
  have hnone : (Session.new entrySymbol).moduleNames = [] := by
    simp [Session.moduleNames, modules_new]
  refine ((Tracks.new library entrySymbol).runs_load root .null).bind ?_
  rintro module journal s ⟨h, -, ⟨m, hm, rfl⟩, hnames⟩
  have hanalyze := h.runs_analyzeWithin hlib (s.modules.size + library.count + 1) hm (by
    simp only [List.length_nil]
    omega)
  refine runs_doing (triple_get.mpr (hanalyze.bind ?_))
  rintro - journal' s' ⟨b, e, h', hj, htour, hnames'⟩
  refine ⟨h.exists_module h' hj hm, b, e, h', htour, fun n hn => ?_⟩
  rcases List.mem_append.mp (hnames' hn) with hn | hn
  · have hroot : n = m.name := by simpa [hnone] using hnames hn
    exact hroot ▸ htour.names_subset List.mem_cons_self
  · exact hn

theorem count_passEvents (names : List String) (phase : Phase) (n : String) :
    (names.flatMap passEvents).count (.starts phase n) = names.count n ∧
      (names.flatMap passEvents).count (.ends phase n) = names.count n := by
  induction names with
  | nil => exact ⟨rfl, rfl⟩
  | cons m names ih =>
    have hone : (passEvents m).count (.starts phase n) = [m].count n ∧
        (passEvents m).count (.ends phase n) = [m].count n := by
      cases phase <;> simp [passEvents, Phase.all, List.count_cons]
    rw [List.flatMap_cons, List.count_append, List.count_append, hone.1, hone.2, ih.1, ih.2,
      ← List.count_append]
    exact ⟨rfl, rfl⟩

theorem mem_passEvents {names : List String} {phase : Phase} {n : String} :
    (.starts phase n ∈ names.flatMap passEvents ↔ n ∈ names) ∧
      (.ends phase n ∈ names.flatMap passEvents ↔ n ∈ names) := by
  obtain ⟨hstarts, hends⟩ := count_passEvents names phase n
  rw [← List.count_pos_iff, ← List.count_pos_iff, ← List.count_pos_iff, hstarts, hends]
  exact ⟨Iff.rfl, Iff.rfl⟩

/-- A pass over a module that has ended has run once. -/
theorem Tracks.count_passes {library : Library} {journal : List Event} {b e : List String}
    (h : Tracks library s journal b e) (he : e.Nodup) {n : String} (hn : n ∈ e) (phase : Phase) :
    journal.count (.starts phase n) = 1 ∧ journal.count (.ends phase n) = 1 := by
  obtain ⟨hstarts, hends⟩ := count_passEvents e phase n
  rw [← h.passes, List.count_filter rfl, List.count_eq_one_of_mem he hn] at hstarts hends
  exact ⟨hstarts, hends⟩

/-- The passes over modules run in the order in which these end. -/
theorem Tracks.split_passes {library : Library} {journal : List Event} {b e : List String}
    (h : Tracks library s journal b e) (he : e.Nodup) {m n : String} (hbefore : Before e n m) :
    ∃ before after, journal = before ++ after ∧ (∀ phase, .ends phase n ∈ before) ∧
      ∀ phase, .starts phase m ∉ before := by
  obtain ⟨left, right, rfl, hn⟩ := hbefore
  have hpasses := h.passes
  rw [List.flatMap_append, List.filter_eq_append_iff] at hpasses
  obtain ⟨before, after, hjournal, hleft, -⟩ := hpasses
  refine ⟨before, after, hjournal, fun phase => ?_, fun phase hm => ?_⟩
  · have hends : .ends phase n ∈ left.flatMap passEvents := mem_passEvents.2.mpr hn
    exact (List.mem_filter.mp (hleft ▸ hends)).1
  · have hstarts : .starts phase m ∈ left.flatMap passEvents :=
      hleft ▸ List.mem_filter.mpr ⟨hm, rfl⟩
    exact List.disjoint_of_nodup_append he (mem_passEvents.1.mp hstarts) List.mem_cons_self

/-- If all modules have ended, all of them are marked. -/
theorem Tracks.analyzed_of_ended {library : Library} {journal : List Event} {b e : List String}
    (h : Tracks library s journal b e) (hended : ∀ n ∈ s.moduleNames, n ∈ e) :
    ∀ m ∈ s.modules, m.analyzed = true := by
  intro m hm
  obtain ⟨i, hi, rfl⟩ := Array.getElem_of_mem hm
  have hm := Array.getElem?_eq_getElem hi
  exact (h.analyzed i _ hm).mpr (hended _ (Session.mem_moduleNames.mpr ⟨i, _, hm, rfl⟩))

end

theorem sound_build (entries : List (String × Found)) (root entrySymbol : String) :
    Triple (build (.ofList entries) root) (.new entrySymbol) (fun _ s => s.Sound)
      fun e _ => e ≠ .fault .endless := by
  have hbuild := (runs_build (.ofList entries) root entrySymbol).forget
    (Recorded.forgets_build (.ofList entries) root)
  refine hbuild.imp ?_
  rintro module s ⟨journal, -, b, e, h, -⟩
  exact h.reached.sound

/-- Compiling comes to an end. -/
theorem compile_ne_endless (entries : List (String × Found)) (root entrySymbol : String) :
    ((compile (.ofList entries) root).start (.new entrySymbol)).1 ≠ .error (.fault .endless) := by
  have hends : Triple (compile (.ofList entries) root) (.new entrySymbol) (fun _ _ => True)
      fun e _ => e ≠ .fault .endless := by
    rw [compile_eq_build]
    refine triple_bind.mpr ((sound_build entries root entrySymbol).imp fun module s hs => ?_)
    exact triple_bind.mpr ((hs.entryPoint module).mono (fun _ _ _ => trivial) fun e _ he => he.1)
  exact hends.ne_error fun _ he => he rfl

/-- After a program has been built, compiling it changes nothing of the modules. -/
theorem modules_compile {library : Library} {root : String} {module : ModuleId} {s₀ s : Session}
    (h : (build library root).start s₀ = (.ok module, s)) (hs : s.Sound) :
    ((compile library root).start s₀).2.modules = s.modules := by
  rw [compile_eq_build, start_bind, h]
  refine Triple.left (P := fun s' => s'.modules = s.modules) (triple_bind.mpr ?_)
  exact (hs.entryPoint module).mono (fun _ _ h => h) fun _ _ h => h.2

/-- Compiling comes to an end, whatever imports what. If loading and analyzing succeed, the
modules are those that the root needs, under names of their own. All of them are analyzed, each
pass has run over each of them once, and the passes over a module start after those over a
module that it imports have ended, unless that one needs it in turn. -/
theorem analyzed_once (entries : List (String × Found)) (root entrySymbol : String) :
    let library := Library.ofList entries
    ((compile library root).start (.new entrySymbol)).1 ≠ .error (.fault .endless) ∧
    ∀ module s, (build library root).start (.new entrySymbol) = (.ok module, s) →
      ((compile library root).start (.new entrySymbol)).2.modules = s.modules ∧
      ∃ journal, ((Recorded.build library root).run []).start (.new entrySymbol) =
          (.ok (module, journal), s) ∧
        s.moduleNames.Nodup ∧ (∀ m ∈ s.modules, m.analyzed = true) ∧
        (∀ n, n ∈ s.moduleNames ↔ ReflTransGen (Imports (ReadIn journal)) root n) ∧
        (∀ n ∈ s.moduleNames, ∀ phase,
          journal.count (.starts phase n) = 1 ∧ journal.count (.ends phase n) = 1) ∧
        ∀ m n, m ∈ s.moduleNames → Imports (ReadIn journal) m n →
          ¬ ReflTransGen (Imports (ReadIn journal)) n m →
          ∃ before after, journal = before ++ after ∧ (∀ phase, .ends phase n ∈ before) ∧
            ∀ phase, .starts phase m ∉ before := by
  intro library
  refine ⟨compile_ne_endless entries root entrySymbol, fun module s hs => ?_⟩
  obtain ⟨journal, hjournal⟩ := (Recorded.forgets_build library root).exists_journal [] hs
  have hbuild := runs_build (.ofList entries : library.Counts) root entrySymbol
  unfold Runs Triple at hbuild
  rw [hjournal] at hbuild
  obtain ⟨-, b, e, htracks, htour, hnames⟩ := hbuild
  obtain ⟨hnodup, hended, hneeds, hsettled⟩ :=
    htour.of_root fun n items items' => htracks.readIn_unique
  have hmem : ∀ n, n ∈ s.moduleNames ↔ n ∈ e := fun n =>
    ⟨fun hn => (hended n).mp (hnames hn), fun hn => htracks.known (htracks.within hn)⟩
  refine ⟨modules_compile hs htracks.reached.sound, journal, hjournal, htracks.distinct,
    htracks.analyzed_of_ended fun n => (hmem n).mp, fun n => (hmem n).trans (hneeds n),
    fun n hn => htracks.count_passes hnodup ((hmem n).mp hn), fun m n hm hmn hnot => ?_⟩
  have hbefore := (hsettled m ((hmem m).mp hm) n hmn).2.resolve_right hnot
  exact htracks.split_passes hnodup hbefore

/-- Two modules that import each other, one of them also itself. -/
def cycleEntries : List (String × Found) :=
  [("main", .text "main.lang" "import a;"),
    ("a", .text "a.lang" "import a; import main;")]

theorem build_cycle : ∃ module s,
    (build (.ofList cycleEntries) "main").start (.new "main") = (.ok module, s) := by
  have h : ((build (.ofList cycleEntries) "main").start (.new "main")).1.toBool = true := by
    decide +kernel
  generalize (build (.ofList cycleEntries) "main").start (.new "main") = r at h ⊢
  obtain ⟨_ | module, s⟩ := r
  · simp [Except.toBool] at h
  · exact ⟨module, s, rfl⟩

theorem analyzed_once_cycle : ∃ module s journal,
    ((Recorded.build (.ofList cycleEntries) "main").run []).start (.new "main") =
      (.ok (module, journal), s) ∧
    (∀ n, n ∈ s.moduleNames ↔ ReflTransGen (Imports (ReadIn journal)) "main" n) ∧
    ∀ n ∈ s.moduleNames, ∀ phase,
      journal.count (.starts phase n) = 1 ∧ journal.count (.ends phase n) = 1 := by
  obtain ⟨module, s, hs⟩ := build_cycle
  obtain ⟨-, journal, hrun, -, -, hneeds, honce, -⟩ :=
    (analyzed_once cycleEntries "main" "main").2 module s hs
  exact ⟨module, s, journal, hrun, hneeds, honce⟩

-- ---------------------------------------------------------------------------
-- Building again
-- ---------------------------------------------------------------------------

/-- A program whose root has been begun is not looked at again, even if that has failed. -/
theorem start_build_of_started {library : Library} {root : String} {s : Session} {id : ModuleId}
    (hfind : s.findModule? root = some id) (hstarted : (s.module id).started = true) :
    (build library root).start s = (.ok id, s) := by
  have h : Returns (build library root) s fun module s' => module = id ∧ s' = s := by
    refine triple_bind.mpr (triple_bind.mpr (triple_get.mpr ?_))
    rw [hfind]
    refine triple_bind.mpr (triple_bind.mpr (triple_get.mpr (triple_bind.mpr (triple_get.mpr ?_))))
    rw [if_pos hstarted]
    exact ⟨rfl, rfl⟩
  obtain ⟨_, _, hrun, rfl, rfl⟩ := h.exists
  exact hrun

/-- After a build that succeeds, another one changes nothing. -/
theorem build_again (entries : List (String × Found)) (root entrySymbol : String)
    {module : ModuleId} {s : Session}
    (h : (build (.ofList entries) root).start (.new entrySymbol) = (.ok module, s)) :
    (build (.ofList entries) root).start s = (.ok module, s) := by
  have hbuild := (runs_build (.ofList entries) root entrySymbol).forget
    (Recorded.forgets_build (.ofList entries) root)
  unfold Triple at hbuild
  rw [h] at hbuild
  obtain ⟨journal, ⟨m, hm, hname⟩, b, e, htracks, htour, -⟩ := hbuild
  have hbegun : m.name ∈ b := hname ▸ htour.names_subset List.mem_cons_self
  refine start_build_of_started ?_ ?_
  · cases hfind : s.findModule? root with
    | none =>
      have hknown := Session.mem_moduleNames.mpr ⟨_, m, hm, hname⟩
      exact absurd hknown (Session.not_mem_of_findModule? hfind)
    | some id =>
      obtain ⟨m', hm', hname'⟩ := Session.findModule?_eq_some hfind
      have hindex := htracks.index_eq hm' hm (hname'.trans hname.symm)
      cases id
      cases module
      simpa using hindex
  · simpa [Session.module, hm] using (htracks.started _ m hm).mpr hbegun

end BlockLang
