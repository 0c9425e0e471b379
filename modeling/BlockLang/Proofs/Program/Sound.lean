import BlockLang.Proofs.Program.Passes

/-!
# Sound sessions

In a sound session every module is a tree of its own, as it was read or else in lowered
form and annotated. Every scope that is named is there, and operators mean built-ins.
Loading a module, connecting it with another one and analyzing it keep a session sound,
also where they stop.
-/

namespace BlockLang

open BlockLang.Tree (idsOf)

/-- The table has all scopes of a module. -/
structure Layers.In (l : Layers) (t : ScopeTable) : Prop where
  privateLayer : t.Has l.privateLayer
  privateImport : t.Has l.privateImport
  publicLayer : t.Has l.publicLayer
  publicImport : t.Has l.publicImport

/-- What the analysis of a module leaves of a node: the facts that belong to its kind, and
operators only where they are wrong. -/
structure Annotated (a : Arena) (u : Tree) : Prop where
  covers : (a.facts u.handle).Cover u.kind
  operator : u.kind.isOperator = true → (a.facts u.handle).type = some .error

/-- What a module looks like in a session: as it was read at first, and lowered in the end. -/
structure Module.Spells (m : Module) (s : Session) (t : Tree) : Prop where
  root : t.handle = m.root
  kind : ∃ name, t.kind = .moduleRoot name
  layers : m.layers.In s.scopes
  begun : m.analyzed = true → m.started = true
  read : m.analyzed = false → ∀ c ∈ t.children, c.Every (Written s)
  lowered : m.analyzed = true → ∀ c ∈ t.children, Lowered c
  annotated : m.analyzed = true → ∀ c ∈ t.children, c.Every (Annotated s.tree)

/-- Every module of a session is a tree of its own. -/
structure Session.Sound (s : Session) : Prop where
  inScope : s.Scoped
  operators : s.Operators
  trees : ∃ ts, s.tree.Forest ts ∧ ts.length = s.modules.size ∧
    ∀ (i : Nat) m t, s.modules[i]? = some m → ts[i]? = some t → m.Spells s t

section
variable {s s' : Session} {m : Module} {t : Tree}

theorem Layers.In.mono {l : Layers} {t t' : ScopeTable} (h : l.In t)
    (hs : t.scopes.size ≤ t'.scopes.size) : l.In t' :=
  ⟨h.privateLayer.mono hs, h.privateImport.mono hs, h.publicLayer.mono hs, h.publicImport.mono hs⟩

/-- Every declaration is still there, of the same kind. -/
def KeepsKinds (decls decls' : Array Decl) : Prop :=
  ∀ (i : Nat) d, decls[i]? = some d → ∃ d', decls'[i]? = some d' ∧ d'.kind = d.kind

theorem KeepsKinds.refl (decls : Array Decl) : KeepsKinds decls decls := fun _ d hd => ⟨d, hd, rfl⟩

theorem IsFunction.keep {decls decls' : Array Decl} {id : DeclId} (h : IsFunction decls id)
    (hk : KeepsKinds decls decls') : IsFunction decls' id := by
  obtain ⟨d, hd, hf⟩ := h
  obtain ⟨d', hd', hkind⟩ := hk _ d hd
  refine ⟨d', hd', ?_⟩
  unfold Decl.isFunction at hf ⊢
  rwa [hkind]

theorem IsVariable.keep {decls decls' : Array Decl} {id : DeclId} {isRef : Bool} {count : Nat}
    (h : IsVariable decls id isRef count) (hk : KeepsKinds decls decls') :
    IsVariable decls' id isRef count := by
  obtain ⟨d, isConst, hd, hvar, hcount⟩ := h
  obtain ⟨d', hd', hkind⟩ := hk _ d hd
  exact ⟨d', isConst, hd', hkind.trans hvar, hcount⟩

/-- What was written is as it was while its labels stay. -/
theorem Written.keep {u : Tree} {l : Arena.Label} (h : Written s u)
    (hl : s.tree.label u.handle = some l) (hl' : s'.tree.label u.handle = some l)
    (hd : KeepsKinds s.decls s'.decls) : Written s' u := by
  have hfacts : s'.tree.facts u.handle = s.tree.facts u.handle := by
    rw [Arena.facts_of_label hl, Arena.facts_of_label hl']
  refine ⟨h.formed, fun hk => ?_, fun hk => ?_, fun d hk => (h.function d hk).keep hd,
    fun d _ _ hk => (h.binding d _ _ hk).keep hd⟩
  · rw [hfacts]
    exact h.literal hk
  · rw [hfacts]
    exact h.fresh hk

/-- A module stays as it was while the labels of its nodes do. -/
theorem Module.Spells.keep {ts : List Tree} (h : m.Spells s t) (hf : s.tree.Forest ts) (ht : t ∈ ts)
    (hs : s.scopes.scopes.size ≤ s'.scopes.scopes.size)
    (hl : ∀ id l, id ∈ t.ids → s.tree.label id = some l → s'.tree.label id = some l)
    (hd : KeepsKinds s.decls s'.decls) : m.Spells s' t := by
  have hlabels : ∀ c ∈ t.children, ∀ u ∈ c.subtrees,
      ∃ l, s.tree.label u.handle = some l ∧ s'.tree.label u.handle = some l := by
    intro c hc u hu
    have hid : u.handle ∈ t.ids :=
      Tree.mem_ids.mpr ⟨u, Tree.subtrees_trans (Tree.child_mem_subtrees hc) hu, rfl⟩
    obtain ⟨l, hlabel⟩ := Arena.exists_label (hf.1.lt_size _ (Tree.mem_idsOf.mpr ⟨t, ht, hid⟩))
    exact ⟨l, hlabel, hl _ l hid hlabel⟩
  refine ⟨h.root, h.kind, h.layers.mono hs, h.begun, fun ha c hc u hu => ?_, h.lowered,
    fun ha c hc u hu => ?_⟩
  · obtain ⟨l, hold, hnew⟩ := hlabels c hc u hu
    exact (h.read ha c hc u hu).keep hold hnew hd
  · obtain ⟨l, hold, hnew⟩ := hlabels c hc u hu
    obtain ⟨hcovers, hoperator⟩ := h.annotated ha c hc u hu
    rw [Arena.facts_of_label hold, ← Arena.facts_of_label hnew] at hcovers hoperator
    exact ⟨hcovers, hoperator⟩

theorem keepsKinds_of_names (h : s'.names = s.names) : KeepsKinds s.decls s'.decls := by
  intro i decl hdecl
  have hkinds : s'.decls.map Decl.kind = s.decls.map Decl.kind := congrArg Names.decls h
  have hkind : (s'.decls.map Decl.kind)[i]? = some decl.kind := by
    rw [hkinds, Array.getElem?_map, hdecl]
    rfl
  rw [Array.getElem?_map] at hkind
  exact Option.map_eq_some_iff.mp hkind

-- ---------------------------------------------------------------------------
-- Loading
-- ---------------------------------------------------------------------------

theorem Session.modules_addModule (s : Session) (name path source : String) :
    (s.addModule name path source).2.modules = s.modules.push
      ⟨name, path, source, ⟨s.tree.size⟩, ⟨⟨s.scopes.scopes.size + 3⟩, ⟨s.scopes.scopes.size + 2⟩,
        ⟨s.scopes.scopes.size + 1⟩, ⟨s.scopes.scopes.size⟩⟩, false, false⟩ := by
  simp [Session.addModule, ScopeTable.addScope, Arena.add, Arena.size]

theorem Session.layers_addModule (s : Session) (name path source : String) :
    ((s.addModule name path source).2.module ⟨s.modules.size⟩).layers =
      ⟨⟨s.scopes.scopes.size + 3⟩, ⟨s.scopes.scopes.size + 2⟩, ⟨s.scopes.scopes.size + 1⟩,
        ⟨s.scopes.scopes.size⟩⟩ := by
  rw [Session.module, s.modules_addModule]
  simp

theorem Session.size_scopes_addModule (s : Session) (name path source : String) :
    (s.addModule name path source).2.scopes.scopes.size = s.scopes.scopes.size + 4 := by
  simp [Session.addModule]

/-- A new module stands in new scopes. -/
theorem Session.Scoped.addModule (h : s.Scoped) (name path source : String) :
    (s.addModule name path source).2.Scoped := by
  have hclosed : (s.addModule name path source).2.scopes.Closed := by
    refine (((h.closed.addScope .publicImport ?_).addScope .publicLayer ?_).addScope
      .privateImport ?_).addScope .privateLayer ?_
    · rintro p ⟨⟩
      exact h.universal
    all_goals
      rintro p ⟨⟩
      simp [ScopeTable.Has, ScopeTable.addScope]
  have hsize := s.size_scopes_addModule name path source
  have hle : s.scopes.scopes.size ≤ (s.addModule name path source).2.scopes.scopes.size := by
    omega
  refine ⟨hclosed, h.universal.mono hle, fun id => ?_, fun id params result scope hk => ?_⟩
  · rcases Arena.newIn_add s.tree (.moduleRoot name) (.ofBytes 0 source.utf8ByteSize path)
      ⟨s.scopes.scopes.size + 3⟩ id with hnew | hold
    · have hnew' : (s.addModule name path source).2.tree.scope id = ⟨s.scopes.scopes.size + 3⟩ := by
        simpa [Session.addModule, ScopeTable.addScope] using hnew
      simp only [hnew', ScopeTable.Has, hsize]
      omega
    · have hold' : (s.addModule name path source).2.tree.scope id = s.tree.scope id := by
        simpa [Session.addModule, ScopeTable.addScope] using hold
      rw [hold']
      exact (h.nodes id).mono hle
  · exact (h.functions id params result scope hk).mono hle

theorem Session.extends_addModule (s : Session) (name path source : String) :
    s.tree.Extends (s.addModule name path source).2.tree := Arena.extends_add _ _ _ _

theorem Session.Operators.addModule (h : s.Operators) (name path source : String) :
    (s.addModule name path source).2.Operators := by
  have h₁ := h.addScope .publicImport (some s.universal)
  have h₂ := h₁.addScope .publicLayer (some ⟨s.scopes.scopes.size⟩)
  have h₃ := h₂.addScope .privateImport (some ⟨s.scopes.scopes.size + 1⟩)
  have h₄ := h₃.addScope .privateLayer (some ⟨s.scopes.scopes.size + 2⟩)
  refine h₄.congr ?_ fun _ => rfl
  simp [Session.addModule, ScopeTable.addScope]

/-- Reading begins in the scopes of the module. -/
theorem Session.Sound.reading (h : s.Sound) (name path source file : String) {tokens : List Token}
    (hw : ∀ t ∈ tokens, t.kind = .identifier → IsWord t.value) :
    Reading 0 (.start tokens file
      ((s.addModule name path source).2.module ⟨s.modules.size⟩).layers)
      (s.addModule name path source).2 := by
  have hsize := s.size_scopes_addModule name path source
  rw [s.layers_addModule]
  refine ⟨h.inScope.addModule name path source, h.operators.addModule name path source, ?_, ?_,
    by simp [Cursor.start], rfl, fun t ht hk => ?_⟩
  · simp only [Cursor.start, ScopeTable.Has, hsize]
    omega
  · simp only [Cursor.start, ScopeTable.Has, hsize]
    omega
  · simp only [Cursor.start, List.mem_cons] at ht
    rcases ht with ht | ht
    · -- the last token stands for the end, or there is none
      rcases List.mem_cons.mp (ht ▸ List.getLastD_mem_cons) with rfl | hlast
      · cases hk
      · exact hw t hlast hk
    · exact hw t ht hk

/-- A new module has been read, beside the trees `us`. -/
def HasRead (s : Session) (name path source : String) (us : List Tree) (s' : Session) : Prop :=
  ∃ d c ts, s'.tree.Forest (.node (s'.module ⟨s.modules.size⟩).root (.moduleRoot name) ts :: us) ∧
    Reading d c s' ∧ (∀ t ∈ ts, t.Every (Written s')) ∧ Adds (s.addModule name path source).2 s'

theorem hasRead_addModule {us : List Tree} (hs : s.Sound) (hf : s.tree.Forest us)
    (name path source : String) :
    HasRead s name path source us (s.addModule name path source).2 := by
  have hreading := hs.reading name path source path (List.forall_mem_nil _)
  refine ⟨0, _, [], ?_, hreading, by simp, .refl _⟩
  have hroot : ((s.addModule name path source).2.module ⟨s.modules.size⟩).root = ⟨s.tree.size⟩ :=
    s.module_root_addModule name path source
  rw [hroot]
  exact hf.add _ _ _

theorem HasRead.modules {us : List Tree} {name path source : String}
    (h : HasRead s name path source us s') : s'.modules = s.modules.push
      ⟨name, path, source, ⟨s.tree.size⟩, ⟨⟨s.scopes.scopes.size + 3⟩, ⟨s.scopes.scopes.size + 2⟩,
        ⟨s.scopes.scopes.size + 1⟩, ⟨s.scopes.scopes.size⟩⟩, false, false⟩ := by
  obtain ⟨_, _, _, _, _, _, ha⟩ := h
  exact (congrArg Session.modules ha.rest).trans (s.modules_addModule name path source)

/-- The new module joins the others. -/
theorem HasRead.sound {us : List Tree} {name path source : String}
    (hf : s.tree.Forest us) (hlen : us.length = s.modules.size)
    (hspells : ∀ (i : Nat) m t, s.modules[i]? = some m → us[i]? = some t → m.Spells s t)
    (h : HasRead s name path source us s') : s'.Sound := by
  have hmodules := h.modules
  obtain ⟨_, c, ts, hf', hr, hw, ha⟩ := h
  have hgrown : s.scopes.scopes.size + 4 ≤ s'.scopes.scopes.size :=
    s.size_scopes_addModule name path source ▸ ha.scopes
  have hlabels := (s.extends_addModule name path source).trans ha.labels
  refine ⟨hr.session, hr.operators, us ++ [_], hf'.perm (List.perm_append_singleton _ _).symm,
    ?_, ?_⟩
  · simp [hmodules, hlen]
  · intro i m t hm ht
    rw [hmodules, Array.getElem?_push] at hm
    split at hm
    · next hi =>
      obtain rfl := Option.some.inj hm
      obtain rfl : .node (s'.module ⟨s.modules.size⟩).root (.moduleRoot name) ts = t := by
        simpa [hi, hlen] using ht
      have hroot : (s'.module ⟨s.modules.size⟩).root = ⟨s.tree.size⟩ := by
        simp [Session.module, hmodules]
      refine ⟨hroot, ⟨name, rfl⟩, ?_, by simp, fun _ => hw, by simp, by simp⟩
      refine ⟨?_, ?_, ?_, ?_⟩ <;> simp only [ScopeTable.Has] <;> omega
    · have hlt : i < us.length := by
        rw [hlen]
        exact (Array.getElem?_eq_some_iff.mp hm).1
      rw [List.getElem?_append_left hlt] at ht
      exact (hspells i m t hm ht).keep hf (List.mem_of_getElem? ht) (by omega)
        (fun id l _ hlabel => hlabels id l hlabel) fun i d hd => ⟨d, ha.decls i d hd, rfl⟩

/-- A module is read beside the others, also if reading stops. -/
theorem Session.Sound.hasRead {us : List Tree} (h : s.Sound) (hf : s.tree.Forest us)
    (name path text : String) :
    Triple (BlockLang.parseText name path text) s
      (fun id s' => id = ⟨s.modules.size⟩ ∧ HasRead s name path text us s')
      fun _ s' => HasRead s name path text us s' := by
  unfold BlockLang.parseText
  refine triple_bind.mpr (triple_get.mpr ?_)
  refine triple_bind.mpr (triple_set.mpr ?_)
  split
  · exact hasRead_addModule h hf name path text
  · next tokens htokens =>
    have hreading := h.reading name path text path (isWord_of_tokenize htokens)
    refine triple_bind.mpr (triple_adapt.mpr ?_)
    exact (triple_read keeps_reading _ name path text path hf hreading).imp fun _ s' hs' =>
      ⟨rfl, hs'⟩

/-- Reading a module leaves a sound session, also if it stops. -/
theorem Session.Sound.parseText (h : s.Sound) (name path text : String) :
    Triple (parseText name path text) s
      (fun id s' => s'.Sound ∧ id = ⟨s.modules.size⟩ ∧ ∃ m, s'.modules = s.modules.push m)
      fun _ s' => s'.Sound ∧ ∃ m, s'.modules = s.modules.push m := by
  obtain ⟨us, hf, hlen, hspells⟩ := h.trees
  have hend : ∀ s', HasRead s name path text us s' →
      s'.Sound ∧ ∃ m, s'.modules = s.modules.push m :=
    fun s' hr => ⟨hr.sound hf hlen hspells, _, hr.modules⟩
  refine (h.hasRead hf name path text).mono ?_ ?_
  · rintro id s' ⟨rfl, hs'⟩
    obtain ⟨hsound, hm⟩ := hend s' hs'
    exact ⟨hsound, rfl, hm⟩
  · intro _ s' hs'
    exact hend s' hs'

/-- The modules whose analysis has begun are left alone, and others may come. -/
structure Session.Leaves (s s' : Session) : Prop where
  size : s.modules.size ≤ s'.modules.size
  started : ∀ (i : Nat) m, s.modules[i]? = some m → m.started = true → s'.modules[i]? = some m

theorem Session.Leaves.of_eq (h : s'.modules = s.modules) : s.Leaves s' :=
  ⟨Nat.le_of_eq (congrArg Array.size h.symm), fun _ _ hm _ => h ▸ hm⟩

theorem Session.Leaves.trans {s'' : Session} (h : s.Leaves s') (h' : s'.Leaves s'') :
    s.Leaves s'' :=
  ⟨Nat.le_trans h.size h'.size, fun i m hm hs => h'.started i m (h.started i m hm hs) hs⟩

theorem Session.Leaves.of_push (h : s'.modules = s.modules.push m) : s.Leaves s' := by
  refine ⟨by simp [h], fun i old hold _ => ?_⟩
  obtain ⟨hi, rfl⟩ := Array.getElem?_eq_some_iff.mp hold
  rw [h, Array.getElem?_push_lt hi]

theorem Session.Sound.loadModule (h : s.Sound) (library : Library) (name : String)
    (position : Position) :
    Triple (loadModule library name position) s
      (fun id s' => s'.Sound ∧ s.Leaves s' ∧ id.index < s'.modules.size)
      fun _ s' => s'.Sound ∧ s.Leaves s' := by
  unfold BlockLang.loadModule
  refine triple_bind.mpr (triple_get.mpr ?_)
  split
  · next id hfind =>
    obtain ⟨i, hi, rfl⟩ := Option.map_eq_some_iff.mp hfind
    exact ⟨h, .of_eq rfl, (Array.findIdx?_eq_some_iff_getElem.mp hi).1⟩
  · split
    · refine (h.parseText name _ _).mono ?_ ?_
      · rintro id s' ⟨hs', rfl, m, hm⟩
        exact ⟨hs', .of_push hm, by simp [hm]⟩
      · rintro - s' ⟨hs', m, hm⟩
        exact ⟨hs', .of_push hm⟩
    · exact ⟨h, .of_eq rfl⟩
    · exact ⟨h, .of_eq rfl⟩

-- ---------------------------------------------------------------------------
-- Analyzing
-- ---------------------------------------------------------------------------

theorem Session.Sound.layers (h : s.Sound) (id : ModuleId) :
    (s.module id).layers.In s.scopes := by
  obtain ⟨ts, -, hlen, hspells⟩ := h.trees
  unfold Session.module
  cases hm : s.modules[id.index]? with
  | some m =>
    have hi : id.index < ts.length := hlen ▸ (Array.getElem?_eq_some_iff.mp hm).1
    exact (hspells id.index m _ hm (List.getElem?_eq_getElem hi)).layers
  | none =>
    -- the layers of no module are the first scope of the table
    have hfirst : 0 < s.scopes.scopes.size := Nat.zero_lt_of_lt h.inScope.universal
    exact ⟨hfirst, hfirst, hfirst, hfirst⟩

/-- A module can always be connected with another one. -/
theorem Session.Sound.connect (h : s.Sound) (module : ModuleId) (i : Import)
    (imported : ModuleId) :
    Returns (connect module i imported) s fun _ s' => s'.Sound ∧ s.Leaves s' := by
  have hlayer : s.scopes.Has (i.layer (s.module module).layers) := by
    unfold Import.layer
    split
    · exact (h.layers module).publicImport
    · exact (h.layers module).privateImport
  obtain ⟨scopes, hadd, hclosed, hsize, -⟩ := ScopeTable.exists_addImport h.inScope.closed hlayer
    (h.layers imported).publicLayer
  unfold BlockLang.connect Pass.editScopes
  simp only [triple_bind, triple_get, Pass.triple_lookUp, hadd, triple_modify]
  obtain ⟨ts, hf, hlen, hspells⟩ := h.trees
  refine ⟨⟨h.inScope.withScopes hclosed hsize, h.operators.addImport hadd, ts, hf, hlen,
    fun i m t hm ht => ?_⟩, .of_eq rfl⟩
  exact (hspells i m t hm ht).keep hf (List.mem_of_getElem? ht) (Nat.le_of_eq hsize.symm)
    (fun _ _ _ hl => hl) (.refl _)

theorem Session.getElem?_modifyModule (s : Session) (id : ModuleId) (f : Module → Module)
    (i : Nat) : (s.modifyModule id f).modules[i]? =
      if id.index = i then (s.modules[i]?).map f else s.modules[i]? := by
  simp [Session.modifyModule, Array.getElem?_modify]

/-- A module that was not begun before may change. -/
theorem Session.Leaves.modifyModule (h : s.Leaves s') {id : ModuleId} (f : Module → Module)
    (hn : ∀ m, s.modules[id.index]? = some m → m.started = false) :
    s.Leaves (s'.modifyModule id f) := by
  refine ⟨by simpa [Session.modifyModule] using h.size, fun i m hm hs => ?_⟩
  have hne : id.index ≠ i := by
    rintro rfl
    exact absurd hs (by simp [hn m hm])
  rw [s'.getElem?_modifyModule, if_neg hne]
  exact h.started i m hm hs

theorem Session.Sound.begin (h : s.Sound) (id : ModuleId) :
    (s.modifyModule id ({ · with started := true })).Sound := by
  obtain ⟨⟨hclosed, huniversal, hnodes, hfunctions⟩, hoperators, ts, hf, hlen, hspells⟩ := h
  refine ⟨⟨hclosed, huniversal, hnodes, hfunctions⟩, hoperators, ts, hf, ?_, fun i m t hm ht => ?_⟩
  · simpa [Session.modifyModule] using hlen
  · rw [s.getElem?_modifyModule] at hm
    split at hm
    · obtain ⟨old, ho, rfl⟩ := Option.map_eq_some_iff.mp hm
      have h : old.Spells (s.modifyModule id ({ · with started := true })) t :=
        (hspells i old t ho ht).keep hf (List.mem_of_getElem? ht) (Nat.le_refl _)
          (fun _ _ _ hl => hl) (.refl _)
      exact ⟨h.root, h.kind, h.layers, fun _ => rfl, h.read, h.lowered, h.annotated⟩
    · exact (hspells i m t hm ht).keep hf (List.mem_of_getElem? ht) (Nat.le_refl _)
        (fun _ _ _ hl => hl) (.refl _)

theorem Module.Spells.exists_node (h : m.Spells s t) :
    ∃ name cs, t = .node m.root (.moduleRoot name) cs := by
  obtain ⟨name, hk⟩ := h.kind
  cases t with
  | node i k cs => exact ⟨name, cs, by rw [← h.root, ← hk]; rfl⟩

theorem Arena.Forest.front {a : Arena} {ts : List Tree} {i : Nat} (h : a.Forest ts)
    (ht : ts[i]? = some t) : a.Forest (t :: ts.eraseIdx i) := by
  obtain ⟨hi, rfl⟩ := List.getElem?_eq_some_iff.mp ht
  exact h.perm (List.getElem_cons_eraseIdx_perm hi).symm

/-- Every module has its tree among those of the session. -/
theorem Session.Sound.exists_tree (h : s.Sound) {i : Nat} (hm : s.modules[i]? = some m) :
    ∃ ts name cs, s.tree.Forest ts ∧ ts.length = s.modules.size ∧
      (∀ (i : Nat) m t, s.modules[i]? = some m → ts[i]? = some t → m.Spells s t) ∧
      ts[i]? = some (.node m.root (.moduleRoot name) cs) := by
  obtain ⟨ts, hf, hlen, hspells⟩ := h.trees
  have hi : i < ts.length := hlen ▸ (Array.getElem?_eq_some_iff.mp hm).1
  have ht := List.getElem?_eq_getElem hi
  obtain ⟨name, cs, hnode⟩ := (hspells i m _ hm ht).exists_node
  exact ⟨ts, name, cs, hf, hlen, hspells, hnode ▸ ht⟩

/-- A module that has been read is analyzed to the end. -/
theorem Session.Sound.analyzeTree (h : s.Sound) {id : ModuleId}
    (hm : s.modules[id.index]? = some m) (hstarted : m.started = true)
    (hopen : m.analyzed = false) :
    Returns (analyzeTree m.root) s fun _ s' =>
      (s'.modifyModule id ({ · with analyzed := true })).Sound ∧ s'.modules = s.modules := by
  obtain ⟨ts, name, cs, hf, hlen, hspells, ht⟩ := h.exists_tree hm
  have hi : id.index < ts.length := (List.getElem?_eq_some_iff.mp ht).1
  have hspell := hspells id.index m _ hm ht
  have hread : ∀ c ∈ cs, c.Every (Written s) := hspell.read hopen
  unfold BlockLang.analyzeTree
  simp only [triple_bind]
  refine (returns_passes true h.inScope (hf.front ht) hread (pure .error)).imp fun _ s₁ hrun =>
    hrun.imp fun _ s₂ hrun => hrun.imp ?_
  rintro - s' ⟨cs₂, cs', -, hlowered₂, hsettles, hreworks, hdone⟩
  have hoperators : s'.Operators := operators_congr hreworks.proceeds.names h.operators
  have hannotated : ∀ c ∈ cs', c.Every (Annotated s'.tree) := fun c hc u hu =>
    have hnoted := hdone.noted u (Tree.mem_subtreesOf.mpr ⟨c, hc, hu⟩)
    ⟨hnoted.covers, hnoted.operator hoperators⟩
  have hlowered := Settles.lowered_all hsettles hlowered₂
  have hmodules : s'.modules = s.modules := congrArg Names.modules hreworks.proceeds.names
  have hscopes : s'.scopes.scopes = s.scopes.scopes :=
    congrArg Names.scopes hreworks.proceeds.names
  have hsize : s.scopes.scopes.size ≤ s'.scopes.scopes.size :=
    Nat.le_of_eq (congrArg Array.size hscopes.symm)
  refine ⟨⟨?_, hoperators, ts.set id.index (.node m.root (.moduleRoot name) cs'), ?_, ?_, ?_⟩,
    hmodules⟩
  · obtain ⟨hclosed, huniversal, hnodes, hfunctions⟩ := hreworks.session
    exact ⟨hclosed, huniversal, hnodes, hfunctions⟩
  · exact hreworks.forest.perm (List.set_perm_cons_eraseIdx hi _).symm
  · simpa [Session.modifyModule, hmodules] using hlen
  · intro i m' t hm' ht'
    rw [s'.getElem?_modifyModule, hmodules] at hm'
    rw [List.getElem?_set] at ht'
    by_cases he : id.index = i
    · subst he
      rw [if_pos rfl, hm, Option.map_some] at hm'
      rw [if_pos rfl, if_pos hi] at ht'
      obtain rfl := Option.some.inj hm'
      obtain rfl := Option.some.inj ht'
      exact ⟨rfl, ⟨name, rfl⟩, hspell.layers.mono hsize, fun _ => hstarted, by simp,
        fun _ => hlowered, fun _ => hannotated⟩
    · rw [if_neg he] at hm' ht'
      have hother : t ∈ ts.eraseIdx id.index :=
        List.mem_eraseIdx_iff_getElem?.mpr ⟨i, Ne.symm he, ht'⟩
      have hkinds : KeepsKinds s.decls s'.decls := keepsKinds_of_names hreworks.proceeds.names
      refine (hspells i m' t hm' ht').keep hf (List.mem_of_getElem? ht') hsize (fun j l hj hl => ?_)
        hkinds
      exact hreworks.proceeds.labels j l
        (fun hn => hn (Tree.mem_idsOf.mpr ⟨t, hother, hj⟩)) hl

end
end BlockLang
