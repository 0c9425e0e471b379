import BlockLang.Proofs.Program.Reached

/-!
# Arranging modules

Modules are registered, connected and filled with declarations in any order. However that is
done, the layers of each module stand in one another, scopes import what the connections say,
and every declaration stands in one scope (`Session.Arranged.layered`).
-/

namespace BlockLang

/-! ## Imports -/

/-- An import of `module` that has been connected. -/
structure Link where
  module : ModuleId
  item : Import
  imported : ModuleId

/-- From `module` one import leads to the other module, public or not, or one import and
then public ones. -/
inductive Exposes (links : List Link) (module : ModuleId) : ModuleId → Prop
  | imported {link : Link} (mem : link ∈ links) (own : link.module = module) :
    Exposes links module link.imported
  | exported {link : Link} (path : Exposes links module link.module) (mem : link ∈ links)
    (isPublic : link.item.isPublic = true) : Exposes links module link.imported

/-- Whether a scope takes imports and is there for nothing else. -/
def ScopeKind.takesImports : ScopeKind → Bool
  | publicImport | privateImport => true
  | _ => false

namespace Session

def HasModule (s : Session) (module : ModuleId) : Prop := module.index < s.modules.size

/-- `s'` differs from `s` in other things than scopes, their declarations and modules. -/
structure SameNames (s s' : Session) : Prop where
  size : s'.scopes.scopes.size = s.scopes.scopes.size
  visiting : s'.scopes.visiting = s.scopes.visiting
  get : ∀ id, ∃ types, s'.scopes.get id = { s.scopes.get id with types }
  universal : s'.universal = s.universal
  decls : s.decls.size ≤ s'.decls.size
  modules : s'.modules.map (·.layers) = s.modules.map (·.layers)

/-- Modules are registered and connected in any order, and anything may be declared
anywhere but in the layers that take imports. -/
inductive Arranged : Session → List Link → Prop
  | new (entrySymbol : String) : Arranged (.new entrySymbol) []
  | addModule {s : Session} {links : List Link} (h : Arranged s links)
    (name path source : String) : Arranged (s.addModule name path source).2 links
  | connect {s : Session} {links : List Link} (h : Arranged s links) (link : Link)
    (hm : s.HasModule link.module) (hi : s.HasModule link.imported) :
    Arranged ((connect link.module link.item link.imported).start s).2 (link :: links)
  | addScope {s : Session} {links : List Link} (h : Arranged s links) (kind : ScopeKind)
    (parent : ScopeId) (hp : s.scopes.Has parent) :
    Arranged { s with scopes := (s.scopes.addScope kind (some parent)).2 } links
  | declare {s : Session} {links : List Link} (h : Arranged s links) (d : Decl)
    (overloadable : Bool) {scopes : ScopeTable}
    (hkind : (s.scopes.get d.scope).kind.takesImports = false)
    (ha : s.scopes.addVar d.scope d.name (s.addDecl d).1 overloadable = .ok scopes) :
    Arranged { (s.addDecl d).2 with scopes } links
  /-- Types, nodes, values and diagnostics come and go. -/
  | other {s s' : Session} {links : List Link} (h : Arranged s links) (hs : s.SameNames s') :
    Arranged s' links

end Session

/-! ## Layers -/

namespace ScopeTable

/-- `id` is a scope of this kind inside `parent`. -/
structure Stands (t : ScopeTable) (id : ScopeId) (kind : ScopeKind) (parent : Option ScopeId) :
    Prop where
  has : t.Has id
  kind : (t.get id).kind = kind
  parent : (t.get id).parent = parent

theorem Stands.kind_eq {t : ScopeTable} {id id' : ScopeId} {kind kind' : ScopeKind}
    {parent parent' : Option ScopeId} (h : t.Stands id kind parent)
    (h' : t.Stands id' kind' parent') (heq : id = id') : kind = kind' := by
  rw [← h.kind, ← h'.kind, heq]

/-- Every scope of `t` stands in `u` as it did. -/
def Keeps (t u : ScopeTable) : Prop :=
  ∀ ⦃id kind parent⦄, t.Stands id kind parent → u.Stands id kind parent

variable {t u : ScopeTable}

theorem stands_addScope (t : ScopeTable) (kind : ScopeKind) (parent : Option ScopeId) :
    (t.addScope kind parent).2.Stands (t.addScope kind parent).1 kind parent := by
  have hget : (t.addScope kind parent).2.get (t.addScope kind parent).1 =
      ⟨kind, parent, [], [], []⟩ := (get_addScope ..).trans (if_pos rfl)
  refine ⟨?_, by rw [hget], by rw [hget]⟩
  simp [Has, addScope]

theorem get_addScope_of_has {id : ScopeId} (h : t.Has id) (kind : ScopeKind)
    (parent : Option ScopeId) : (t.addScope kind parent).2.get id = t.get id :=
  (get_addScope ..).trans (if_neg (Nat.ne_of_lt h))

theorem keeps_addScope (t : ScopeTable) (kind : ScopeKind) (parent : Option ScopeId) :
    t.Keeps (t.addScope kind parent).2 := by
  intro id kind' parent' h
  have hget := get_addScope_of_has h.has kind parent
  exact ⟨h.has.mono (by simp), by rw [hget, h.kind], by rw [hget, h.parent]⟩

/-- A new scope stands where it was put, and all others stay. -/
theorem stands_of_addScope {id : ScopeId} {kind : ScopeKind} {parent : Option ScopeId}
    (ha : t.addScope kind parent = (id, u)) : u.Stands id kind parent ∧ t.Keeps u := by
  have hstands := t.stands_addScope kind parent
  have hkeeps := t.keeps_addScope kind parent
  rw [ha] at hstands hkeeps
  exact ⟨hstands, hkeeps⟩

theorem keeps_of_get (hsize : u.scopes.size = t.scopes.size)
    (hk : ∀ id, (u.get id).kind = (t.get id).kind)
    (hp : ∀ id, (u.get id).parent = (t.get id).parent) : t.Keeps u := by
  intro id kind parent h
  exact ⟨h.has.mono (Nat.le_of_eq hsize.symm), by rw [hk, h.kind], by rw [hp, h.parent]⟩

theorem size_addImport {layer exported : ScopeId} (h : t.addImport layer exported = .ok u) :
    u.scopes.size = t.scopes.size := by
  obtain ⟨-, ⟨-, rfl⟩ | rfl⟩ := addImport_eq_ok h
  · rfl
  · exact size_modify ..

/-- Types do not matter. -/
theorem Sound.congr (h : t.Sound) (hsize : u.scopes.size = t.scopes.size)
    (hvisiting : u.visiting = t.visiting)
    (hget : ∀ id, ∃ types, u.get id = { t.get id with types }) : u.Sound := by
  have hhas : ∀ {id}, t.Has id → u.Has id := fun hid => hid.mono (Nat.le_of_eq hsize.symm)
  have hp : ∀ id, (u.get id).parent = (t.get id).parent := fun id => by
    obtain ⟨types, hget⟩ := hget id
    rw [hget]
  refine ⟨⟨fun {id p} hparent => hhas (h.linked.parent (hp id ▸ hparent)), fun {id e} he => ?_⟩,
    ⟨fun id p hparent => h.ordered.parents id p (hp id ▸ hparent), ?_, fun id => ?_⟩,
    fun id name var hvar => ?_⟩
  · obtain ⟨types, hget⟩ := hget id
    rw [hget] at he
    exact hhas (h.linked.imports he)
  · rw [hvisiting, hsize, h.ordered.size]
  · rw [isVisiting, hvisiting]
    exact h.ordered.idle id
  · obtain ⟨types, hget⟩ := hget id
    rw [hget] at hvar
    exact h.declared id name var hvar

end ScopeTable

/-- The layers of a module stand in one another, the outermost in the universal scope. -/
structure Layers.Stand (l : Layers) (t : ScopeTable) (universal : ScopeId) : Prop where
  privateLayer : t.Stands l.privateLayer .privateLayer (some l.privateImport)
  privateImport : t.Stands l.privateImport .privateImport (some l.publicLayer)
  publicLayer : t.Stands l.publicLayer .publicLayer (some l.publicImport)
  publicImport : t.Stands l.publicImport .publicImport (some universal)

theorem Layers.Stand.keep {l : Layers} {t u : ScopeTable} {universal : ScopeId}
    (h : l.Stand t universal) (hk : t.Keeps u) : l.Stand u universal :=
  ⟨hk h.privateLayer, hk h.privateImport, hk h.publicLayer, hk h.publicImport⟩

/-- Imports go to a layer of their module. -/
theorem Layers.Stand.layer {l : Layers} {t : ScopeTable} {universal : ScopeId}
    (h : l.Stand t universal) (i : Import) :
    t.Stands (i.layer l) (if i.isPublic then .publicImport else .privateImport)
      (some (if i.isPublic then universal else l.publicLayer)) := by
  unfold Import.layer
  split
  · exact h.publicImport
  · exact h.privateImport

namespace Session

variable {s s' : Session} {links : List Link} {link : Link} {m k : ModuleId}

/-- The layers of all modules are in place. -/
structure Placed (s : Session) : Prop where
  universal : s.scopes.Stands s.universal .universal none
  layers : ∀ m, s.HasModule m → (s.module m).layers.Stand s.scopes s.universal
  apart : ∀ m k, s.HasModule m → s.HasModule k →
    (s.module m).layers.publicImport = (s.module k).layers.publicImport → m = k

theorem Placed.keep (h : s.Placed) (hk : s.scopes.Keeps s'.scopes)
    (hu : s'.universal = s.universal) (hsize : s'.modules.size = s.modules.size)
    (hl : ∀ m, (s'.module m).layers = (s.module m).layers) : s'.Placed := by
  have hhas : ∀ {m}, s'.HasModule m → s.HasModule m := fun hm => Nat.lt_of_lt_of_eq hm hsize
  refine ⟨hu ▸ hk h.universal, fun m hm => ?_, fun m k hm hk' heq => ?_⟩
  · rw [hl, hu]
    exact (h.layers m (hhas hm)).keep hk
  · rw [hl, hl] at heq
    exact h.apart m k (hhas hm) (hhas hk') heq

/-- The layer that a link goes to. -/
def layerOf (s : Session) (link : Link) : ScopeId := link.item.layer (s.module link.module).layers

/-- What a link goes to. -/
def exportOf (s : Session) (link : Link) : ScopeId := (s.module link.imported).layers.publicLayer

/-- Scopes import what the links say. -/
structure Connected (s : Session) (links : List Link) : Prop where
  modules : ∀ link ∈ links, s.HasModule link.module ∧ s.HasModule link.imported
  imports : ∀ id e, e ∈ (s.scopes.get id).imports ↔
    ∃ link ∈ links, s.layerOf link = id ∧ s.exportOf link = e

/-- Each declaration stands in one scope, and none where imports go. -/
structure Declares (s : Session) : Prop where
  taken : ∀ id, (s.scopes.get id).kind.takesImports = true → (s.scopes.get id).vars = []
  known : ∀ id name d, d ∈ (s.scopes.get id).declsOf name → d.index < s.decls.size
  once : ∀ id id' name name' d, d ∈ (s.scopes.get id).declsOf name →
    d ∈ (s.scopes.get id').declsOf name' → id = id'

/-- What holds of every session that was arranged. -/
structure Layered (s : Session) (links : List Link) : Prop where
  sound : s.scopes.Sound
  placed : s.Placed
  connected : s.Connected links
  declares : s.Declares

/-! ### Steps -/

theorem Connected.of_imports (h : s.Connected links) (hsize : s'.modules.size = s.modules.size)
    (hl : ∀ m, (s'.module m).layers = (s.module m).layers)
    (hi : ∀ id, (s'.scopes.get id).imports = (s.scopes.get id).imports) : s'.Connected links := by
  refine ⟨fun link hlink => ?_, fun id e => ?_⟩
  · obtain ⟨hm, hk⟩ := h.modules link hlink
    exact ⟨Nat.lt_of_lt_of_eq hm hsize.symm, Nat.lt_of_lt_of_eq hk hsize.symm⟩
  · simp only [hi, h.imports, layerOf, exportOf, hl]

theorem Connected.stands (h : s.Connected links) (hp : s.Placed) (hlink : link ∈ links) :
    s.scopes.Has (s.layerOf link) :=
  ((hp.layers _ (h.modules link hlink).1).layer link.item).has

theorem Layered.addScope (h : s.Layered links) (kind : ScopeKind) {parent : ScopeId}
    (hp : s.scopes.Has parent) :
    Layered { s with scopes := (s.scopes.addScope kind (some parent)).2 } links := by
  have hget := s.scopes.get_addScope kind (some parent)
  have hdecls : ∀ {id name d}, d ∈ ((s.scopes.addScope kind (some parent)).2.get id).declsOf name →
      d ∈ (s.scopes.get id).declsOf name := by
    intro id name d hd
    rw [hget] at hd
    split at hd
    · simp [Scope.declsOf] at hd
    · exact hd
  refine ⟨h.sound.addScope kind fun p hparent => Option.some.inj hparent ▸ hp,
    h.placed.keep (s.scopes.keeps_addScope kind _) rfl rfl fun _ => rfl,
    ⟨h.connected.modules, fun id e => ?_⟩, fun id hid => ?_, fun id name d hd => ?_,
    fun id id' name name' d hd hd' => ?_⟩
  · show e ∈ ((s.scopes.addScope kind (some parent)).2.get id).imports ↔ _
    rw [hget]
    split
    · rename_i hid
      refine ⟨fun he => absurd he List.not_mem_nil, ?_⟩
      rintro ⟨link, hlink, rfl, -⟩
      exact absurd hid (Nat.ne_of_lt (h.connected.stands h.placed hlink))
    · exact h.connected.imports id e
  · show ((s.scopes.addScope kind (some parent)).2.get id).vars = []
    simp only [hget] at hid ⊢
    split
    · rfl
    · rename_i hne
      exact h.declares.taken id (by rwa [if_neg hne] at hid)
  · exact h.declares.known id name d (hdecls hd)
  · exact h.declares.once id id' name name' d (hdecls hd) (hdecls hd')

theorem Layered.declare (h : s.Layered links) (d : Decl) {overloadable : Bool}
    {scopes : ScopeTable} (hkind : (s.scopes.get d.scope).kind.takesImports = false)
    (ha : s.scopes.addVar d.scope d.name (s.addDecl d).1 overloadable = .ok scopes) :
    Layered { (s.addDecl d).2 with scopes } links := by
  have hdecls : ∀ {id name x}, x ∈ (scopes.get id).declsOf name →
      x ∈ (s.scopes.get id).declsOf name ∨ id = d.scope ∧ x.index = s.decls.size :=
    fun hx => (ScopeTable.mem_declsOf_addVar ha hx).imp_right fun ⟨hid, _, hx⟩ =>
      ⟨hid, congrArg DeclId.index hx⟩
  have hedges : ∀ id, (scopes.get id).kind = (s.scopes.get id).kind ∧
      (scopes.get id).parent = (s.scopes.get id).parent ∧
      (scopes.get id).imports = (s.scopes.get id).imports := by
    intro id
    rcases ScopeTable.get_addVar ha id with hget | ⟨-, vars, hget⟩ <;> rw [hget] <;> simp
  refine ⟨h.sound.addVar ha, h.placed.keep (ScopeTable.keeps_of_get (ScopeTable.size_addVar ha)
      (fun id => (hedges id).1) fun id => (hedges id).2.1) rfl rfl fun _ => rfl,
    h.connected.of_imports rfl (fun _ => rfl) fun id => (hedges id).2.2, fun id hid => ?_,
    fun id name x hx => ?_, fun id id' name name' x hx hx' => ?_⟩
  · dsimp only at hid ⊢
    rcases ScopeTable.get_addVar ha id with hsame | ⟨rfl, vars, hchanged⟩
    · rw [hsame] at hid ⊢
      exact h.declares.taken id hid
    · rw [hchanged, hkind] at hid
      cases hid
  · have hsize : (s.addDecl d).2.decls.size = s.decls.size + 1 := Array.size_push _
    show x.index < (s.addDecl d).2.decls.size
    rcases hdecls hx with hx | ⟨-, hx⟩
    · exact Nat.lt_of_lt_of_eq (Nat.lt_succ_of_lt (h.declares.known id name x hx)) hsize.symm
    · omega
  · -- The new declaration was in no scope before.
    rcases hdecls hx, hdecls hx' with ⟨hx | ⟨rfl, hx⟩, hx' | ⟨rfl, hx'⟩⟩
    · exact h.declares.once id id' name name' x hx hx'
    · exact absurd (h.declares.known id name x hx) (by omega)
    · exact absurd (h.declares.known id' name' x hx') (by omega)
    · rfl

theorem Declares.of_vars (h : s.Declares) (hdecls : s.decls.size ≤ s'.decls.size)
    (hk : ∀ id, (s'.scopes.get id).kind = (s.scopes.get id).kind)
    (hv : ∀ id, (s'.scopes.get id).vars = (s.scopes.get id).vars) : s'.Declares := by
  have hof : ∀ id name, (s'.scopes.get id).declsOf name = (s.scopes.get id).declsOf name :=
    fun id name => by rw [Scope.declsOf, hv, Scope.declsOf]
  refine ⟨fun id hid => ?_, fun id name d hd => ?_, fun id id' name name' d hd hd' => ?_⟩
  · rw [hv]
    exact h.taken id (hk id ▸ hid)
  · exact Nat.lt_of_lt_of_le (h.known id name d (hof id name ▸ hd)) hdecls
  · exact h.once id id' name name' d (hof id name ▸ hd) (hof id' name' ▸ hd')

/-- Connecting modules changes the scopes only. -/
theorem Layered.exists_connect (h : s.Layered links) (link : Link)
    (hm : s.HasModule link.module) :
    ∃ scopes, s.scopes.addImport (s.layerOf link) (s.exportOf link) = .ok scopes ∧
      ((BlockLang.connect link.module link.item link.imported).start s).2 = { s with scopes } := by
  have hlayer := ((h.placed.layers _ hm).layer link.item).has
  obtain ⟨scopes, ha⟩ := ScopeTable.exists_addImport_eq_ok hlayer (s.exportOf link)
  have hrun : Returns (BlockLang.connect link.module link.item link.imported) s
      fun _ s' => s' = { s with scopes } := by
    unfold BlockLang.connect Pass.editScopes
    simp only [triple_bind, triple_get, Pass.triple_lookUp, triple_modify]
    unfold exportOf at ha
    simp only [ha]
  obtain ⟨_, s', hstart, rfl⟩ := hrun.exists
  exact ⟨scopes, ha, congrArg Prod.snd hstart⟩

theorem Layered.connect (h : s.Layered links) (link : Link) (hm : s.HasModule link.module)
    (hi : s.HasModule link.imported) :
    Layered ((BlockLang.connect link.module link.item link.imported).start s).2
      (link :: links) := by
  have hexport := (h.placed.layers _ hi).publicLayer.has
  obtain ⟨scopes, ha, hconnect⟩ := h.exists_connect link hm
  rw [hconnect]
  have hrest : ∀ id, (scopes.get id).kind = (s.scopes.get id).kind ∧
      (scopes.get id).parent = (s.scopes.get id).parent ∧
      (scopes.get id).vars = (s.scopes.get id).vars := by
    intro id
    obtain ⟨imports, hget⟩ := ScopeTable.get_addImport ha id
    simp [hget]
  refine ⟨h.sound.addImport hexport ha, h.placed.keep (ScopeTable.keeps_of_get
      (ScopeTable.size_addImport ha) (fun id => (hrest id).1) fun id => (hrest id).2.1) rfl rfl
      fun _ => rfl, ⟨fun l hl => ?_, fun id e => ?_⟩,
    h.declares.of_vars (Nat.le_refl _) (fun id => (hrest id).1) fun id => (hrest id).2.2⟩
  · rcases List.mem_cons.mp hl with rfl | hl
    · exact ⟨hm, hi⟩
    · exact h.connected.modules l hl
  · rw [ScopeTable.mem_imports_addImport ha, h.connected.imports, or_comm]
    simp only [List.exists_mem_cons_iff, layerOf, exportOf]
    exact or_congr_left ⟨fun ⟨hid, he⟩ => ⟨hid.symm, he.symm⟩, fun ⟨hid, he⟩ => ⟨hid.symm, he.symm⟩⟩

theorem SameNames.size_modules (h : s.SameNames s') : s'.modules.size = s.modules.size := by
  have hsize := congrArg Array.size h.modules
  simpa only [Array.size_map] using hsize

theorem SameNames.layers (h : s.SameNames s') (m : ModuleId) :
    (s'.module m).layers = (s.module m).layers := by
  have hentry := congrArg (·[m.index]?) h.modules
  simp only [Array.getElem?_map] at hentry
  unfold Session.module
  cases hm : s.modules[m.index]? <;> cases hm' : s'.modules[m.index]? <;> simp_all

theorem Layered.other (h : s.Layered links) (hs : s.SameNames s') : s'.Layered links := by
  have hget : ∀ id, (s'.scopes.get id).kind = (s.scopes.get id).kind ∧
      (s'.scopes.get id).parent = (s.scopes.get id).parent ∧
      (s'.scopes.get id).imports = (s.scopes.get id).imports ∧
      (s'.scopes.get id).vars = (s.scopes.get id).vars := by
    intro id
    obtain ⟨types, hget⟩ := hs.get id
    simp [hget]
  exact ⟨h.sound.congr hs.size hs.visiting hs.get, h.placed.keep (ScopeTable.keeps_of_get hs.size
      (fun id => (hget id).1) fun id => (hget id).2.1) hs.universal hs.size_modules hs.layers,
    h.connected.of_imports hs.size_modules hs.layers fun id => (hget id).2.2.1,
    h.declares.of_vars hs.decls (fun id => (hget id).1) fun id => (hget id).2.2.2⟩

theorem module_push {new : Module} {tree : Arena}
    (hm : Session.HasModule { s with tree, modules := s.modules.push new } m) :
    s.HasModule m ∧
        Session.module { s with tree, modules := s.modules.push new } m = s.module m ∨
      m.index = s.modules.size ∧
        Session.module { s with tree, modules := s.modules.push new } m = new := by
  have hm : m.index < s.modules.size + 1 := by simpa [HasModule] using hm
  simp only [Session.module, Array.getElem?_push]
  rcases Nat.lt_succ_iff_lt_or_eq.mp hm with hlt | heq
  · exact .inl ⟨hlt, by rw [if_neg (Nat.ne_of_lt hlt)]⟩
  · exact .inr ⟨heq, by rw [if_pos heq]; rfl⟩

theorem Layered.register (h : s.Layered links) (tree : Arena) (new : Module)
    (hstand : new.layers.Stand s.scopes s.universal)
    (hnew : ∀ m, s.HasModule m →
      (s.module m).layers.publicImport ≠ new.layers.publicImport) :
    Layered { s with tree, modules := s.modules.push new } links := by
  have hhas : ∀ {m}, s.HasModule m →
      Session.HasModule { s with tree, modules := s.modules.push new } m := by
    intro m hm
    simpa [HasModule] using Nat.lt_succ_of_lt hm
  have hold : ∀ {m}, s.HasModule m →
      Session.module { s with tree, modules := s.modules.push new } m = s.module m := by
    intro m hm
    simp only [Session.module, Array.getElem?_push, if_neg (Nat.ne_of_lt hm)]
  refine ⟨h.sound, ⟨h.placed.universal, fun m hm => ?_, fun m k hm hk heq => ?_⟩,
    ⟨fun link hlink => ?_, fun id e => ?_⟩,
    ⟨h.declares.taken, h.declares.known, h.declares.once⟩⟩
  · rcases module_push hm with ⟨hm, hmodule⟩ | ⟨-, hmodule⟩ <;> rw [hmodule]
    · exact h.placed.layers m hm
    · exact hstand
  · rcases module_push hm, module_push hk with
      ⟨⟨hm, hmodule⟩ | ⟨hm, hmodule⟩, ⟨hk, hmodule'⟩ | ⟨hk, hmodule'⟩⟩ <;>
      rw [hmodule, hmodule'] at heq
    · exact h.placed.apart m k hm hk heq
    · exact absurd heq (hnew m hm)
    · exact absurd heq.symm (hnew k hk)
    · cases m
      cases k
      simp_all
  · exact (h.connected.modules link hlink).imp hhas hhas
  · refine (h.connected.imports id e).trans ?_
    refine exists_congr fun link => and_congr_right fun hlink => ?_
    obtain ⟨hm, hi⟩ := h.connected.modules link hlink
    simp only [layerOf, exportOf, hold hm, hold hi]

theorem Layered.nest {kind : ScopeKind} {parent id : ScopeId} {scopes : ScopeTable}
    (h : s.Layered links) (hp : s.scopes.Has parent)
    (ha : s.scopes.addScope kind (some parent) = (id, scopes)) :
    Layered { s with scopes } links ∧ scopes.Stands id kind (some parent) ∧
      s.scopes.Keeps scopes := by
  have hadd := h.addScope kind hp
  rw [ha] at hadd
  exact ⟨hadd, ScopeTable.stands_of_addScope ha⟩

theorem Layered.addModule (h : s.Layered links) (name path source : String) :
    (s.addModule name path source).2.Layered links := by
  simp only [Session.addModule]
  rcases ha₁ : s.scopes.addScope .publicImport (some s.universal) with ⟨publicImport, t₁⟩
  obtain ⟨h₁, hpublicImport, -⟩ := h.nest h.placed.universal.has ha₁
  rcases ha₂ : t₁.addScope .publicLayer (some publicImport) with ⟨publicLayer, t₂⟩
  obtain ⟨h₂, hpublicLayer, hk₂⟩ := h₁.nest hpublicImport.has ha₂
  rcases ha₃ : t₂.addScope .privateImport (some publicLayer) with ⟨privateImport, t₃⟩
  obtain ⟨h₃, hprivateImport, hk₃⟩ := h₂.nest hpublicLayer.has ha₃
  rcases ha₄ : t₃.addScope .privateLayer (some privateImport) with ⟨privateLayer, t₄⟩
  obtain ⟨h₄, hprivateLayer, hk₄⟩ := h₃.nest hprivateImport.has ha₄
  have hstand : Layers.Stand ⟨privateLayer, privateImport, publicLayer, publicImport⟩ t₄
      s.universal :=
    ⟨hprivateLayer, hk₄ hprivateImport, hk₄ (hk₃ hpublicLayer), hk₄ (hk₃ (hk₂ hpublicImport))⟩
  refine h₄.register _ ⟨name, path, source, _, _, false, false⟩ hstand fun m hm heq => ?_
  -- The outermost layer is a new scope, and those of other modules were there before.
  have hlt : (s.module m).layers.publicImport.index < s.scopes.scopes.size :=
    (h.placed.layers m hm).publicImport.has
  have hindex : publicImport.index = s.scopes.scopes.size :=
    congrArg (·.1.index) ha₁.symm
  rw [show (s.module m).layers.publicImport = publicImport from heq, hindex] at hlt
  exact Nat.lt_irrefl _ hlt

/-- Defining a type changes no names but those of types. -/
theorem sameNames_addType {scope : ScopeId} {d : TypeDef} {id : TypeDefId} {scopes : ScopeTable}
    (ha : s.scopes.addType scope d = .ok (id, scopes)) : s.SameNames { s with scopes } := by
  refine ⟨ScopeTable.size_addType ha, ?_, fun place => ?_, rfl, Nat.le_refl _, rfl⟩
  · obtain ⟨types, rfl⟩ := ScopeTable.addType_eq_ok ha
    rfl
  · exact ScopeTable.get_addType ha place

/-- What is no scope, declaration or module may be anything. -/
theorem sameNames_of_eq (hs : s'.scopes = s.scopes) (hu : s'.universal = s.universal)
    (hd : s.decls.size ≤ s'.decls.size) (hm : s'.modules = s.modules) : s.SameNames s' :=
  ⟨by rw [hs], by rw [hs], fun id => ⟨_, congrArg (·.get id) hs⟩, hu, hd, by rw [hm]⟩

theorem Layered.definePrimitive (h : s.Layered links) (p : Primitive) :
    (s.definePrimitive p).Layered links := by
  unfold Session.definePrimitive
  dsimp only
  split
  · rename_i ha
    exact h.other (sameNames_addType ha)
  · exact h

theorem Layered.declareBuiltin (h : s.Layered links) (op : Builtin) :
    (s.declareBuiltin op).Layered links := by
  have htypes : ∀ types, Layered { s with types } links := fun types =>
    h.other (sameNames_of_eq rfl rfl (Nat.le_refl _) rfl)
  have hkind : (s.scopes.get s.universal).kind.takesImports = false := by
    rw [h.placed.universal.kind]
    rfl
  unfold Session.declareBuiltin
  dsimp only
  split
  · rename_i ha
    exact (htypes _).declare _ hkind ha
  · exact h.other (sameNames_of_eq rfl rfl (by simp [Session.addDecl]) rfl)

theorem layered_new (entrySymbol : String) : (Session.new entrySymbol).Layered [] := by
  refine List.foldlRecOn (motive := (Layered · [])) _ _
    (List.foldlRecOn (motive := (Layered · [])) _ _ ?_ fun s h p _ => h.definePrimitive p)
    fun s h op _ => h.declareBuiltin op
  have hget : ∀ id, ((ScopeTable.empty.addScope .universal none).2.get id).vars = [] ∧
      ((ScopeTable.empty.addScope .universal none).2.get id).imports = [] := by
    intro id
    rw [ScopeTable.get_addScope]
    split
    · exact ⟨rfl, rfl⟩
    · exact ⟨rfl, rfl⟩
  have hnone : ∀ {id name d},
      d ∉ ((ScopeTable.empty.addScope .universal none).2.get id).declsOf name := by
    intro id name d hd
    rw [Scope.declsOf, (hget id).1] at hd
    exact List.not_mem_nil hd
  refine ⟨ScopeTable.sound_empty.addScope .universal (by simp),
    ⟨ScopeTable.stands_addScope _ .universal none, fun m hm => absurd hm (Nat.not_lt_zero _),
      fun m _ hm => absurd hm (Nat.not_lt_zero _)⟩,
    ⟨by simp, fun id e => ?_⟩,
    ⟨fun id _ => (hget id).1, fun _ _ _ hd => absurd hd hnone, fun _ _ _ _ _ hd => absurd hd hnone⟩⟩
  show e ∈ ((ScopeTable.empty.addScope .universal none).2.get id).imports ↔ _
  rw [(hget id).2]
  simp

theorem Arranged.layered (h : s.Arranged links) : s.Layered links := by
  induction h with
  | new entrySymbol => exact layered_new entrySymbol
  | addModule _ name path source ih => exact ih.addModule name path source
  | connect _ link hm hi ih => exact ih.connect link hm hi
  | addScope _ kind parent hp ih => exact ih.addScope kind hp
  | declare _ d overloadable hkind ha ih => exact ih.declare d hkind ha
  | other _ hs ih => exact ih.other hs

theorem Layered.modules_connect (h : s.Layered links) (link : Link)
    (hm : s.HasModule link.module) :
    ((BlockLang.connect link.module link.item link.imported).start s).2.modules = s.modules := by
  obtain ⟨scopes, -, hconnect⟩ := h.exists_connect link hm
  rw [hconnect]

end Session

end BlockLang
