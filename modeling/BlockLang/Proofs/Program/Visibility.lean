import BlockLang.Proofs.Program.Arranged

/-!
# What a module sees of other modules

Nothing checks whether a declaration is private. That only its own module sees it follows
from how the layers of a module stand in one another, from which layer an import goes to
and from where a lookup goes (`Session.Arranged.visible`).
-/

namespace BlockLang

namespace Session

variable {s : Session} {links : List Link} {link : Link} {m k : ModuleId}

/-! ## Paths -/

/-- The layers of two modules are different scopes. -/
theorem Placed.eq_of_publicLayer (h : s.Placed) (hm : s.HasModule m) (hk : s.HasModule k)
    (heq : (s.module m).layers.publicLayer = (s.module k).layers.publicLayer) : m = k := by
  have hparent := (h.layers m hm).publicLayer.parent
  rw [heq, (h.layers k hk).publicLayer.parent] at hparent
  exact h.apart m k hm hk (Option.some.inj hparent).symm

theorem Placed.eq_of_privateImport (h : s.Placed) (hm : s.HasModule m) (hk : s.HasModule k)
    (heq : (s.module m).layers.privateImport = (s.module k).layers.privateImport) : m = k := by
  have hparent := (h.layers m hm).privateImport.parent
  rw [heq, (h.layers k hk).privateImport.parent] at hparent
  exact h.eq_of_publicLayer hm hk (Option.some.inj hparent).symm

theorem Placed.eq_of_privateLayer (h : s.Placed) (hm : s.HasModule m) (hk : s.HasModule k)
    (heq : (s.module m).layers.privateLayer = (s.module k).layers.privateLayer) : m = k := by
  have hparent := (h.layers m hm).privateLayer.parent
  rw [heq, (h.layers k hk).privateLayer.parent] at hparent
  exact h.eq_of_privateImport hm hk (Option.some.inj hparent).symm

/-- Only a layer for imports takes a link. -/
theorem Placed.kind_of_layerOf (h : s.Placed) (hlink : s.HasModule link.module) {id : ScopeId}
    {kind : ScopeKind} {parent : Option ScopeId} (hid : s.scopes.Stands id kind parent)
    (heq : s.layerOf link = id) :
    kind = if link.item.isPublic then .publicImport else .privateImport :=
  hid.kind_eq ((h.layers _ hlink).layer link.item) heq.symm

theorem Placed.link_of_publicImport (h : s.Placed) (hlink : s.HasModule link.module)
    (hk : s.HasModule k) (heq : s.layerOf link = (s.module k).layers.publicImport) :
    link.module = k ∧ link.item.isPublic = true := by
  have hkind := h.kind_of_layerOf hlink (h.layers k hk).publicImport heq
  cases hpublic : link.item.isPublic with
  | true =>
    rw [layerOf, Import.layer, if_pos hpublic] at heq
    exact ⟨h.apart _ _ hlink hk heq, rfl⟩
  | false =>
    rw [hpublic] at hkind
    cases hkind

theorem Placed.link_of_privateImport (h : s.Placed) (hlink : s.HasModule link.module)
    (hk : s.HasModule k) (heq : s.layerOf link = (s.module k).layers.privateImport) :
    link.module = k := by
  have hkind := h.kind_of_layerOf hlink (h.layers k hk).privateImport heq
  cases hpublic : link.item.isPublic with
  | true =>
    rw [hpublic] at hkind
    cases hkind
  | false =>
    rw [layerOf, Import.layer, if_neg (by simp [hpublic])] at heq
    exact h.eq_of_privateImport hlink hk heq

theorem Connected.hasModule (h : s.Connected links) (he : Exposes links m k) : s.HasModule k := by
  cases he with
  | imported mem _ => exact (h.modules _ mem).2
  | exported _ mem _ => exact (h.modules _ mem).2

/-- `id` is a layer of the module, or the universal scope. -/
def IsOwn (s : Session) (m : ModuleId) (id : ScopeId) : Prop :=
  id = (s.module m).layers.privateLayer ∨ id = (s.module m).layers.privateImport ∨
    id = (s.module m).layers.publicLayer ∨ id = (s.module m).layers.publicImport ∨
    id = s.universal

/-- `id` belongs to what the module exports. -/
def IsExport (s : Session) (k : ModuleId) (id : ScopeId) : Prop :=
  id = (s.module k).layers.publicLayer ∨ id = (s.module k).layers.publicImport

theorem Placed.isOwn_parent (h : s.Placed) (hm : s.HasModule m) {id p : ScopeId}
    (hid : s.IsOwn m id) (hp : (s.scopes.get id).parent = some p) : s.IsOwn m p := by
  have hl := h.layers m hm
  rcases hid with rfl | rfl | rfl | rfl | rfl
  · rw [hl.privateLayer.parent] at hp
    exact .inr (.inl (Option.some.inj hp).symm)
  · rw [hl.privateImport.parent] at hp
    exact .inr (.inr (.inl (Option.some.inj hp).symm))
  · rw [hl.publicLayer.parent] at hp
    exact .inr (.inr (.inr (.inl (Option.some.inj hp).symm)))
  · rw [hl.publicImport.parent] at hp
    exact .inr (.inr (.inr (.inr (Option.some.inj hp).symm)))
  · rw [h.universal.parent] at hp
    cases hp

theorem Placed.link_of_isOwn (h : s.Placed) (hlink : s.HasModule link.module)
    (hm : s.HasModule m) (hid : s.IsOwn m (s.layerOf link)) : link.module = m := by
  have hl := h.layers m hm
  rcases hid with hid | hid | hid | hid | hid
  · have hkind := h.kind_of_layerOf hlink hl.privateLayer hid
    split at hkind <;> cases hkind
  · exact h.link_of_privateImport hlink hm hid
  · have hkind := h.kind_of_layerOf hlink hl.publicLayer hid
    split at hkind <;> cases hkind
  · exact (h.link_of_publicImport hlink hm hid).1
  · have hkind := h.kind_of_layerOf hlink h.universal hid
    split at hkind <;> cases hkind

theorem Placed.isExport_parent (h : s.Placed) (hk : s.HasModule k) {id p : ScopeId}
    (hid : s.IsExport k id) (hp : (s.scopes.get id).parent = some p)
    (hkind : (s.scopes.get p).kind ≠ .universal) : s.IsExport k p := by
  have hl := h.layers k hk
  rcases hid with rfl | rfl
  · rw [hl.publicLayer.parent] at hp
    exact .inr (Option.some.inj hp).symm
  · rw [hl.publicImport.parent] at hp
    obtain rfl := Option.some.inj hp
    exact absurd h.universal.kind hkind

theorem Placed.link_of_isExport (h : s.Placed) (hlink : s.HasModule link.module)
    (hk : s.HasModule k) (hid : s.IsExport k (s.layerOf link)) :
    link.module = k ∧ link.item.isPublic = true := by
  rcases hid with hid | hid
  · have hkind := h.kind_of_layerOf hlink (h.layers k hk).publicLayer hid
    split at hkind <;> cases hkind
  · exact h.link_of_publicImport hlink hk hid

/-- Up to the first import a path stays with its module, then with what exposed modules
export. -/
theorem Layered.of_reaches (h : s.Layered links) (hm : s.HasModule m) {below : Bool}
    {id : ScopeId} (hr : s.scopes.Reaches (s.module m).layers.privateLayer below id) :
    if below then ∃ k, Exposes links m k ∧ s.IsExport k id else s.IsOwn m id := by
  induction hr with
  | here => exact .inl rfl
  | @parent below id p path edge enters ih =>
    cases below with
    | false => exact h.placed.isOwn_parent hm ih edge
    | true =>
      obtain ⟨k, hk, hid⟩ := ih
      exact ⟨k, hk, h.placed.isExport_parent (h.connected.hasModule hk) hid edge (enters rfl)⟩
  | @imported below id e path edge enters ih =>
    obtain ⟨link, hlink, rfl, rfl⟩ := (h.connected.imports id e).mp edge
    have hhas := (h.connected.modules link hlink).1
    refine ⟨link.imported, ?_, .inl rfl⟩
    cases below with
    | false => exact .imported hlink (h.placed.link_of_isOwn hhas hm ih)
    | true =>
      obtain ⟨k, hk, hid⟩ := ih
      obtain ⟨rfl, hpublic⟩ := h.placed.link_of_isExport hhas (h.connected.hasModule hk) hid
      exact .exported hk hlink hpublic

theorem Layered.reaches_own (h : s.Layered links) (hm : s.HasModule m) {id : ScopeId}
    (hid : s.IsOwn m id) :
    s.scopes.Reaches (s.module m).layers.privateLayer false id := by
  have hl := h.placed.layers m hm
  have hprivateImport := ScopeTable.Reaches.here.parent hl.privateLayer.parent nofun
  have hpublicLayer := hprivateImport.parent hl.privateImport.parent nofun
  have hpublicImport := hpublicLayer.parent hl.publicLayer.parent nofun
  rcases hid with rfl | rfl | rfl | rfl | rfl
  · exact .here
  · exact hprivateImport
  · exact hpublicLayer
  · exact hpublicImport
  · exact hpublicImport.parent hl.publicImport.parent nofun

theorem Layered.reaches_exported (h : s.Layered links) (hm : s.HasModule m)
    (he : Exposes links m k) :
    s.scopes.Reaches (s.module m).layers.privateLayer true (s.module k).layers.publicLayer := by
  -- A link leads on from its layer, however that was reached.
  have hfollow : ∀ {link : Link} (below : Bool), link ∈ links →
      s.scopes.Reaches (s.module m).layers.privateLayer below (s.layerOf link) →
      s.scopes.Reaches (s.module m).layers.privateLayer true (s.exportOf link) := by
    intro link below hlink hreach
    have hexport := (h.placed.layers _ (h.connected.modules link hlink).2).publicLayer
    refine hreach.imported ((h.connected.imports _ _).mpr ⟨link, hlink, rfl, rfl⟩) ?_
    rw [exportOf, hexport.kind]
    decide
  induction he with
  | @imported link mem own =>
    refine hfollow false mem (h.reaches_own hm ?_)
    rw [layerOf, own, Import.layer]
    split
    · exact .inr (.inr (.inr (.inl rfl)))
    · exact .inr (.inl rfl)
  | @exported link path mem isPublic ih =>
    have hl := h.placed.layers _ (h.connected.modules link mem).1
    refine hfollow true mem ?_
    rw [layerOf, Import.layer, if_pos isPublic]
    refine ih.parent hl.publicLayer.parent fun _ => ?_
    rw [hl.publicImport.kind]
    decide

/-- Nothing is declared where imports go. -/
theorem Declares.not_mem (h : s.Declares) {id : ScopeId} {kind : ScopeKind}
    {parent : Option ScopeId} (hid : s.scopes.Stands id kind parent)
    (hkind : kind.takesImports = true) (name : String) (d : DeclId) :
    d ∉ (s.scopes.get id).declsOf name := by
  rw [Scope.declsOf, h.taken id (hid.kind ▸ hkind)]
  exact List.not_mem_nil

/-- What can be seen from the private layer of a module and declares something. -/
theorem Layered.sees_declaring (h : s.Layered links) (hm : s.HasModule m) {id : ScopeId}
    {name : String} {d : DeclId} (hd : d ∈ (s.scopes.get id).declsOf name) :
    s.scopes.Sees (s.module m).layers.privateLayer id ↔
      id = (s.module m).layers.privateLayer ∨ id = (s.module m).layers.publicLayer ∨
        id = s.universal ∨ ∃ k, Exposes links m k ∧ id = (s.module k).layers.publicLayer := by
  have hl := h.placed.layers m hm
  constructor
  · rintro ⟨_ | _, hreach⟩
    · rcases h.of_reaches hm hreach with rfl | rfl | rfl | rfl | rfl
      · exact .inl rfl
      · exact absurd hd (h.declares.not_mem hl.privateImport rfl name d)
      · exact .inr (.inl rfl)
      · exact absurd hd (h.declares.not_mem hl.publicImport rfl name d)
      · exact .inr (.inr (.inl rfl))
    · obtain ⟨k, hk, rfl | rfl⟩ := h.of_reaches hm hreach
      · exact .inr (.inr (.inr ⟨k, hk, rfl⟩))
      · have hexport := (h.placed.layers k (h.connected.hasModule hk)).publicImport
        exact absurd hd (h.declares.not_mem hexport rfl name d)
  · rintro (rfl | rfl | rfl | ⟨k, hk, rfl⟩)
    · exact ⟨_, .here⟩
    · exact ⟨_, h.reaches_own hm (.inr (.inr (.inl rfl)))⟩
    · exact ⟨_, h.reaches_own hm (.inr (.inr (.inr (.inr rfl))))⟩
    · exact ⟨_, h.reaches_exported hm hk⟩

/-- Each declaration stands in one scope, so it is found only if that is seen. -/
theorem Layered.mem_found (h : s.Layered links) (hm : s.HasModule m) {name : String}
    {found : List DeclId} (hfound : ∀ d, d ∈ found ↔
      ∃ id, s.scopes.Sees (s.module m).layers.privateLayer id ∧ d ∈ (s.scopes.get id).declsOf name)
    {id : ScopeId} {other : String} {d : DeclId} (hd : d ∈ (s.scopes.get id).declsOf other)
    (hmem : d ∈ found) :
    id = (s.module m).layers.privateLayer ∨ id = (s.module m).layers.publicLayer ∨
      id = s.universal ∨ ∃ k, Exposes links m k ∧ id = (s.module k).layers.publicLayer := by
  obtain ⟨id', hsees, hd'⟩ := (hfound d).mp hmem
  obtain rfl := h.declares.once id id' other name d hd hd'
  exact (h.sees_declaring hm hd).mp hsees

/-- From its private layer, a module sees what is declared in its own two layers, in the
universal scope and in the public layers of the modules that one import and then any number
of public imports lead to. What other modules declare as private is not seen, and neither is
what they export unless they are such modules. -/
theorem Arranged.visible (h : s.Arranged links) (hm : s.HasModule m) (name : String) :
    ∃ found, s.scopes.findVars (s.module m).layers.privateLayer name = .ok found ∧ found.Nodup ∧
      (∀ d, d ∈ found ↔
        d ∈ (s.scopes.get (s.module m).layers.privateLayer).declsOf name ∨
        d ∈ (s.scopes.get (s.module m).layers.publicLayer).declsOf name ∨
        d ∈ (s.scopes.get s.universal).declsOf name ∨
        ∃ k, Exposes links m k ∧
          d ∈ (s.scopes.get (s.module k).layers.publicLayer).declsOf name) ∧
      ∀ k, s.HasModule k → k ≠ m → ∀ other d,
        (d ∈ (s.scopes.get (s.module k).layers.privateLayer).declsOf other → d ∉ found) ∧
        (d ∈ (s.scopes.get (s.module k).layers.publicLayer).declsOf other →
          ¬Exposes links m k → d ∉ found) := by
  have hlayered := h.layered
  have hplaced := hlayered.placed
  have hml := hplaced.layers m hm
  obtain ⟨found, hfind, hnodup, hfound⟩ := hlayered.sound.exists_findVars hml.privateLayer.has name
  refine ⟨found, hfind, hnodup, fun d => ?_, fun k hk hne other d => ?_⟩
  · rw [hfound]
    constructor
    · rintro ⟨id, hsees, hd⟩
      rcases (hlayered.sees_declaring hm hd).mp hsees with rfl | rfl | rfl | ⟨k, hk, rfl⟩
      · exact .inl hd
      · exact .inr (.inl hd)
      · exact .inr (.inr (.inl hd))
      · exact .inr (.inr (.inr ⟨k, hk, hd⟩))
    · rintro (hd | hd | hd | ⟨k, hk, hd⟩)
      · exact ⟨_, (hlayered.sees_declaring hm hd).mpr (.inl rfl), hd⟩
      · exact ⟨_, (hlayered.sees_declaring hm hd).mpr (.inr (.inl rfl)), hd⟩
      · exact ⟨_, (hlayered.sees_declaring hm hd).mpr (.inr (.inr (.inl rfl))), hd⟩
      · exact ⟨_, (hlayered.sees_declaring hm hd).mpr (.inr (.inr (.inr ⟨k, hk, rfl⟩))), hd⟩
  have hkl := hplaced.layers k hk
  constructor
  · intro hd hmem
    rcases hlayered.mem_found hm hfound hd hmem with heq | heq | heq | ⟨k', hk', heq⟩
    · exact hne (hplaced.eq_of_privateLayer hk hm heq)
    · cases hkl.privateLayer.kind_eq hml.publicLayer heq
    · cases hkl.privateLayer.kind_eq hplaced.universal heq
    · have hkl' := hplaced.layers k' (hlayered.connected.hasModule hk')
      cases hkl.privateLayer.kind_eq hkl'.publicLayer heq
  · intro hd hhidden hmem
    rcases hlayered.mem_found hm hfound hd hmem with heq | heq | heq | ⟨k', hk', heq⟩
    · cases hkl.publicLayer.kind_eq hml.privateLayer heq
    · exact hne (hplaced.eq_of_publicLayer hk hm heq)
    · cases hkl.publicLayer.kind_eq hplaced.universal heq
    · have hhas := hlayered.connected.hasModule hk'
      exact hhidden (hplaced.eq_of_publicLayer hk hhas heq ▸ hk')

/-- A session with one more constant, if its name is free. -/
def withConst (s : Session) (scope : ScopeId) (name : String) : Session :=
  let d := Decl.new name (.var false true) scope .null
  match s.scopes.addVar d.scope d.name (s.addDecl d).1 false with
  | .ok scopes => { (s.addDecl d).2 with scopes }
  | .error _ => s

theorem Arranged.withConst (h : s.Arranged links) {scope : ScopeId}
    (hkind : (s.scopes.get scope).kind.takesImports = false) (name : String) :
    (s.withConst scope name).Arranged links := by
  unfold Session.withConst
  dsimp only
  split
  · rename_i ha
    exact h.declare _ false hkind ha
  · exact h

theorem modules_withConst (s : Session) (scope : ScopeId) (name : String) :
    (s.withConst scope name).modules = s.modules := by
  unfold Session.withConst
  dsimp only
  split <;> rfl

/-- Two modules are added: `a` imports `b`, and `b` exports what `a` does. -/
def addRing (s : Session) : Session :=
  let s := ((s.addModule "a" "a" "").2.addModule "b" "b" "").2
  let s := ((connect ⟨0⟩ ⟨"b", false, .null⟩ ⟨1⟩).start s).2
  ((connect ⟨1⟩ ⟨"a", true, .null⟩ ⟨0⟩).start s).2

def ringLinks : List Link :=
  [⟨⟨1⟩, ⟨"a", true, .null⟩, ⟨0⟩⟩, ⟨⟨0⟩, ⟨"b", false, .null⟩, ⟨1⟩⟩]

theorem Arranged.connect_of_size (h : s.Arranged links) (hsize : s.modules.size = 2) (link : Link)
    (hm : link.module.index < 2) (hi : link.imported.index < 2) :
    Arranged ((BlockLang.connect link.module link.item link.imported).start s).2 (link :: links) ∧
      ((BlockLang.connect link.module link.item link.imported).start s).2.modules.size = 2 := by
  have hhas : s.HasModule link.module := Nat.lt_of_lt_of_eq hm hsize.symm
  refine ⟨h.connect link hhas (Nat.lt_of_lt_of_eq hi hsize.symm), ?_⟩
  rw [h.layered.modules_connect link hhas, hsize]

theorem Arranged.addRing (h : s.Arranged []) (hnone : s.modules = #[]) :
    s.addRing.Arranged ringLinks ∧ s.addRing.modules.size = 2 := by
  have hmodules := (h.addModule "a" "a" "").addModule "b" "b" ""
  have hsize : ((s.addModule "a" "a" "").2.addModule "b" "b" "").2.modules.size = 2 := by
    simp [modules_addModule, hnone]
  unfold Session.addRing
  dsimp only
  generalize ((s.addModule "a" "a" "").2.addModule "b" "b" "").2 = s₁ at hmodules hsize ⊢
  obtain ⟨hfirst, hsize'⟩ := hmodules.connect_of_size hsize
    ⟨⟨0⟩, ⟨"b", false, .null⟩, ⟨1⟩⟩ (by decide) (by decide)
  exact hfirst.connect_of_size hsize' ⟨⟨1⟩, ⟨"a", true, .null⟩, ⟨0⟩⟩ (by decide) (by decide)

/-- `b` has a public and a private constant `x`. -/
def ringSession : Session :=
  let s := (Session.new "main").addRing
  let s := s.withConst (s.module ⟨1⟩).layers.publicLayer "x"
  s.withConst (s.module ⟨1⟩).layers.privateLayer "x"

theorem arranged_ringSession :
    ringSession.Arranged ringLinks ∧ ringSession.HasModule ⟨0⟩ ∧ ringSession.HasModule ⟨1⟩ := by
  obtain ⟨hring, hsize⟩ := (Arranged.new "main").addRing (modules_new "main")
  unfold ringSession HasModule
  dsimp only
  simp only [modules_withConst, hsize]
  generalize (Session.new "main").addRing = s at hring hsize ⊢
  have hlayers := hring.layered.placed.layers ⟨1⟩ (Nat.lt_of_lt_of_eq (by decide) hsize.symm)
  have hpublic := hring.withConst (congrArg ScopeKind.takesImports hlayers.publicLayer.kind) "x"
  have hlayers' := hpublic.layered.placed.layers ⟨1⟩ (by simp [HasModule, modules_withConst, hsize])
  exact ⟨hpublic.withConst (congrArg ScopeKind.takesImports hlayers'.privateLayer.kind) "x",
    by decide, by decide⟩

/-- The public constant is found from `a` and the private one is not. -/
theorem visible_ringSession :
    (ringSession.Arranged ringLinks ∧ ringSession.HasModule ⟨0⟩) ∧
    ∃ found, ringSession.scopes.findVars (ringSession.module ⟨0⟩).layers.privateLayer "x" =
        .ok found ∧ ⟨89⟩ ∈ found ∧
      ⟨90⟩ ∈ (ringSession.scopes.get (ringSession.module ⟨1⟩).layers.privateLayer).declsOf "x" ∧
      ⟨90⟩ ∉ found := by
  have hdecls :
      ⟨89⟩ ∈ (ringSession.scopes.get (ringSession.module ⟨1⟩).layers.publicLayer).declsOf "x" ∧
      ⟨90⟩ ∈ (ringSession.scopes.get (ringSession.module ⟨1⟩).layers.privateLayer).declsOf "x" := by
    decide +kernel
  obtain ⟨hring, hfirst, hsecond⟩ := arranged_ringSession
  obtain ⟨found, hfind, -, hfound, hhidden⟩ := hring.visible hfirst "x"
  have hexposes : Exposes ringLinks ⟨0⟩ ⟨1⟩ :=
    .imported (List.mem_cons_of_mem _ List.mem_cons_self) rfl
  exact ⟨⟨hring, hfirst⟩, found, hfind, (hfound _).mpr (.inr (.inr (.inr ⟨_, hexposes, hdecls.1⟩))),
    hdecls.2, (hhidden ⟨1⟩ hsecond (by decide) "x" ⟨90⟩).1 hdecls.2⟩

end Session

end BlockLang
