import BlockLang.Program.Load
import BlockLang.Proofs.Grammar.Ends
import BlockLang.Proofs.Homes.Statement
import BlockLang.Proofs.Program.Sound
import BlockLang.Proofs.Token.Tiling

/-!
# The declarations of a module

Once a module has been read, each declaration in it is registered in the scope of the innermost
block around it. Outside all blocks it is in a layer of the module, as the token before it says.
The layers have no other names, and no declaration is registered twice.
-/

namespace BlockLang

/-- The node is part of the tree below `root`, within the block that is given, or else outside
all blocks. -/
inductive Arena.Inside (a : Arena) (root : NodeId) : Option NodeId → NodeId → Prop
  | item {id : NodeId} (mem : id ∈ a.children root) : Inside a root none id
  | block {around : Option NodeId} {up id : NodeId} (h : Inside a root around up)
    (kind : a.kind up = .block) (mem : id ∈ a.children up) : Inside a root (some up) id
  | other {around : Option NodeId} {up id : NodeId} (h : Inside a root around up)
    (kind : a.kind up ≠ .block) (mem : id ∈ a.children up) : Inside a root around id

/-- The scope for a declaration that starts at `start` within the block: the one the block opens.
Outside all blocks it is the public layer for what is exported, and the private one for the
rest. -/
inductive Session.HomeOf (s : Session) (tokens : List Token) (layers : Layers) (start : Position) :
    Option NodeId → ScopeId → Prop
  | inner {block : NodeId} {scope : ScopeId} (opens : s.tree.Opens block scope) :
    HomeOf s tokens layers start (some block) scope
  | exported {i : Nat} (head : Heads tokens i start) (h : Exported tokens i) :
    HomeOf s tokens layers start none layers.publicLayer
  | hidden {i : Nat} (head : Heads tokens i start) (h : ¬ Exported tokens i) :
    HomeOf s tokens layers start none layers.privateLayer

namespace Ground

variable {g : Ground} {s s₁ s' : Session} {around : Option NodeId} {id : NodeId}
  {scope home : ScopeId} {start : Position}

/-- In `s₁`, a module has been added to `s` and nothing of it has been read. -/
structure Begun (g : Ground) (s s₁ : Session) : Prop where
  size : s₁.tree.size = g.root.index + 1
  items : s₁.tree.children g.root = []
  stand : g.layers.Stand s₁.scopes s.universal
  scopes : s.scopes.scopes.size ≤ s₁.scopes.scopes.size
  layers : ∀ layer, layer = g.layers.publicLayer ∨ layer = g.layers.privateLayer →
    s.scopes.scopes.size ≤ layer.index
  empty : ∀ scope : ScopeId, s.scopes.scopes.size ≤ scope.index →
    (s₁.scopes.get scope).vars = [] ∧ (s₁.scopes.get scope).types = []

/-- What has come of a module up to its end. -/
structure Complete (g : Ground) (s s₁ s' : Session) : Prop extends g.Begun s s₁ where
  lodged : g.Lodged s₁ s' []

/-- What is written in the block, or outside all blocks, is written in the scope. -/
inductive Lies (g : Ground) (s : Session) : Option NodeId → ScopeId → Prop
  | none : Lies g s none g.layers.privateLayer
  | block {block : NodeId} {scope : ScopeId} {parent : Option ScopeId}
    (opens : s.tree.Opens block scope) (stands : s.scopes.Stands scope .block parent) :
    Lies g s (some block) scope

-- ---------------------------------------------------------------------------
-- Layers
-- ---------------------------------------------------------------------------

theorem Complete.kind_layer (h : g.Complete s s₁ s') {layer : ScopeId}
    (hlayer : layer = g.layers.publicLayer ∨ layer = g.layers.privateLayer) :
    (s'.scopes.get layer).kind = .publicLayer ∨ (s'.scopes.get layer).kind = .privateLayer := by
  rcases hlayer with rfl | rfl
  · exact .inl (h.lodged.scopes h.stand.publicLayer).kind
  · exact .inr (h.lodged.scopes h.stand.privateLayer).kind

/-- What lies in a block is not written in a layer. -/
theorem Complete.not_layer (h : g.Complete s s₁ s') {block : NodeId}
    (hlies : g.Lies s' (some block) scope) :
    ¬ (scope = g.layers.publicLayer ∨ scope = g.layers.privateLayer) := by
  intro hlayer
  cases hlies with
  | block opens stands => rcases h.kind_layer hlayer with hk | hk <;> simp [stands.kind] at hk

theorem Complete.homeOf (h : g.Complete s s₁ s') (hlies : g.Lies s' around scope)
    (hhome : g.Home scope start home) : s'.HomeOf g.tokens g.layers start around home := by
  cases around with
  | none =>
    cases hlies
    cases hhome with
    | exported head _ exported => exact .exported head exported
    | own head hidden => exact .hidden head (hidden rfl)
  | some block =>
    cases hhome with
    | exported _ item => exact absurd (.inr item) (h.not_layer hlies)
    | own =>
      cases hlies with
      | block opens stands => exact .inner opens

/-- What is at home in a layer stands outside all blocks. -/
theorem Complete.around_eq_none (h : g.Complete s s₁ s') (hlies : g.Lies s' around scope)
    (hhome : g.Home scope start home)
    (hlayer : home = g.layers.publicLayer ∨ home = g.layers.privateLayer) : around = none := by
  cases around with
  | none => rfl
  | some block =>
    cases hhome with
    | exported _ item => exact absurd (.inr item) (h.not_layer hlies)
    | own => exact absurd hlayer (h.not_layer hlies)

-- ---------------------------------------------------------------------------
-- The tree
-- ---------------------------------------------------------------------------

theorem Complete.new_of_holds (h : g.Complete s s₁ s') (hid : g.Holds s' id) : g.New s₁ s' id :=
  ⟨hid, h.size ▸ hid.after⟩

theorem Complete.hands (h : g.Complete s s₁ s') (hid : id ∈ s'.tree.children g.root) :
    g.Hands s' g.layers.privateLayer id := by
  refine (h.lodged.newItems id hid).resolve_left fun hold => ?_
  rw [h.items] at hold
  cases hold

theorem Complete.new (h : g.Complete s s₁ s') (hid : s'.tree.Inside g.root around id) :
    g.New s₁ s' id := by
  induction hid with
  | item mem => exact h.new_of_holds (h.hands mem).toHolds
  | block _ _ mem ih => exact h.new_of_holds ((h.lodged.fits _ ih).below _ mem)
  | other _ _ mem ih => exact h.new_of_holds ((h.lodged.fits _ ih).below _ mem)

/-- A node lies where the block around it says. The body of a function is a block itself and
lies in the scope of the parameters. -/
theorem Complete.lies (h : g.Complete s s₁ s') (hid : s'.tree.Inside g.root around id) :
    s'.tree.kind id = .block ∨ g.Lies s' around (s'.tree.scope id) := by
  induction hid with
  | item mem =>
    rw [(h.hands mem).scope]
    exact .inr .none
  | @block around up id hup kind mem ih =>
    have hfits := h.lodged.fits up (h.new hup)
    rcases hfits.opens .block (by rw [kind]; rfl) with hnone | ⟨child, hchild, hstands⟩
    · simp [hnone] at mem
    · obtain rfl : id = child := by simpa [hchild] using mem
      exact .inr (.block ⟨by rw [kind]; rfl, id, hchild, rfl⟩ hstands)
  | @other around up id hup kind mem ih =>
    have hfits := h.lodged.fits up (h.new hup)
    cases hkind : s'.tree.kind up with
    | block => exact absurd hkind kind
    | funcDecl d =>
      obtain ⟨body, params, result, hchild, hbody, -⟩ := hfits.function d hkind
      obtain rfl : id = body := by simpa [hchild] using mem
      exact .inl hbody
    | _ =>
      rw [hfits.level (by rw [hkind]; rfl) id mem]
      exact .inr (ih.resolve_left kind)

/-- Only mere names are lost. -/
theorem Complete.exists_inside (h : g.Complete s s₁ s') (hid : g.New s₁ s' id)
    (hname : ∀ name, s'.tree.kind id ≠ .symbol name) :
    ∃ around, s'.tree.Inside g.root around id := by
  -- the parent of a node comes later
  induction hlater : s'.tree.size - id.index using Nat.strong_induction_on generalizing id with
  | h n ih =>
  cases h.lodged.kept id hid with
  | name kind => exact absurd kind (hname _)
  | loose mem => cases mem
  | item mem => exact ⟨none, .item mem⟩
  | @below up mem later kind =>
    have hknown : up.index < s'.tree.size := by
      by_contra hnot
      simp [Arena.children_of_not_lt hnot] at mem
    have hup := h.new_of_holds ⟨Nat.lt_trans hid.after later, hknown⟩
    obtain ⟨around, hinside⟩ := ih (s'.tree.size - up.index) (by omega) hup kind rfl
    by_cases hblock : s'.tree.kind up = .block
    · exact ⟨some up, .block hinside hblock mem⟩
    · exact ⟨around, .other hinside hblock mem⟩

/-- What new scopes have comes from the module. -/
theorem Complete.brings (h : g.Complete s s₁ s') {d : DeclId} {name : String}
    (hscope : s.scopes.scopes.size ≤ scope.index)
    (hd : d ∈ (s'.scopes.get scope).declsOf name) : g.Brings s₁ s' scope name d := by
  rcases h.lodged.varOrigin scope name d hd with hold | hnew
  · simp [Scope.declsOf, (h.empty scope hscope).1] at hold
  · exact hnew

theorem Complete.bringsType (h : g.Complete s s₁ s') {t : TypeDefId} {name : String}
    (hscope : s.scopes.scopes.size ≤ scope.index)
    (ht : (s'.scopes.get scope).types.lookup name = some t) : g.BringsType s₁ s' scope name := by
  rcases h.lodged.typeOrigin scope name t ht with hold | hnew
  · simp [(h.empty scope hscope).2] at hold
  · exact hnew

-- ---------------------------------------------------------------------------
-- The declarations
-- ---------------------------------------------------------------------------

/-- What a node declares is at home. -/
theorem Complete.declared (h : g.Complete s s₁ s') {d : DeclId}
    (hid : s'.tree.Inside g.root around id) (hd : (s'.tree.kind id).declares? = some d) :
    ∃ home, g.Home (s'.tree.scope id) (s'.tree.span id).start home ∧ s'.Registers home d ∧
      g.Lies s' around (s'.tree.scope id) := by
  obtain ⟨home, hhome, hregisters⟩ := (h.lodged.fits id (h.new hid)).declares d hd
  refine ⟨home, hhome, hregisters, (h.lies hid).resolve_left fun hblock => ?_⟩
  rw [hblock] at hd
  cases hd

theorem Complete.defined (h : g.Complete s s₁ s') {name : String}
    (hid : s'.tree.Inside g.root around id) (hkind : s'.tree.kind id = .typeDecl name) :
    ∃ home t, g.Home (s'.tree.scope id) (s'.tree.span id).start home ∧
      (s'.scopes.get home).types.lookup name = some t ∧ g.Lies s' around (s'.tree.scope id) := by
  obtain ⟨home, t, hhome, ht⟩ := (h.lodged.fits id (h.new hid)).type name hkind
  refine ⟨home, t, hhome, ht, (h.lies hid).resolve_left fun hblock => ?_⟩
  rw [hblock] at hkind
  cases hkind

theorem Complete.opens (h : g.Complete s s₁ s') {k : ScopeKind}
    (hid : s'.tree.Inside g.root around id) (hk : (s'.tree.kind id).opens? = some k) :
    s'.tree.children id = [] ∨ ∃ scope, s'.tree.Opens id scope ∧
      s.scopes.scopes.size ≤ scope.index ∧
      s'.scopes.Stands scope k (some (s'.tree.scope id)) := by
  refine ((h.lodged.fits id (h.new hid)).opens k hk).imp_right ?_
  rintro ⟨child, hchild, hstands⟩
  have hopens : s'.tree.Opens id (s'.tree.scope child) := ⟨by rw [hk]; rfl, child, hchild, rfl⟩
  exact ⟨_, hopens, h.scopes.trans (h.lodged.fresh id _ (h.new hid) hopens), hstands⟩

/-- The variables and functions of a layer stand outside all blocks. -/
theorem Complete.vars (h : g.Complete s s₁ s') {layer : ScopeId} {name : String} {d : DeclId}
    (hlayer : layer = g.layers.publicLayer ∨ layer = g.layers.privateLayer)
    (hd : d ∈ (s'.scopes.get layer).declsOf name) :
    (s'.decl d).name = name ∧ ∃ id, s'.tree.Inside g.root none id ∧
      (s'.tree.kind id).declares? = some d ∧
      s'.HomeOf g.tokens g.layers (s'.tree.span id).start none layer := by
  have hbrings := h.brings (h.layers layer hlayer) hd
  refine ⟨hbrings.name, ?_⟩
  obtain ⟨hfunction, -⟩ | ⟨id, hnew, hdeclares⟩ := hbrings.source
  · rcases h.kind_layer hlayer with hk | hk <;> simp [hfunction] at hk
  obtain ⟨around, hid⟩ := h.exists_inside hnew fun name hname => by
    rw [hname] at hdeclares
    cases hdeclares
  obtain ⟨home, hhome, hregisters, hlies⟩ := h.declared hid hdeclares
  obtain rfl : home = layer := hregisters.place.symm.trans hbrings.registers.place
  obtain rfl := h.around_eq_none hlies hhome hlayer
  exact ⟨id, hid, hdeclares, h.homeOf hlies hhome⟩

theorem Complete.types (h : g.Complete s s₁ s') {layer : ScopeId} {name : String} {t : TypeDefId}
    (hlayer : layer = g.layers.publicLayer ∨ layer = g.layers.privateLayer)
    (ht : (s'.scopes.get layer).types.lookup name = some t) :
    ∃ id, s'.tree.Inside g.root none id ∧ s'.tree.kind id = .typeDecl name ∧
      s'.HomeOf g.tokens g.layers (s'.tree.span id).start none layer := by
  obtain ⟨id, hnew, hkind, hhome⟩ := h.bringsType (h.layers layer hlayer) ht
  obtain ⟨around, hid⟩ := h.exists_inside hnew fun name hname => by
    rw [hname] at hkind
    cases hkind
  obtain ⟨_, _, -, -, hlies⟩ := h.defined hid hkind
  obtain rfl := h.around_eq_none hlies hhome hlayer
  exact ⟨id, hid, hkind, h.homeOf hlies hhome⟩

theorem Complete.module (h : g.Complete s s₁ s') (id : ModuleId) :
    s'.module id = s₁.module id := by
  rw [Session.module, h.lodged.modules]
  rfl

end Ground

-- ---------------------------------------------------------------------------
-- Reading a module
-- ---------------------------------------------------------------------------

namespace Grammar

open Parse

variable {g : Ground} {s₀ s : Session} {c : Cursor} {parts : Productions Power}

/-- Outside all blocks, before an item. -/
def top : Spot := ⟨[], false⟩

/-- The items go to the root one after another. -/
theorem ifReturns_items (hp : PartsYield g parts) (fuel : Nat) (hr : InPlace g top s₀ [] c s) :
    IfReturns ((items g.root parts.stmt fuel).run c) s fun _ s' => g.Lodged s₀ s' [] := by
  induction fuel generalizing c s with
  | zero => trivial
  | succ fuel ih =>
    refine ifReturns_isAt (fun _ => hr.lodged) ?_
    simp only [Bool.false_eq_true, ↓reduceIte]
    have htop : ¬ top.Exporting := nofun
    refine (hp.plain htop s₀).run hr fun item c₁ s₁ h₁ => ?_
    rw [StateT.run_bind]
    refine triple_bind.mpr (triple_pass.mpr (Pass.triple_tryTree.mpr ?_))
    split
    · next tree hpush =>
      have htakes := Arena.takes_pushChild hpush
      have hl := h₁.lodged.item (h₁.hands item (List.mem_singleton_self item)) htakes
      exact ih ⟨h₁.cursor, ⟨htakes.size ▸ h₁.place.root, h₁.place.privateLayer, nofun⟩, hl, nofun⟩
    · trivial

end Grammar

-- ---------------------------------------------------------------------------
-- Loading a module
-- ---------------------------------------------------------------------------

/-- No two tokens start at the same place, as long as positions can be told apart. -/
theorem nodup_starts {source file : String} {tokens : List Token}
    (hsize : source.utf8ByteSize < UInt32.size) (h : tokenize source file = .ok tokens) :
    (tokens.map (·.span.start)).Nodup := by
  have hlaid := Token.laidOut_tokenize hsize file
  rw [h] at hlaid
  obtain ⟨ts, rfl, htiles⟩ := hlaid
  have hne : ∀ t ∈ ts, ∀ u : Token, t.span.stop.offset ≤ u.span.start.offset →
      t.span.start ≠ u.span.start := by
    intro t ht u hle heq
    have hlt := htiles.start_lt_stop t ht
    rw [heq] at hlt
    exact UInt32.not_lt.mpr hle hlt
  have hordered := (htiles.ordered (by rwa [Nat.zero_add, ← utf8ByteSize_eq])).1
  obtain ⟨hts, -, hlast⟩ := List.pairwise_append.mp hordered
  rw [List.Nodup, List.pairwise_map, List.pairwise_append]
  exact ⟨hts.imp_of_mem fun ht _ hle => hne _ ht _ hle, List.pairwise_singleton _ _,
    fun t ht u hu => hne t ht u (hlast t ht u hu)⟩

/-- Then a declaration has one first token, so that it is exported or not. -/
theorem Heads.unique {source file : String} {tokens : List Token} {i j : Nat} {start : Position}
    (hsize : source.utf8ByteSize < UInt32.size) (h : tokenize source file = .ok tokens)
    (hi : Heads tokens i start) (hj : Heads tokens j start) : i = j := by
  obtain ⟨t, ht, rfl⟩ := hi
  obtain ⟨u, hu, hstart⟩ := hj
  have hlt : i < (tokens.map (·.span.start)).length := by
    rw [List.length_map]
    exact (List.getElem?_eq_some_iff.mp ht).1
  refine (List.getElem?_inj hlt (nodup_starts hsize h)).mp ?_
  rw [List.getElem?_map, List.getElem?_map, ht, hu, Option.map_some, Option.map_some, hstart]

theorem Session.vars_addModule (s : Session) (name path source : String) {scope : ScopeId}
    (h : s.scopes.scopes.size ≤ scope.index) :
    ((s.addModule name path source).2.scopes.get scope).vars = [] ∧
      ((s.addModule name path source).2.scopes.get scope).types = [] := by
  have hold := s.scopes.empty_of_not_has (Nat.not_lt.mpr h)
  simp only [Session.addModule, ScopeTable.get_addScope]
  split_ifs <;> first | exact ⟨rfl, rfl⟩ | exact hold

theorem Session.stand_addModule (s : Session) (name path source : String) :
    ((s.addModule name path source).2.module ⟨s.modules.size⟩).layers.Stand
      (s.addModule name path source).2.scopes s.universal := by
  simp only [Session.addModule, Session.module, Array.getElem?_push_size, Option.getD_some]
  rcases ha₁ : s.scopes.addScope .publicImport (some s.universal) with ⟨publicImport, t₁⟩
  rcases ha₂ : t₁.addScope .publicLayer (some publicImport) with ⟨publicLayer, t₂⟩
  rcases ha₃ : t₂.addScope .privateImport (some publicLayer) with ⟨privateImport, t₃⟩
  rcases ha₄ : t₃.addScope .privateLayer (some privateImport) with ⟨privateLayer, t₄⟩
  obtain ⟨hpublicImport, -⟩ := ScopeTable.stands_of_addScope ha₁
  obtain ⟨hpublicLayer, hk₂⟩ := ScopeTable.stands_of_addScope ha₂
  obtain ⟨hprivateImport, hk₃⟩ := ScopeTable.stands_of_addScope ha₃
  obtain ⟨hprivateLayer, hk₄⟩ := ScopeTable.stands_of_addScope ha₄
  exact ⟨hprivateLayer, hk₄ hprivateImport, hk₄ (hk₃ hpublicLayer), hk₄ (hk₃ (hk₂ hpublicImport))⟩

/-- A module has been added. -/
theorem begun_addModule (s : Session) (name path source : String) (tokens : List Token) :
    let s₁ := (s.addModule name path source).2
    let m := s₁.module ⟨s.modules.size⟩
    Ground.Begun ⟨tokens, m.layers, m.root⟩ s s₁ := by
  intro s₁ m
  have hroot : m.root = ⟨s.tree.size⟩ := s.module_root_addModule name path source
  have hlayers := s.layers_addModule name path source
  have hsize := s.size_scopes_addModule name path source
  refine ⟨?_, ?_, s.stand_addModule name path source, ?_, ?_,
    fun _ => s.vars_addModule name path source⟩
  · show s₁.tree.size = m.root.index + 1
    rw [hroot]
    exact Arena.size_add ..
  · show s₁.tree.children m.root = []
    rw [hroot]
    simp [s₁, Session.addModule, Arena.children, Arena.get, Arena.add, Arena.size]
  · rw [hsize]
    exact Nat.le_add_right _ _
  · show ∀ layer, layer = m.layers.publicLayer ∨ layer = m.layers.privateLayer → _
    rw [hlayers]
    rintro layer (rfl | rfl) <;> exact Nat.le_add_right _ _

/-- A module that has been read is complete. -/
theorem complete_parseModule (s : Session) (name path source file : String) {tokens : List Token}
    (hend : ∀ token, (tokens.getLastD token).kind = .eof) :
    let s₁ := (s.addModule name path source).2
    let m := s₁.module ⟨s.modules.size⟩
    IfReturns (parseModule tokens file ⟨s.modules.size⟩) s₁ fun _ s' =>
      Ground.Complete ⟨tokens, m.layers, m.root⟩ s s₁ s' := by
  intro s₁ m
  have hbegun := begun_addModule s name path source tokens
  let g : Ground := ⟨tokens, m.layers, m.root⟩
  have hc : (Cursor.start tokens file m.layers).At g Grammar.top :=
    ⟨rfl, rfl, rfl, hend _, [], rfl, by simp⟩
  have hs : Grammar.top.In g s₁ := ⟨by rw [hbegun.size]; exact Nat.lt_succ_self _,
    hbegun.stand.privateLayer.has, List.forall_mem_nil _⟩
  refine triple_bind.mpr (triple_get.mpr ?_)
  refine triple_bind.mpr ((Grammar.ifReturns_items (Grammar.partsYield_productions _) _
    (.refl hc hs)).imp ?_)
  rintro ⟨⟨⟩, c⟩ s' hl
  exact ⟨hbegun, hl⟩

/-- A module that is loaded has been known, or its text is read. -/
theorem ifReturns_loadModule_of {library : Library} {name : String} {requestedAt : Position}
    {s : Session} {Q : ModuleId → Session → Prop}
    (hknown : ∀ id, s.findModule? name = some id → Q id s)
    (hread : ∀ path text tokens, library.find name = .text path text →
      tokenize text path = .ok tokens →
      IfReturns (parseModule tokens path ⟨s.modules.size⟩) (s.addModule name path text).2
        fun _ s' => Q ⟨s.modules.size⟩ s') :
    IfReturns (loadModule library name requestedAt) s Q := by
  unfold loadModule
  refine triple_bind.mpr (triple_get.mpr ?_)
  split
  · next id hfind => exact hknown id hfind
  split
  · next path text htext =>
    unfold parseText
    refine triple_bind.mpr (triple_get.mpr (triple_bind.mpr (triple_set.mpr ?_)))
    split
    · trivial
    · next tokens htokens =>
      exact triple_bind.mpr (triple_adapt.mpr (hread path text tokens htext htokens))
  · trivial
  · trivial

end BlockLang
