import BlockLang.Proofs.Homes.Retained

/-!
# Where declarations are at home

A node is written in a scope. Blocks and functions open a scope of their own for what stands
below them, and every other node hands its scope on. `Lodged` says that all nodes of a module
that came since another session are written so, that what they declare is registered at home,
and that nothing else has been registered. It holds over steps that follow one another.
-/

namespace BlockLang

/-- The kind of the scope that a node opens for what stands below it. -/
def NodeKind.opens? : NodeKind → Option ScopeKind
  | .block => some .block
  | .funcDecl _ => some .function
  | _ => none

/-- The variable or function that a node declares. -/
def NodeKind.declares? : NodeKind → Option DeclId
  | .varDecl d .. | .funcDecl d => some d
  | _ => none

/-- What stands below the node is written in the scope, which the node opens. -/
structure Arena.Opens (a : Arena) (id : NodeId) (scope : ScopeId) : Prop where
  kind : (a.kind id).opens?.isSome = true
  child : ∃ child, a.children id = [child] ∧ a.scope child = scope

/-- The next scope to be entered. -/
def Session.nextScope (s : Session) : ScopeId := ⟨s.scopes.scopes.size⟩

/-- The next scope is entered. -/
def Session.enter (s : Session) (kind : ScopeKind) (parent : ScopeId) : Session :=
  { s with scopes := (s.scopes.addScope kind (some parent)).2 }

/-- The token numbered `i` starts at the position. -/
def Heads (tokens : List Token) (i : Nat) (start : Position) : Prop :=
  ∃ first, tokens[i]? = some first ∧ first.span.start = start

/-- The token numbered `i` comes right after `export`. -/
def Exported (tokens : List Token) (i : Nat) : Prop :=
  ∃ word ∈ (tokens.take i).getLast?, word.kind = .exportWord

/-- What stays the same while a module is read. -/
structure Ground where
  tokens : List Token
  layers : Layers
  root : NodeId

namespace Ground

variable (g : Ground)

/-- Below the root, the node belongs to the module that is read. -/
structure Holds (s : Session) (id : NodeId) : Prop where
  after : g.root.index < id.index
  known : id.index < s.tree.size

/-- The node is one of the module, written in the scope. -/
structure Hands (s : Session) (scope : ScopeId) (id : NodeId) : Prop extends g.Holds s id where
  scope : s.tree.scope id = scope

/-- The node of the module has come since `s`. -/
structure New (s s' : Session) (id : NodeId) : Prop extends g.Holds s' id where
  later : s.tree.size ≤ id.index

/-- Where a declaration belongs that is written in `scope` and starts at `start`, with the token
numbered `i`: an item of the module in a layer, any other in the scope itself. -/
inductive Home (scope : ScopeId) (start : Position) : ScopeId → Prop
  | exported {i : Nat} (head : Heads g.tokens i start) (item : scope = g.layers.privateLayer)
    (exported : Exported g.tokens i) : Home scope start g.layers.publicLayer
  | own {i : Nat} (head : Heads g.tokens i start)
    (hidden : scope = g.layers.privateLayer → ¬ Exported g.tokens i) : Home scope start scope

/-- What a node of this kind declares is at home, and what stands below it is written in the
scope it opens, or else in its own. -/
structure Admits (s : Session) (kind : NodeKind) (span : Span) (scope : ScopeId)
    (children : List NodeId) : Prop where
  below : ∀ child ∈ children, g.Holds s child
  level : kind.opens? = none → ∀ child ∈ children, s.tree.scope child = scope
  opens : ∀ k, kind.opens? = some k → children = [] ∨
    ∃ child, children = [child] ∧ s.scopes.Stands (s.tree.scope child) k (some scope)
  declares : ∀ d, kind.declares? = some d →
    ∃ home, g.Home scope span.start home ∧ s.Registers home d
  function : ∀ d, kind = .funcDecl d → ∃ body params result, children = [body] ∧
    s.tree.kind body = .block ∧ (s.decl d).kind = .function params result (s.tree.scope body) ∧
    ∀ p ∈ params, s.Registers (s.tree.scope body) p.decl
  type : ∀ name, kind = .typeDecl name →
    ∃ home t, g.Home scope span.start home ∧ (s.scopes.get home).types.lookup name = some t

/-- The node stands as it can. -/
def Fits (s : Session) (id : NodeId) : Prop :=
  g.Admits s (s.tree.kind id) (s.tree.span id) (s.tree.scope id) (s.tree.children id)

/-- The node is not lost: it is at hand, or a child of the root or of a later node. A mere name
may be lost. -/
inductive Kept (a : Arena) (hs : List NodeId) (id : NodeId) : Prop
  | name {name : String} (kind : a.kind id = .symbol name)
  | loose (mem : id ∈ hs)
  | item (mem : id ∈ a.children g.root)
  | below {up : NodeId} (mem : id ∈ a.children up) (later : id.index < up.index)
    (kind : ∀ name, a.kind up ≠ .symbol name)

/-- The nodes of the module, the tables and the names in them are still there. The root takes
what is written outside all blocks. -/
structure Keeps (s s' : Session) : Prop extends s.Retains s' where
  tree : s.tree.size ≤ s'.tree.size
  nodes : ∀ id, g.Holds s id → s.tree.KeepsNode s'.tree id
  items : ∀ id ∈ s.tree.children g.root, id ∈ s'.tree.children g.root
  newItems : ∀ id ∈ s'.tree.children g.root,
    id ∈ s.tree.children g.root ∨ g.Hands s' g.layers.privateLayer id

/-- The new nodes stand as they can, in scopes that they open for themselves. Those in `hs` are
at hand. -/
structure Grown (s s' : Session) (hs : List NodeId) : Prop extends g.Keeps s s' where
  fits : ∀ id, g.New s s' id → g.Fits s' id
  fresh : ∀ id scope, g.New s s' id → s'.tree.Opens id scope →
    s.scopes.scopes.size ≤ scope.index
  apart : ∀ id id' scope, g.New s s' id → g.New s s' id' → s'.tree.Opens id scope →
    s'.tree.Opens id' scope → id = id'
  kept : ∀ id, g.New s s' id → g.Kept s'.tree hs id

/-- The scope has the declaration because of a new node, or as a parameter. -/
structure Brings (s s' : Session) (scope : ScopeId) (name : String) (d : DeclId) : Prop where
  name : (s'.decl d).name = name
  registers : s'.Registers scope d
  source : (s'.scopes.get scope).kind = .function ∧ (s'.decl d).kind = .parameter ∨
    ∃ id, g.New s s' id ∧ (s'.tree.kind id).declares? = some d

/-- The scope has the type because of a new node. -/
def BringsType (s s' : Session) (scope : ScopeId) (name : String) : Prop :=
  ∃ id, g.New s s' id ∧ s'.tree.kind id = .typeDecl name ∧
    g.Home (s'.tree.scope id) (s'.tree.span id).start scope

/-- Moreover, all new names come from new nodes. -/
structure Lodged (s s' : Session) (hs : List NodeId) : Prop extends g.Grown s s' hs where
  varOrigin : ∀ scope name d, d ∈ (s'.scopes.get scope).declsOf name →
    d ∈ (s.scopes.get scope).declsOf name ∨ g.Brings s s' scope name d
  typeOrigin : ∀ scope name t, (s'.scopes.get scope).types.lookup name = some t →
    (s.scopes.get scope).types.lookup name = some t ∨ g.BringsType s s' scope name

variable {g} {s s' s'' s₁ s₂ : Session} {id : NodeId} {hs ks : List NodeId}

-- ---------------------------------------------------------------------------
-- What is kept
-- ---------------------------------------------------------------------------

theorem Keeps.holds (h : g.Keeps s s') (hid : g.Holds s id) : g.Holds s' id :=
  ⟨hid.after, Nat.lt_of_lt_of_le hid.known h.tree⟩

theorem Keeps.hands {scope : ScopeId} (h : g.Keeps s s') (hid : g.Hands s scope id) :
    g.Hands s' scope id :=
  ⟨h.holds hid.toHolds, (h.nodes id hid.toHolds).scope.trans hid.scope⟩

theorem Keeps.trans (h : g.Keeps s s') (h' : g.Keeps s' s'') : g.Keeps s s'' where
  toRetains := h.toRetains.trans h'.toRetains
  tree := Nat.le_trans h.tree h'.tree
  nodes := fun id hid => (h.nodes id hid).trans (h'.nodes id (h.holds hid))
  items := fun id hid => h'.items id (h.items id hid)
  newItems := by
    intro id hid
    rcases h'.newItems id hid with hid | hnew
    · exact (h.newItems id hid).imp_right h'.hands
    · exact .inr hnew

/-- The tree is left alone. -/
theorem Keeps.of_retains (h : s.Retains s') (htree : s'.tree = s.tree) : g.Keeps s s' where
  toRetains := h
  tree := by rw [htree]
  nodes := fun id _ => htree ▸ .refl _ id
  items := fun _ hid => htree ▸ hid
  newItems := fun _ hid => .inl (htree ▸ hid)

theorem keeps_of_addsNode {kind : NodeKind} {span : Span} {scope : ScopeId}
    {children : List NodeId} (hroot : g.root.index < s.tree.size)
    (h : s.AddsNode s' id kind span scope children) : g.Keeps s s' where
  toRetains := h.retains
  tree := by rw [h.size]; exact Nat.le_succ _
  nodes := fun other hother => h.others other hother.known
  items := fun _ hother => (h.others g.root hroot).children ▸ hother
  newItems := fun _ hother => .inl ((h.others g.root hroot).children ▸ hother)

theorem Admits.keep {kind : NodeKind} {span : Span} {scope : ScopeId} {children : List NodeId}
    (h : g.Admits s kind span scope children) (hk : g.Keeps s s') :
    g.Admits s' kind span scope children where
  below := fun child hc => hk.holds (h.below child hc)
  level := fun ho child hc => by
    rw [(hk.nodes child (h.below child hc)).scope]
    exact h.level ho child hc
  opens := by
    intro k ho
    refine (h.opens k ho).imp_right ?_
    rintro ⟨child, rfl, hstands⟩
    refine ⟨child, rfl, ?_⟩
    rw [(hk.nodes child (h.below child (by simp))).scope]
    exact hk.scopes hstands
  declares := by
    intro d hd
    obtain ⟨home, hhome, hregisters⟩ := h.declares d hd
    exact ⟨home, hhome, hregisters.retain hk.toRetains⟩
  function := by
    rintro d rfl
    obtain ⟨body, params, result, rfl, hbody, hdecl, hparams⟩ := h.function d rfl
    obtain ⟨_, -, hregisters⟩ := h.declares d rfl
    have hsame := hk.nodes body (h.below body (by simp))
    refine ⟨body, params, result, rfl, hsame.kind.trans hbody, ?_, fun p hp => ?_⟩
    · rw [hk.decl hregisters.known, hsame.scope, hdecl]
    · rw [hsame.scope]
      exact (hparams p hp).retain hk.toRetains
  type := by
    intro name hname
    obtain ⟨home, t, hhome, ht⟩ := h.type name hname
    exact ⟨home, t, hhome, hk.types home name t ht⟩

/-- A variable at home, with its initial value if there is one. -/
theorem admits_varDecl {name : String} {isConst isRef : Bool} {declared : Option TypeExpr}
    {scope home : ScopeId} {start : Position} {span : Span} {decl : DeclId}
    (hd : s.Declared s' (.new name (.var isConst isRef) home start) decl)
    (hhome : g.Home scope span.start home) (hvalue : ∀ child ∈ hs, g.Hands s scope child) :
    g.Admits s' (.varDecl decl declared isRef) span scope hs := by
  have hk : g.Keeps s s' := .of_retains hd.toRetains hd.tree
  have hbelow : ∀ child ∈ hs, g.Hands s' scope child := fun child hchild =>
    hk.hands (hvalue child hchild)
  refine ⟨fun child hchild => (hbelow child hchild).toHolds,
    fun _ child hchild => (hbelow child hchild).scope, nofun, ?_, nofun, nofun⟩
  rintro _ ⟨⟩
  exact ⟨home, hhome, hd.registers⟩

/-- A function at home, with a body that stands where its parameters do. -/
theorem admits_funcDecl {name : String} {params : List Param} {result : Option TypeExpr}
    {scope home own : ScopeId} {start : Position} {span : Span} {decl : DeclId} {body : NodeId}
    (hd : s.Declared s' (.new name (.function params result own) home start) decl)
    (hhome : g.Home scope span.start home) (hbody : g.Hands s own body)
    (hblock : s.tree.kind body = .block) (hown : s.scopes.Stands own .function (some scope))
    (hparams : ∀ p ∈ params, s.Registers own p.decl) :
    g.Admits s' (.funcDecl decl) span scope [body] := by
  have hk : g.Keeps s s' := .of_retains hd.toRetains hd.tree
  have hscope := (hk.hands hbody).scope
  refine ⟨?_, nofun, ?_, ?_, ?_, nofun⟩
  · rintro child hchild
    obtain rfl := List.mem_singleton.mp hchild
    exact hk.holds hbody.toHolds
  · rintro _ ⟨⟩
    refine .inr ⟨body, rfl, ?_⟩
    rw [hscope]
    exact hk.scopes hown
  · rintro _ ⟨⟩
    exact ⟨home, hhome, hd.registers⟩
  · rintro _ ⟨⟩
    refine ⟨body, params, result, rfl, ?_, ?_, fun p hp => ?_⟩
    · exact (hk.nodes body hbody.toHolds).kind.trans hblock
    · rw [hd.decl_eq, hscope]
      rfl
    · rw [hscope]
      exact (hparams p hp).retain hk.toRetains

/-- A type definition at home. -/
theorem admits_typeDecl {name : String} {scope home : ScopeId} {span : Span}
    (hd : s.Defined s' home name) (hhome : g.Home scope span.start home) :
    g.Admits s' (.typeDecl name) span scope [] := by
  refine ⟨nofun, nofun, nofun, nofun, nofun, ?_⟩
  rintro _ ⟨⟩
  obtain ⟨t, ht⟩ := hd.found
  exact ⟨home, t, hhome, ht⟩

theorem Fits.keep (h : g.Fits s id) (hid : g.Holds s id) (hk : g.Keeps s s') : g.Fits s' id := by
  have hsame := hk.nodes id hid
  unfold Fits
  rw [hsame.kind, hsame.span, hsame.scope, hsame.children]
  exact Admits.keep h hk

/-- A node opens the scope that it opened before. -/
theorem Keeps.opens_iff (hk : g.Keeps s s') (hid : g.Holds s id) (h : g.Fits s id)
    {scope : ScopeId} : s'.tree.Opens id scope ↔ s.tree.Opens id scope := by
  have hsame := hk.nodes id hid
  have hbelow : ∀ child, s.tree.children id = [child] →
      s'.tree.scope child = s.tree.scope child := fun child hc =>
    (hk.nodes child (h.below child (by simp [hc]))).scope
  constructor
  · rintro ⟨hkind, child, hchild, rfl⟩
    rw [hsame.children] at hchild
    exact ⟨hsame.kind ▸ hkind, child, hchild, (hbelow child hchild).symm⟩
  · rintro ⟨hkind, child, hchild, rfl⟩
    exact ⟨hsame.kind.symm ▸ hkind, child, hsame.children.trans hchild, hbelow child hchild⟩

/-- The scope that a node opens is in the table. -/
theorem Fits.has {scope : ScopeId} (h : g.Fits s id) (ho : s.tree.Opens id scope) :
    s.scopes.Has scope := by
  obtain ⟨hkind, child, hchild, rfl⟩ := ho
  obtain ⟨k, hk⟩ := Option.isSome_iff_exists.mp hkind
  rcases h.opens k hk with hnil | ⟨_, honly, hstands⟩
  · simp [hnil] at hchild
  · obtain rfl : _ = child := by simpa [honly] using hchild
    exact hstands.has

theorem Kept.mono {a : Arena} (h : g.Kept a hs id) (hsub : ∀ id ∈ hs, id ∈ ks) :
    g.Kept a ks id := by
  cases h with
  | name kind => exact .name kind
  | loose mem => exact .loose (hsub id mem)
  | item mem => exact .item mem
  | below mem later kind => exact .below mem later kind

/-- A node is not lost if those at hand are not. -/
theorem Kept.keep (h : g.Kept s.tree hs id) (hid : g.Holds s id) (hk : g.Keeps s s')
    (hloose : ∀ id ∈ hs, g.Holds s id → g.Kept s'.tree ks id) : g.Kept s'.tree ks id := by
  cases h with
  | name kind => exact .name ((hk.nodes id hid).kind.trans kind)
  | loose mem => exact hloose id mem hid
  | item mem => exact .item (hk.items id mem)
  | @below up mem later kind =>
    have hup : g.Holds s up := by
      refine ⟨Nat.lt_trans hid.after later, ?_⟩
      by_contra hnot
      simp [Arena.children_of_not_lt hnot] at mem
    have hsame := hk.nodes up hup
    exact .below (hsame.children.symm ▸ mem) later fun name => hsame.kind.symm ▸ kind name

-- ---------------------------------------------------------------------------
-- One step after the other
-- ---------------------------------------------------------------------------

theorem New.congr (h : g.New s s' id) (htree : s'.tree = s''.tree) : g.New s s'' id :=
  ⟨⟨h.after, htree ▸ h.known⟩, h.later⟩

theorem New.of_later (h : g.New s' s'' id) (hle : s.tree.size ≤ s'.tree.size) :
    g.New s s'' id := ⟨h.toHolds, Nat.le_trans hle h.later⟩

theorem New.keep (h : g.New s s' id) (hk : g.Keeps s' s'') : g.New s s'' id :=
  ⟨hk.holds h.toHolds, h.later⟩

theorem New.cases (h : g.New s s'' id) : g.New s s' id ∨ g.New s' s'' id := by
  by_cases hlt : id.index < s'.tree.size
  · exact .inl ⟨⟨h.after, hlt⟩, h.later⟩
  · exact .inr ⟨h.toHolds, Nat.le_of_not_lt hlt⟩

theorem new_of_addsNode {kind : NodeKind} {span : Span} {scope : ScopeId}
    {children : List NodeId} (hroot : g.root.index < s.tree.size)
    (hn : s.AddsNode s' id kind span scope children) : g.New s s' id := by
  rw [hn.fresh]
  exact ⟨⟨hroot, by rw [hn.size]; exact Nat.lt_succ_self _⟩, Nat.le_refl _⟩

/-- Only the node that is added is new. -/
theorem New.of_addsNode {kind : NodeKind} {span : Span} {scope : ScopeId}
    {children : List NodeId} {other : NodeId} (h : g.New s s₂ other)
    (hn : s₁.AddsNode s₂ id kind span scope children) : g.New s s₁ other ∨ other = id := by
  refine h.cases.imp_right fun hnew => ?_
  have hlt := hnew.known
  have hle := hnew.later
  rw [hn.size] at hlt
  rw [hn.fresh]
  cases other
  exact congrArg NodeId.mk (Nat.le_antisymm (Nat.le_of_lt_succ hlt) hle)

theorem Grown.trans {hs' : List NodeId} (h : g.Grown s s' hs) (h' : g.Grown s' s'' hs')
    (hloose : ∀ id ∈ hs, g.Holds s' id → g.Kept s''.tree ks id) (hsub : ∀ id ∈ hs', id ∈ ks) :
    g.Grown s s'' ks := by
  have hk := h'.toKeeps
  -- what was opened before was there before, and what is opened later was not
  have hsplit : ∀ id id' scope, g.New s s' id → g.New s' s'' id' → s''.tree.Opens id scope →
      ¬ s''.tree.Opens id' scope := by
    intro id id' scope hold hnew ho ho'
    have hfits := h.fits id hold
    have hlt := hfits.has ((hk.opens_iff hold.toHolds hfits).mp ho)
    exact Nat.not_lt.mpr (h'.fresh id' scope hnew ho') hlt
  refine ⟨h.toKeeps.trans hk, fun id hid => ?_, fun id scope hid ho => ?_,
    fun id id' scope hid hid' ho ho' => ?_, fun id hid => ?_⟩
  · rcases hid.cases with hold | hnew
    · exact (h.fits id hold).keep hold.toHolds hk
    · exact h'.fits id hnew
  · rcases hid.cases with hold | hnew
    · exact h.fresh id scope hold ((hk.opens_iff hold.toHolds (h.fits id hold)).mp ho)
    · exact Nat.le_trans h.size (h'.fresh id scope hnew ho)
  · rcases hid.cases, hid'.cases with ⟨hold | hnew, hold' | hnew'⟩
    · exact h.apart id id' scope hold hold' ((hk.opens_iff hold.toHolds (h.fits id hold)).mp ho)
        ((hk.opens_iff hold'.toHolds (h.fits id' hold')).mp ho')
    · exact absurd ho' (hsplit id id' scope hold hnew' ho)
    · exact absurd ho (hsplit id' id scope hold' hnew ho')
    · exact h'.apart id id' scope hnew hnew' ho ho'
  · rcases hid.cases with hold | hnew
    · exact (h.kept id hold).keep hold.toHolds hk hloose
    · exact (h'.kept id hnew).mono hsub

theorem Brings.keep {scope : ScopeId} {name : String} {d : DeclId}
    (h : g.Brings s s' scope name d) (hk : g.Keeps s' s'') : g.Brings s s'' scope name d := by
  have hdecl := hk.decl h.registers.known
  have hregisters := h.registers.retain hk.toRetains
  refine ⟨hdecl ▸ h.name, hregisters, h.source.imp ?_ ?_⟩
  · rintro ⟨hkind, hparam⟩
    have hstands : s'.scopes.Stands scope .function (s'.scopes.get scope).parent :=
      ⟨ScopeTable.has_of_mem_declsOf h.registers.listed, hkind, rfl⟩
    exact ⟨(hk.scopes hstands).kind, hdecl ▸ hparam⟩
  · rintro ⟨id, hid, hd⟩
    exact ⟨id, hid.keep hk, (hk.nodes id hid.toHolds).kind.symm ▸ hd⟩

theorem BringsType.keep {scope : ScopeId} {name : String} (h : g.BringsType s s' scope name)
    (hk : g.Keeps s' s'') : g.BringsType s s'' scope name := by
  obtain ⟨id, hid, hkind, hhome⟩ := h
  have hsame := hk.nodes id hid.toHolds
  refine ⟨id, hid.keep hk, hsame.kind.trans hkind, ?_⟩
  rw [hsame.scope, hsame.span]
  exact hhome

theorem Brings.of_later {scope : ScopeId} {name : String} {d : DeclId}
    (h : g.Brings s' s'' scope name d) (hle : s.tree.size ≤ s'.tree.size) :
    g.Brings s s'' scope name d := by
  refine ⟨h.name, h.registers, h.source.imp_right ?_⟩
  rintro ⟨id, hid, hd⟩
  exact ⟨id, hid.of_later hle, hd⟩

theorem BringsType.of_later {scope : ScopeId} {name : String}
    (h : g.BringsType s' s'' scope name) (hle : s.tree.size ≤ s'.tree.size) :
    g.BringsType s s'' scope name := by
  obtain ⟨id, hid, h⟩ := h
  exact ⟨id, hid.of_later hle, h⟩

/-- New names after more steps, once the nodes are known to be in place. -/
theorem Lodged.extend (h : g.Lodged s s' hs) (hg : g.Grown s s'' ks) (hk : g.Keeps s' s'')
    (hvars : ∀ scope name d, d ∈ (s''.scopes.get scope).declsOf name →
      d ∈ (s'.scopes.get scope).declsOf name ∨ g.Brings s' s'' scope name d)
    (htypes : ∀ scope name t, (s''.scopes.get scope).types.lookup name = some t →
      (s'.scopes.get scope).types.lookup name = some t ∨ g.BringsType s' s'' scope name) :
    g.Lodged s s'' ks where
  toGrown := hg
  varOrigin := by
    intro scope name d hd
    rcases hvars scope name d hd with hold | hnew
    · exact (h.varOrigin scope name d hold).imp_right (·.keep hk)
    · exact .inr (hnew.of_later h.tree)
  typeOrigin := by
    intro scope name t ht
    rcases htypes scope name t ht with hold | hnew
    · exact (h.typeOrigin scope name t hold).imp_right (·.keep hk)
    · exact .inr (hnew.of_later h.tree)

theorem Lodged.trans {hs' : List NodeId} (h : g.Lodged s s' hs) (h' : g.Lodged s' s'' hs')
    (hloose : ∀ id ∈ hs, g.Holds s' id → g.Kept s''.tree ks id) (hsub : ∀ id ∈ hs', id ∈ ks) :
    g.Lodged s s'' ks :=
  h.extend (h.toGrown.trans h'.toGrown hloose hsub) h'.toKeeps h'.varOrigin h'.typeOrigin

/-- What is at hand stays there over a step that has more of it. -/
theorem Lodged.append {hs' : List NodeId} (h : g.Lodged s s' hs) (h' : g.Lodged s' s'' hs') :
    g.Lodged s s'' (hs ++ hs') :=
  h.trans h' (fun _ hid _ => .loose (List.mem_append_left _ hid))
    fun _ hid => List.mem_append_right _ hid

/-- A name at hand may be dropped. -/
theorem Lodged.drop {name : String} (h : g.Lodged s s' (id :: hs))
    (hname : s'.tree.kind id = .symbol name) : g.Lodged s s' hs := by
  refine ⟨⟨h.toKeeps, h.fits, h.fresh, h.apart, fun other hother => ?_⟩, h.varOrigin, h.typeOrigin⟩
  cases h.kept other hother with
  | name kind => exact .name kind
  | loose mem =>
    rcases List.mem_cons.mp mem with rfl | mem
    · exact .name hname
    · exact .loose mem
  | item mem => exact .item mem
  | below mem later kind => exact .below mem later kind

-- ---------------------------------------------------------------------------
-- Steps
-- ---------------------------------------------------------------------------

/-- Without a new node there is nothing to put in place. -/
theorem Keeps.grown (h : g.Keeps s s') (hsize : s'.tree.size = s.tree.size) (hs : List NodeId) :
    g.Grown s s' hs := by
  have hnone : ∀ id, ¬ g.New s s' id := fun id hid =>
    Nat.not_lt.mpr hid.later (hsize ▸ hid.known)
  exact ⟨h, fun id hid => absurd hid (hnone id), fun id _ hid => absurd hid (hnone id),
    fun id _ _ hid => absurd hid (hnone id), fun id hid => absurd hid (hnone id)⟩

/-- Only what no name and no node depends on has changed. -/
theorem lodged_of_eq (hscopes : s'.scopes = s.scopes) (hdecls : s'.decls = s.decls)
    (hmodules : s'.modules = s.modules) (hsize : s'.tree.size = s.tree.size)
    (hnodes : ∀ id, s.tree.KeepsNode s'.tree id) (hs : List NodeId) : g.Lodged s s' hs where
  toGrown := by
    have hitems := (hnodes g.root).children
    exact Keeps.grown ⟨.of_eq hscopes hdecls hmodules, Nat.le_of_eq hsize.symm,
      fun id _ => hnodes id, fun id hid => hitems ▸ hid, fun id hid => .inl (hitems ▸ hid)⟩ hsize hs
  varOrigin := fun _ _ _ hd => .inl (hscopes ▸ hd)
  typeOrigin := fun _ _ _ ht => .inl (hscopes ▸ ht)

theorem Lodged.refl (s : Session) (hs : List NodeId) : g.Lodged s s hs :=
  lodged_of_eq rfl rfl rfl rfl (fun id => .refl _ id) hs

theorem lodged_enter (s : Session) (kind : ScopeKind) (parent : ScopeId) (hs : List NodeId) :
    g.Lodged s (s.enter kind parent) hs where
  toGrown := (Keeps.of_retains (s.retains_addScope kind (some parent)) rfl).grown rfl hs
  varOrigin := by
    intro scope name d hd
    rw [Session.enter, ScopeTable.get_addScope] at hd
    split at hd
    · simp [Scope.declsOf] at hd
    · exact .inl hd
  typeOrigin := by
    intro scope name t ht
    rw [Session.enter, ScopeTable.get_addScope] at ht
    split at ht
    · simp at ht
    · exact .inl ht

/-- A parameter goes to the scope of its function. -/
theorem lodged_param {d : Decl} {decl : DeclId} (h : s.Declared s' d decl)
    (hscope : s.scopes.Has d.scope) (hkind : (s.scopes.get d.scope).kind = .function)
    (hparam : d.kind = .parameter) (hs : List NodeId) : g.Lodged s s' hs where
  toGrown := (Keeps.of_retains h.toRetains h.tree).grown (by rw [h.tree]) hs
  varOrigin := by
    intro scope name x hx
    refine (h.origin scope name x hx).imp_right ?_
    rintro ⟨rfl, rfl, rfl⟩
    have hstands := h.scopes ⟨hscope, hkind, rfl⟩
    exact ⟨by rw [h.decl_eq], h.registers, .inl ⟨hstands.kind, by rw [h.decl_eq, hparam]⟩⟩
  typeOrigin := fun scope name t ht => .inl (h.types_eq scope ▸ ht)

/-- A new node takes what is at hand as its children. If it opens a scope, that is one no other
new node has opened. -/
theorem Grown.node {kind : NodeKind} {span : Span} {scope : ScopeId} {children : List NodeId}
    (h : g.Grown s s₁ hs) (hroot : g.root.index < s₁.tree.size)
    (hn : s₁.AddsNode s₂ id kind span scope children)
    (hadmits : g.Admits s₁ kind span scope children)
    (hfresh : ∀ σ, s₂.tree.Opens id σ → s.scopes.scopes.size ≤ σ.index ∧
      ∀ other, g.New s s₁ other → ¬ s₁.tree.Opens other σ)
    (hloose : ∀ i ∈ hs, i ∈ children ∨ i ∈ ks) (hks : id ∈ ks)
    (hname : children ≠ [] → ∀ name, kind ≠ .symbol name) : g.Grown s s₂ ks := by
  have hk : g.Keeps s₁ s₂ := keeps_of_addsNode hroot hn
  have hfits : g.Fits s₂ id := by
    unfold Fits
    rw [hn.kind, hn.span, hn.scope, hn.children]
    exact hadmits.keep hk
  have hold : ∀ {other σ}, g.New s s₁ other → s₂.tree.Opens other σ → s₁.tree.Opens other σ :=
    fun {other σ} hother ho => (hk.opens_iff hother.toHolds (h.fits other hother)).mp ho
  refine ⟨h.toKeeps.trans hk, fun other hother => ?_, fun other σ hother ho => ?_,
    fun other other' σ hother hother' ho ho' => ?_, fun other hother => ?_⟩
  · rcases hother.of_addsNode hn with hother | rfl
    · exact (h.fits other hother).keep hother.toHolds hk
    · exact hfits
  · rcases hother.of_addsNode hn with hother | rfl
    · exact h.fresh other σ hother (hold hother ho)
    · exact (hfresh σ ho).1
  · rcases hother.of_addsNode hn, hother'.of_addsNode hn with ⟨hother | rfl, hother' | rfl⟩
    · exact h.apart other other' σ hother hother' (hold hother ho) (hold hother' ho')
    · exact absurd (hold hother ho) ((hfresh σ ho').2 other hother)
    · exact absurd (hold hother' ho') ((hfresh σ ho).2 other' hother')
    · rfl
  · rcases hother.of_addsNode hn with hother | rfl
    · refine (h.kept other hother).keep hother.toHolds hk fun i hi hholds => ?_
      rcases hloose i hi with hmem | hmem
      rotate_left
      · exact .loose hmem
      have hchild : i ∈ s₂.tree.children id := by rwa [hn.children]
      refine .below hchild ?_ fun name => ?_
      · rw [hn.fresh]
        exact hholds.known
      · rw [hn.kind]
        exact hname (List.ne_nil_of_mem hmem) name
    · exact .loose hks

/-- A new node that declares nothing. -/
theorem Lodged.node {kind : NodeKind} {span : Span} {scope : ScopeId} {children : List NodeId}
    (h : g.Lodged s s₁ hs) (hroot : g.root.index < s₁.tree.size)
    (hn : s₁.AddsNode s₂ id kind span scope children)
    (hadmits : g.Admits s₁ kind span scope children)
    (hfresh : ∀ σ, s₂.tree.Opens id σ → s.scopes.scopes.size ≤ σ.index ∧
      ∀ other, g.New s s₁ other → ¬ s₁.tree.Opens other σ)
    (hloose : ∀ i ∈ hs, i ∈ children ∨ i ∈ ks) (hks : id ∈ ks)
    (hname : children ≠ [] → ∀ name, kind ≠ .symbol name) : g.Lodged s s₂ ks := by
  have hscopes : s₂.scopes = s₁.scopes := by rw [hn.rest]
  refine h.extend (h.toGrown.node hroot hn hadmits hfresh hloose hks hname)
    (keeps_of_addsNode hroot hn) (fun scope name d hd => .inl ?_) fun scope name t ht => .inl ?_
  · exact hscopes ▸ hd
  · exact hscopes ▸ ht

/-- A declaration and the node that stands for it. -/
theorem Lodged.declared {kind : NodeKind} {span : Span} {scope : ScopeId} {children : List NodeId}
    {d : Decl} {decl : DeclId} (h : g.Lodged s s₁ hs) (hd : s₁.Declared s' d decl)
    (hroot : g.root.index < s'.tree.size) (hn : s'.AddsNode s₂ id kind span scope children)
    (hdeclares : kind.declares? = some decl) (hadmits : g.Admits s' kind span scope children)
    (hfresh : ∀ σ, s₂.tree.Opens id σ → s.scopes.scopes.size ≤ σ.index ∧
      ∀ other, g.New s s₁ other → ¬ s₁.tree.Opens other σ)
    (hloose : ∀ i ∈ hs, i ∈ children) : g.Lodged s s₂ [id] := by
  have hdeclare : g.Keeps s₁ s' := .of_retains hd.toRetains hd.tree
  have hnode : g.Keeps s' s₂ := keeps_of_addsNode hroot hn
  have hscopes : s₂.scopes = s'.scopes := by rw [hn.rest]
  have hgrown := (h.toGrown.trans (hdeclare.grown (by rw [hd.tree]) hs)
    (fun _ hid _ => .loose hid) fun _ hid => hid).node hroot hn hadmits
    (fun σ ho => ⟨(hfresh σ ho).1, fun other hother =>
      hd.tree ▸ (hfresh σ ho).2 other (hother.congr hd.tree)⟩)
    (fun i hi => .inl (hloose i hi)) (List.mem_singleton_self id)
    (by rintro - name rfl; cases hdeclares)
  refine h.extend hgrown (hdeclare.trans hnode) (fun scope name x hx => ?_)
    fun scope name t ht => .inl ?_
  · refine (hd.origin scope name x (hscopes ▸ hx)).imp_right ?_
    rintro ⟨rfl, rfl, rfl⟩
    have hnew : g.New s₁ s₂ id := (new_of_addsNode hroot hn).of_later hdeclare.tree
    refine ⟨?_, hd.registers.retain hnode.toRetains, .inr ⟨id, hnew, hn.kind ▸ hdeclares⟩⟩
    rw [hnode.decl hd.registers.known, hd.decl_eq]
  · rw [hscopes, hd.types_eq] at ht
    exact ht

/-- A type definition and the node that stands for it. -/
theorem Lodged.defined {span : Span} {scope home : ScopeId} {name : String}
    (h : g.Lodged s s₁ []) (hd : s₁.Defined s' home name) (hroot : g.root.index < s'.tree.size)
    (hn : s'.AddsNode s₂ id (.typeDecl name) span scope [])
    (hhome : g.Home scope span.start home) : g.Lodged s s₂ [id] := by
  have hdefine : g.Keeps s₁ s' := .of_retains hd.toRetains hd.tree
  have hnode : g.Keeps s' s₂ := keeps_of_addsNode hroot hn
  have hscopes : s₂.scopes = s'.scopes := by rw [hn.rest]
  have hgrown := (h.toGrown.trans (hdefine.grown (by rw [hd.tree]) [])
    (fun _ hid _ => .loose hid) fun _ hid => hid).node hroot hn (admits_typeDecl hd hhome)
    (by
      rintro σ ⟨hopens, -⟩
      rw [hn.kind] at hopens
      cases hopens)
    nofun (List.mem_singleton_self id) fun hne => absurd rfl hne
  refine h.extend hgrown (hdefine.trans hnode) (fun scope name d hx => .inl ?_)
    fun place other t ht => ?_
  · rw [hscopes, Scope.declsOf, hd.vars_eq] at hx
    exact hx
  · refine (hd.origin place other t (hscopes ▸ ht)).imp_right ?_
    rintro ⟨rfl, rfl⟩
    refine ⟨id, (new_of_addsNode hroot hn).of_later hdefine.tree, hn.kind, ?_⟩
    rw [hn.scope, hn.span]
    exact hhome

/-- No node that came after a scope was entered opens that scope. -/
theorem Lodged.not_opens {kind : ScopeKind} {parent : ScopeId} {other : NodeId}
    (h : g.Lodged (s.enter kind parent) s' hs) (hother : g.New s s' other) :
    ¬ s'.tree.Opens other s.nextScope := by
  intro ho
  have hle := h.fresh other _ ⟨hother.toHolds, hother.later⟩ ho
  simp only [Session.enter, ScopeTable.size_addScope] at hle
  exact Nat.not_succ_le_self _ hle

/-- The root takes the item at hand. -/
theorem Lodged.item {tree : Arena} (h : g.Lodged s s₁ [id])
    (hid : g.Hands s₁ g.layers.privateLayer id) (ht : s₁.tree.Takes tree g.root [id]) :
    g.Lodged s { s₁ with tree } [] := by
  have hothers : ∀ other, g.Holds s₁ other → s₁.tree.KeepsNode tree other :=
    fun other hother => ht.others other fun hroot => Nat.lt_irrefl _ (hroot ▸ hother.after)
  have hitem : g.Hands { s₁ with tree } g.layers.privateLayer id :=
    ⟨⟨hid.after, ht.size ▸ hid.known⟩, (hothers id hid.toHolds).scope.trans hid.scope⟩
  have hk : g.Keeps s₁ { s₁ with tree } := by
    refine ⟨.of_eq rfl rfl rfl, Nat.le_of_eq ht.size.symm, hothers, fun other hother => ?_,
      fun other hother => ?_⟩
    · rw [ht.children]
      exact List.mem_append_left _ hother
    · rw [ht.children] at hother
      refine (List.mem_append.mp hother).imp_right fun hlast => ?_
      rwa [List.mem_singleton.mp hlast]
  have hstep : g.Lodged s₁ { s₁ with tree } [] :=
    ⟨hk.grown ht.size [], fun _ _ _ hd => .inl hd, fun _ _ _ ht => .inl ht⟩
  refine h.trans hstep (fun other hother _ => .item ?_) nofun
  rw [ht.children]
  exact List.mem_append_right _ hother

end Ground
end BlockLang
