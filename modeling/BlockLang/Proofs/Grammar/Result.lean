import BlockLang.Proofs.Grammar.Ends
import BlockLang.Proofs.Lowered.Module

/-!
# What reading a module results in

Reading always ends. If it is not stopped by a token that does not fit, no token is left
and every node of the module has children as its kind asks for. Imports are among the items of
the module, or among the arms and bodies of those.
-/

namespace BlockLang

/-- The token for the end is the last one, and only the last one. -/
structure EndsOnce (tokens : List Token) (last : Token) : Prop where
  kind : last.kind = .eof
  split : ∃ front, tokens = front ++ [last] ∧ ∀ t ∈ front, t.kind ≠ .eof

theorem EndsOnce.getLastD {tokens : List Token} {last : Token} (h : EndsOnce tokens last)
    (token : Token) : (tokens.getLastD token).kind = .eof := by
  obtain ⟨front, rfl, -⟩ := h.split
  rw [List.getLastD_concat]
  exact h.kind

/-- Behind the only token for the end there is nothing to read. -/
theorem EndsOnce.rest_of_suffix {tokens rest : List Token} {last eof : Token}
    (h : EndsOnce tokens last) (hrest : rest <:+ tokens) (hk : (rest.headD eof).kind = .eof) :
    ∀ t ∈ rest, t.kind = .eof := by
  obtain ⟨front, rfl, hfront⟩ := h.split
  rcases List.suffix_concat_iff.mp hrest with rfl | ⟨more, rfl, hmore⟩
  · exact nofun
  · cases more with
    | nil => exact List.forall_mem_singleton.mpr h.kind
    | cons t more => exact absurd hk (hfront t (hmore.subset List.mem_cons_self))

/-- The kinds of the children of a node. -/
def Arena.childKinds (a : Arena) (id : NodeId) : List NodeKind := (a.children id).map a.kind

/-- The children of a node that was read, by its kind. A statement is anything but a pair. -/
def Session.WellFormed (s : Session) (root id : NodeId) : Prop :=
  let kinds := s.tree.childKinds id
  match s.tree.kind id with
  | .moduleRoot _ => id = root ∧ ∀ kind ∈ kinds, kind ≠ .pair
  | .block => kinds.length ≤ 1
  | .pair => ∃ first rest, kinds = [first, rest] ∧ first ≠ .pair
  | .ifElse => (kinds.length = 2 ∨ kinds.length = 3) ∧
      (∀ kind ∈ kinds.take 1, kind.isOperand = true) ∧ ∀ kind ∈ kinds, kind ≠ .pair
  | .whileLoop => kinds.length = 2 ∧
      (∀ kind ∈ kinds.take 1, kind.isOperand = true) ∧ ∀ kind ∈ kinds, kind ≠ .pair
  | .binary _ | .assign | .refBind | .index =>
    kinds.length = 2 ∧ ∀ kind ∈ kinds, kind.isOperand = true
  | .unary _ | .field _ | .exprStmt => kinds.length = 1 ∧ ∀ kind ∈ kinds, kind.isOperand = true
  | .returnStmt => kinds.length ≤ 1 ∧ ∀ kind ∈ kinds, kind.isOperand = true
  | .varDecl decl _ isRef => kinds.length ≤ 1 ∧ (∀ kind ∈ kinds, kind.isOperand = true) ∧
      ∃ d isConst, s.decls[decl.index]? = some d ∧ d.kind = .var isConst isRef ∧
        (isConst = true ∨ isRef = true → kinds.length = 1)
  | .funcDecl _ => kinds = [.block]
  | .tuple names => kinds.length = names.length ∧ ∀ kind ∈ kinds, kind.isOperand = true
  | .call _ | .list => ∀ kind ∈ kinds, kind.isOperand = true
  | .literal => kinds = [] ∧ (s.tree.facts id).type.isSome ∧ (s.tree.facts id).value.isSome
  | .symbol _ | .typeDecl _ | .importDecl .. => kinds = []
  | .basicBlock | .temp _ | .cast _ | .builtinCall _ | .nullValue => False

section
variable {s : Session} {t : Tree} {root : NodeId}

theorem Arena.Holds.childKinds {a : Arena} {parent : Option NodeId} (h : a.Holds parent t) :
    a.childKinds t.handle = t.children.map Tree.kind := by
  rw [Arena.childKinds, h.children, List.map_map]
  exact List.map_congr_left fun c hc => (Arena.holdsAll_iff.mp h.below c hc).kind

theorem Written.wellFormed {parent : Option NodeId} (h : Written s t)
    (hholds : s.tree.Holds parent t) (root : NodeId) : s.WellFormed root t.handle := by
  obtain ⟨id, kind, cs⟩ := t
  have harity : kind.Arity cs.length := h.formed.arity
  have hvalues (hall : (Tree.node id kind cs).operands = cs) :
      ∀ k ∈ cs.map Tree.kind, k.isOperand = true :=
    List.forall_mem_map.mpr fun c hc => (h.formed.operands c (hall.symm ▸ hc)).kind
  have hfirst (htake : (Tree.node id kind cs).operands = cs.take 1) :
      ∀ k ∈ (cs.map Tree.kind).take 1, k.isOperand = true := by
    rw [← List.map_take]
    exact List.forall_mem_map.mpr fun c hc => (h.formed.operands c (htake.symm ▸ hc)).kind
  have hsingle (hblock : kind ≠ .block) (hpair : kind ≠ .pair) :
      ∀ k ∈ cs.map Tree.kind, k ≠ .pair :=
    List.forall_mem_map.mpr fun c hc hk =>
      (h.formed.chained c hc hk).elim hblock hpair
  unfold Session.WellFormed
  rw [hholds.kind, hholds.childKinds]
  simp only [Tree.kind_node, Tree.children_node, List.length_map, Tree.handle_node]
  cases kind with
  | moduleRoot name => exact harity.elim
  | block => exact harity
  | pair =>
    obtain ⟨first, rest, rfl⟩ := List.length_eq_two.mp harity
    exact ⟨first.kind, rest.kind, rfl, h.formed.chain rfl first [rest] rfl⟩
  | ifElse => exact ⟨harity, hfirst rfl, hsingle nofun nofun⟩
  | whileLoop => exact ⟨harity, hfirst rfl, hsingle nofun nofun⟩
  | binary op => exact ⟨harity, hvalues rfl⟩
  | assign => exact ⟨harity, hvalues rfl⟩
  | refBind => exact ⟨harity, hvalues rfl⟩
  | index => exact ⟨harity, hvalues rfl⟩
  | unary op => exact ⟨harity, hvalues rfl⟩
  | field name => exact ⟨harity, hvalues rfl⟩
  | exprStmt => exact ⟨harity, hvalues rfl⟩
  | returnStmt => exact ⟨harity, hvalues rfl⟩
  | varDecl decl declared isRef =>
    obtain ⟨d, isConst, hd, hkind, hconst⟩ := h.binding decl declared isRef rfl
    have hcount : cs.length = 1 ∨ cs.length = 0 ∧ declared.isSome ∧ isRef = false := harity
    refine ⟨by omega, hvalues rfl, d, isConst, hd, hkind, ?_⟩
    rintro (hc | rfl)
    · exact hconst hc
    · exact hcount.resolve_right fun hnone => nomatch hnone.2.2
  | funcDecl d =>
    obtain ⟨body, rfl⟩ := List.length_eq_one_iff.mp harity
    rw [List.map_singleton, h.formed.body d rfl body List.mem_cons_self]
  | tuple names => exact ⟨harity, hvalues rfl⟩
  | call name => exact hvalues rfl
  | list => exact hvalues rfl
  | literal =>
    obtain ⟨type, value, hfacts⟩ := h.literal rfl
    rw [Tree.handle_node] at hfacts
    obtain rfl := List.length_eq_zero_iff.mp harity
    exact ⟨rfl, by rw [hfacts]; rfl, by rw [hfacts]; rfl⟩
  | symbol name => exact List.map_eq_nil_iff.mpr (List.length_eq_zero_iff.mp harity)
  | typeDecl name => exact List.map_eq_nil_iff.mpr (List.length_eq_zero_iff.mp harity)
  | importDecl name isPublic => exact List.map_eq_nil_iff.mpr (List.length_eq_zero_iff.mp harity)
  | basicBlock => exact harity
  | temp id => exact harity
  | cast target => exact harity
  | builtinCall b => exact harity
  | nullValue => exact harity

/-- The cursor has not left the tokens of the module. -/
theorem keeps_suffix (tokens : List Token) :
    Adds.Keeps (fun _ => True) fun depth c _ => c.inner.length = depth ∧ c.rest <:+ tokens where
  depth := fun _ _ _ h => h.1
  name := fun _ _ _ _ _ => trivial
  cursor := fun _ _ _ _ h hc => ⟨hc.inner ▸ h.1, hc.rest.trans h.2⟩
  leave := fun _ _ _ h => ⟨by simp [h.1], h.2⟩
  enter := fun _ _ _ _ h => ⟨by simp [h.1], h.2⟩
  tree := fun _ _ _ _ h _ => h
  decl := fun _ _ _ _ _ _ _ h _ _ => h
  declare := fun _ _ _ _ _ _ _ _ _ h _ _ _ => h
  typeDef := fun _ _ _ _ _ _ _ _ _ _ h _ => h
  listType := fun _ _ _ _ h => h
  literal := fun _ _ _ _ _ _ h _ _ => h

theorem wellFormed_root {ts : List Tree} {name : String}
    (hholds : s.tree.Holds none (.node root (.moduleRoot name) ts))
    (hw : ∀ t ∈ ts, t.Every (Written s)) (hplaced : ∀ t ∈ ts, Grammar.Placed 0 t) {id : NodeId}
    (hid : s.tree.Reaches root id) : s.WellFormed root id := by
  obtain ⟨u, hu, rfl⟩ := Tree.mem_ids.mp (hholds.reaches_iff.mp hid)
  obtain ⟨parent, hheld⟩ := hholds.subtree hu
  rw [Tree.subtrees_node, List.mem_append, List.mem_singleton] at hu
  rcases hu with hu | rfl
  · obtain ⟨t, ht, hu⟩ := Tree.mem_subtreesOf.mp hu
    exact (hw t ht u hu).wellFormed hheld root
  · unfold Session.WellFormed
    rw [hholds.kind, hholds.childKinds]
    exact ⟨rfl, List.forall_mem_map.mpr fun t ht => (hplaced t ht).single⟩

/-- Only conditionals and loops have imports below them. -/
theorem Written.eq_of_import {t u : Tree} (h : Written s t) (hu : u ∈ t.subtrees)
    (hi : u.kind.isImport = true) : u = t ∨ t.kind = .ifElse ∨ t.kind = .whileLoop := by
  obtain ⟨id, kind, cs⟩ := t
  rw [Tree.subtrees_node, List.mem_append, List.mem_singleton] at hu
  rcases hu with hu | rfl
  · obtain ⟨c, hc, hu⟩ := Tree.mem_subtreesOf.mp hu
    by_contra hnone
    obtain ⟨-, hnone⟩ := not_or.mp hnone
    obtain ⟨hif, hwhile⟩ := not_or.mp hnone
    have hfree : u.kind.isImport = false := h.formed.outside hif hwhile c hc u hu
    rw [hi] at hfree
    cases hfree
  · exact .inl rfl

theorem above_import_root {ts : List Tree} {name : String}
    (hholds : s.tree.Holds none (.node root (.moduleRoot name) ts))
    (hw : ∀ t ∈ ts, t.Every (Written s)) {id below : NodeId} (hid : s.tree.Reaches root id)
    (hbelow : s.tree.Reaches id below) (hi : (s.tree.kind below).isImport = true) :
    below = id ∨ id = root ∨ s.tree.kind id = .ifElse ∨ s.tree.kind id = .whileLoop := by
  obtain ⟨t, ht, rfl⟩ := Tree.mem_ids.mp (hholds.reaches_iff.mp hid)
  obtain ⟨_, hheld⟩ := hholds.subtree ht
  obtain ⟨u, hu, rfl⟩ := Tree.mem_ids.mp (hheld.reaches_iff.mp hbelow)
  obtain ⟨_, hheld'⟩ := hheld.subtree hu
  rw [hheld'.kind] at hi
  rw [hheld.kind]
  rw [Tree.subtrees_node, List.mem_append, List.mem_singleton] at ht
  rcases ht with ht | rfl
  · obtain ⟨item, hitem, ht⟩ := Tree.mem_subtreesOf.mp ht
    rcases (hw item hitem t ht).eq_of_import hu hi with rfl | hk
    · exact .inl rfl
    · exact .inr (.inr hk)
  · exact .inr (.inl rfl)

/-- Above an import there are the root, conditionals and loops only, however reading the
module ends. So it is among the items of the module unless it is an arm or a body. -/
theorem above_import_of_read (tokens : List Token) (s : Session) (name path source file : String) :
    let m := (s.addModule name path source).1
    let s₀ := (s.addModule name path source).2
    let Q := fun s₁ : Session => ∀ id below, s₁.tree.Reaches (s₁.module m).root id →
      s₁.tree.Reaches id below → (s₁.tree.kind below).isImport = true →
      below = id ∨ id = (s₁.module m).root ∨ s₁.tree.kind id = .ifElse ∨
        s₁.tree.kind id = .whileLoop
    Triple (parseModule tokens file m) s₀ (fun _ => Q) fun _ => Q := by
  intro m s₀ Q
  refine (triple_read (keeps_suffix tokens) tokens name path source file s.tree.forest_nil
    ⟨rfl, List.suffix_refl tokens⟩).mono ?_ ?_
  all_goals
    rintro - s₁ ⟨-, -, ts, hf, -, hw, -⟩ id below hid hbelow hi
    exact above_import_root hf.head.1 hw hid hbelow hi

/-- Reading a module ends. Unless it is stopped, no token is left but that for the end, the
check of the links of the module ends and finds nothing, and all its nodes are well formed. -/
theorem wellFormed_of_read {tokens : List Token} {last : Token} (h : EndsOnce tokens last)
    (s : Session) (name path source file : String) :
    let m := (s.addModule name path source).1
    let s₀ := (s.addModule name path source).2
    parseModule tokens file m = (do let _ ← readTokens tokens file m) ∧
      Triple (readTokens tokens file m) s₀
        (fun c s₁ => (∀ t ∈ c.rest, t.kind = .eof) ∧
          ((∃ n, s₁.tree.Checks [(s₁.module m).root] n none) ∧
            s₁.tree.badLink? (s₁.module m).root = none) ∧
          ∀ id, s₁.tree.Reaches (s₁.module m).root id → s₁.WellFormed (s₁.module m).root id)
        fun e _ => e ≠ .fault .endless := by
  intro m s₀
  have hforest : s₀.tree.Forest [.node (s₀.module m).root (.moduleRoot name) []] := by
    rw [s.module_root_addModule name path source]
    exact s.tree.forest_nil.add _ _ _
  have hread := triple_readTokens (keeps_suffix tokens) tokens file hforest
    ⟨rfl, List.suffix_refl tokens⟩
  have hends : Triple (parseModule tokens file m) s₀ (fun _ _ => True) fun e _ =>
    e ≠ .fault .endless := parseModule_ends h.getLastD file m
  rw [parseModule_eq, triple_bind] at hends
  refine ⟨parseModule_eq tokens file m, ?_⟩
  refine (hends.and (hread.mono ?_ fun _ _ _ => trivial)).imp fun _ _ hboth => hboth.2
  rintro c s₁ ⟨hend, ts, hf, ⟨-, hsuffix⟩, hw, hplaced, ha⟩
  have hsame : s₁.module m = s₀.module m := by
    rw [ha.rest]
    rfl
  rw [hsame]
  obtain ⟨hholds, hnodup⟩ := hf.head
  exact ⟨h.rest_of_suffix hsuffix hend, hholds.checks hnodup,
    fun id => wellFormed_root hholds hw hplaced⟩

theorem wellFormed_callTokens : ∃ s₁,
    (parseModule callTokens "m" (bareSession.addModule "m" "m" "").1).start
      (bareSession.addModule "m" "m" "").2 = (.ok (), s₁) ∧
    let m := (bareSession.addModule "m" "m" "").1
    let s₀ := (bareSession.addModule "m" "m" "").2
    parseModule callTokens "m" m = (do let _ ← readTokens callTokens "m" m) ∧
      Triple (readTokens callTokens "m" m) s₀
        (fun c s₁ => (∀ t ∈ c.rest, t.kind = .eof) ∧
          ((∃ n, s₁.tree.Checks [(s₁.module m).root] n none) ∧
            s₁.tree.badLink? (s₁.module m).root = none) ∧
          ∀ id, s₁.tree.Reaches (s₁.module m).root id → s₁.WellFormed (s₁.module m).root id)
        fun e _ => e ≠ .fault .endless := by
  have hends : EndsOnce callTokens ⟨.eof, "", .null⟩ := ⟨rfl, callTokens.dropLast, rfl, by decide⟩
  obtain ⟨s₁, h⟩ := read_callTokens
  exact ⟨s₁, h, wellFormed_of_read hends bareSession "m" "m" "" "m"⟩

end
end BlockLang
