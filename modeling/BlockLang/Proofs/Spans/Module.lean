import BlockLang.Proofs.Grammar.Definition
import BlockLang.Proofs.Homes.Module
import BlockLang.Proofs.Spans.Statement
import BlockLang.Tree.Walk

/-!
# The spans of a module

The items of a module are read one after another, so their spans stand in a row as the children
of its root, whose span is the whole text. Below them the spans nest as the productions leave them.
All this is so as long as the positions of a text can be told apart
(`not_nestWithin_of_loaded`).
-/

namespace BlockLang

open BlockLang.Span (InRow)

/-- The span stops within the text shown as `file`. -/
structure Span.Within (span : Span) (file text : String) : Prop where
  startFile : span.start.file = file
  stopFile : span.stop.file = file
  stop : span.stop.offset.toNat ≤ text.utf8ByteSize

/-- The spans of the nodes that can be reached from `root` nest, and are within the text shown as
`file`. Below the root none is empty. -/
def Arena.NestWithin (a : Arena) (root : NodeId) (file text : String) : Prop :=
  ∀ id, a.Reaches root id → (a.span id).Within file text ∧ a.SpansNest id ∧
    (id ≠ root → (a.span id).start < (a.span id).stop)

namespace Extent

variable {e : Extent} {m : Mark} {hs : List NodeId} {c : Cursor} {s s' : Session}
  {root child : NodeId}

/-- A node from before the extent takes a child. -/
theorem Laid.take (h : e.Laid m hs c s) (ht : s.tree.Takes s'.tree root [child])
    (hroot : root.index < e.first) : e.Laid m hs c s' := by
  have hspan : ∀ id, s'.tree.span id = s.tree.span id := by
    intro id
    by_cases hid : id = root
    · rw [hid]
      exact ht.span
    · exact (ht.others id hid).span
  refine ⟨h.cursor, ht.size ▸ h.begun, fun id hfirst hlt => ?_, ht.size ▸ h.known, ?_,
    h.passed⟩
  · have hne : id ≠ root := by
      rintro rfl
      exact Nat.not_lt.mpr hfirst hroot
    rw [ht.size] at hlt
    exact (h.nests id hfirst hlt).congr (ht.others id hne).children (hspan id)
      fun child _ => hspan child
  · rw [List.map_congr_left fun id _ => hspan id]
    exact h.row

/-- If the children of a node are at hand, what is below it nests. -/
theorem Laid.nests_of_reaches (h : e.Laid m (s.tree.children root) c s) {id : NodeId}
    (hid : s.tree.Reaches root id) :
    id = root ∨ id.index < s.tree.size ∧ s.tree.Nests e.first id := by
  induction hid with
  | root => exact .inl rfl
  | @child up down _ hdown ih =>
    have hknown : e.first ≤ down.index ∧ down.index < s.tree.size := by
      rcases ih with rfl | ⟨hlt, hnests⟩
      · exact h.known down hdown
      · obtain ⟨hfirst, hless⟩ := hnests.below down hdown
        exact ⟨hfirst, hless.trans hlt⟩
    exact .inr ⟨hknown.2, h.nests down hknown.1 hknown.2⟩

/-- Within a root that spans a text, all spans nest within the text. -/
theorem Laid.nestWithin {file text : String} (hsize : text.utf8ByteSize < UInt32.size)
    (h : e.Laid ⟨⟨0, file⟩, false⟩ (s.tree.children root) c s)
    (hstop : e.stop = .ofByte text.utf8ByteSize file)
    (hspan : s.tree.span root = ⟨⟨0, file⟩, e.stop⟩) : s.tree.NestWithin root file text := by
  have hend : c.previousStop ≤ e.stop := h.cursor.row.le
  have hrow : ∀ id, s.tree.Reaches root id → InRow (s.tree.span id).start
      ((s.tree.children id).map s.tree.span) (s.tree.span id).stop := by
    intro id hid
    rcases h.nests_of_reaches hid with rfl | ⟨-, hnests⟩
    · rw [hspan]
      exact h.row.widen (le_refl _) hend
    · exact hnests.row
  have hwithin : ∀ id, s.tree.Reaches root id →
      ⟨0, file⟩ ≤ (s.tree.span id).start ∧ (s.tree.span id).stop ≤ e.stop := by
    intro id hid
    induction hid with
    | root =>
      rw [hspan]
      exact ⟨le_refl _, le_refl _⟩
    | @child up down hup hdown ih =>
      obtain ⟨hstart, hstop⟩ := (Arena.spansNest_of_inRow (hrow up hup)).inside down hdown
      exact ⟨ih.1.trans hstart, hstop.trans ih.2⟩
  intro id hid
  obtain ⟨hfirst, hlast⟩ := hwithin id hid
  rw [hstop] at hlast
  have hlt := UInt32.le_iff_toNat_le.mp hlast.2
  rw [Token.toNat_ofByte hsize] at hlt
  exact ⟨⟨hfirst.1.symm, hlast.1, hlt⟩, Arena.spansNest_of_inRow (hrow id hid), fun hne =>
    ((h.nests_of_reaches hid).resolve_left hne).2.solid⟩

end Extent

-- ---------------------------------------------------------------------------
-- Reading a module
-- ---------------------------------------------------------------------------

namespace Grammar

open Parse

variable {e : Extent} {m : Mark} {root : NodeId} {parts : Productions Power}

/-- The items stand in a row as the children of the root. -/
theorem ifReturns_items_laid (hp : PartsBring e parts) (hroot : root.index < e.first) (fuel : Nat)
    {c : Cursor} {s : Session} (hl : e.Laid m (s.tree.children root) c s) :
    IfReturns ((items root parts.stmt fuel).run c) s fun r s' =>
      s'.tree.span root = s.tree.span root ∧ e.Laid m (s'.tree.children root) r.2 s' := by
  induction fuel generalizing c s with
  | zero => trivial
  | succ fuel ih =>
    refine ifReturns_isAt (fun _ => ⟨rfl, hl⟩) ?_
    simp only [Bool.false_eq_true, ↓reduceIte]
    rw [StateT.run_bind]
    refine triple_bind.mpr ((hp.stmt.after (s.tree.children root) c s hl).imp ?_)
    rintro ⟨item, c₁⟩ s₁ ⟨hk, hl₁⟩
    have hold := hk.node root (Nat.lt_of_lt_of_le hroot hl.begun)
    rw [StateT.run_bind]
    refine triple_bind.mpr (triple_pass.mpr (Pass.triple_tryTree.mpr ?_))
    split
    · next tree hpush =>
      have htakes := Arena.takes_pushChild hpush
      have hl₂ : e.Laid m (tree.children root) c₁ { s₁ with tree } := by
        rw [htakes.children, hold.children]
        exact hl₁.take htakes hroot
      refine (ih hl₂).imp ?_
      rintro r s' ⟨hspan, hl'⟩
      exact ⟨hspan.trans (htakes.span.trans hold.span), hl'⟩
    · trivial

end Grammar

theorem aligned_start {text path : String} {tokens : List Token}
    (hsize : text.utf8ByteSize < UInt32.size) (h : tokenize text path = .ok tokens)
    (layers : Layers) :
    (Cursor.start tokens path layers).Aligned (.ofByte text.utf8ByteSize path) := by
  obtain ⟨hrow, hsolid, read, hlast⟩ := Token.inRow_tokenize hsize h
  refine ⟨hrow, hsolid, ?_, ?_⟩
  · simp [Cursor.start, hlast, Token.atEnd, Span.ofBytes]
  · simp [Cursor.start, hlast, Token.lastStop, Token.atEnd, Span.ofBytes]

theorem Session.span_addModule (s : Session) (name path text : String) :
    (s.addModule name path text).2.tree.span ⟨s.tree.size⟩ =
      .ofBytes 0 text.utf8ByteSize path := by
  simp [addModule, Arena.span, Arena.get, Arena.add, Arena.size]

/-- The spans of a module that has been read nest. -/
theorem nestWithin_parseModule (s : Session) (name path text : String) {tokens : List Token}
    (hbytes : text.utf8ByteSize < UInt32.size) (h : tokenize text path = .ok tokens) :
    let s₁ := (s.addModule name path text).2
    let m := s₁.module ⟨s.modules.size⟩
    IfReturns (parseModule tokens path ⟨s.modules.size⟩) s₁ fun _ s' =>
      s'.tree.NestWithin m.root path text := by
  intro s₁ m
  let e : Extent := ⟨s.tree.size + 1, .ofByte text.utf8ByteSize path⟩
  have hbegun := begun_addModule s name path text tokens
  have hroot : m.root = ⟨s.tree.size⟩ := s.module_root_addModule name path text
  have hsize : s₁.tree.size = s.tree.size + 1 := Arena.size_add ..
  have hbelow : m.root.index < e.first := by
    rw [hroot]
    exact Nat.lt_succ_self _
  -- Nothing is at hand yet, since the root has no children.
  have hnone : s₁.tree.children m.root = [] := hbegun.items
  have hl : e.Laid ⟨⟨0, path⟩, false⟩ (s₁.tree.children m.root)
      (Cursor.start tokens path m.layers) s₁ := by
    rw [hnone]
    refine ⟨aligned_start hbytes h m.layers, Nat.le_of_eq hsize.symm, fun id hfirst hlt => ?_,
      List.forall_mem_nil _, le_refl _, fun hno => Bool.noConfusion hno⟩
    rw [hsize] at hlt
    exact absurd hlt (Nat.not_lt.mpr hfirst)
  refine triple_bind.mpr (triple_get.mpr (triple_bind.mpr
    ((Grammar.ifReturns_items_laid (Grammar.partsBring_productions e _) hbelow _ hl).imp ?_)))
  rintro ⟨⟨⟩, c⟩ s' ⟨hspan, hl'⟩
  rw [hroot] at hspan hl' ⊢
  exact hl'.nestWithin hbytes rfl (hspan.trans (s.span_addModule name path text))

theorem ifReturns_loadModule_nestWithin (library : Library) (name : String)
    (requestedAt : Position) (s : Session) :
    IfReturns (loadModule library name requestedAt) s fun id s' =>
      s.findModule? name = some id ∧ s' = s ∨
        ∃ path text, library.find name = .text path text ∧ id = ⟨s.modules.size⟩ ∧
          (text.utf8ByteSize < UInt32.size → s'.tree.NestWithin (s'.module id).root path text) := by
  refine ifReturns_loadModule_of (fun id hfind => .inl ⟨hfind, rfl⟩)
    fun path text tokens htext htokens => ?_
  have hcomplete := complete_parseModule s name path text path
    (Token.kind_getLastD_of_scan htokens)
  by_cases hsize : text.utf8ByteSize < UInt32.size
  · refine (hcomplete.and (nestWithin_parseModule s name path text hsize htokens)).imp ?_
    rintro - s' ⟨hcomplete, hnest⟩
    rw [← hcomplete.module] at hnest
    exact .inr ⟨path, text, htext, rfl, fun _ => hnest⟩
  · exact hcomplete.imp fun _ _ _ => .inr ⟨path, text, htext, rfl, fun hlt => absurd hlt hsize⟩

/-- The spans of every module that is loaded nest within its text, if that has fewer than
`2 ^ 32` bytes. -/
theorem nestWithin_of_loaded {library : Library} {name : String} {requestedAt : Position}
    {s s' : Session} {id : ModuleId}
    (h : (loadModule library name requestedAt).start s = (.ok id, s')) :
    s.findModule? name = some id ∧ s' = s ∨
      ∃ path text, library.find name = .text path text ∧ id = ⟨s.modules.size⟩ ∧
        (text.utf8ByteSize < UInt32.size → s'.tree.NestWithin (s'.module id).root path text) := by
  have hloaded := ifReturns_loadModule_nestWithin library name requestedAt s
  rw [IfReturns, Triple, h] at hloaded
  exact hloaded

/-- A module with parentheses, which have no nodes. -/
def productLibrary : Library := .ofTexts [("product", "let a = (1 + 2) * f(3);")]

theorem nestWithin_of_loaded_product : ∃ s,
    (loadModule productLibrary "product" .null).start (.new "main") = (.ok ⟨0⟩, s) ∧
    s.tree.NestWithin (s.module ⟨0⟩).root "product.lang" "let a = (1 + 2) * f(3);" ∧
    ((s.tree.preorder (s.module ⟨0⟩).root).map fun id =>
      ((s.tree.span id).start.offset.toNat, (s.tree.span id).stop.offset.toNat)) =
      [(0, 23), (0, 23), (9, 22), (9, 14), (9, 10), (13, 14), (18, 22), (20, 21)] := by
  have h : (match (loadModule productLibrary "product" .null).start (.new "main") with
      | (.ok id, s) => id.index == 0 && ((s.tree.preorder (s.module ⟨0⟩).root).map fun id =>
        ((s.tree.span id).start.offset.toNat, (s.tree.span id).stop.offset.toNat)) ==
        [(0, 23), (0, 23), (9, 22), (9, 14), (9, 10), (13, 14), (18, 22), (20, 21)]
      | (.error _, _) => false) = true := by decide +kernel
  have hproduct : productLibrary.find "product" =
      .text "product.lang" "let a = (1 + 2) * f(3);" := by decide +kernel
  rcases hload : (loadModule productLibrary "product" .null).start (.new "main") with
    ⟨_ | id, s⟩ <;> rw [hload] at h
  · simp at h
  obtain ⟨index⟩ := id
  simp only [Bool.and_eq_true, beq_iff_eq] at h
  obtain ⟨rfl, hspans⟩ := h
  rcases nestWithin_of_loaded hload with ⟨hknown, -⟩ | ⟨path, text, hfind, -, hnest⟩
  · exact absurd hknown (by decide +kernel)
  · obtain ⟨rfl, rfl⟩ := Found.text.inj (hfind.symm.trans hproduct)
    exact ⟨s, rfl, hnest (by decide), hspans⟩

-- ---------------------------------------------------------------------------
-- A text that is too long
-- ---------------------------------------------------------------------------

/-- Blanks, and behind them a definition by a number that has the last place there is. -/
def wideText : String := .ofList (.replicate (UInt32.size - 12 + 1) ' ' ++ "const c = 1;".toList)

theorem toList_wideText :
    wideText.toList = .replicate (UInt32.size - 12 + 1) ' ' ++ "const c = 1;".toList :=
  String.toList_ofList

-- Nothing should try to write it out.
attribute [irreducible] wideText

def wideToken (kind : Token.Kind) (value : String) (start stop : Nat) : Token :=
  ⟨kind, value, .ofBytes start stop "wide.lang"⟩

def wideNumber : Grammar.Factor := ⟨[], wideToken .number "1" (UInt32.size - 1) UInt32.size, rfl⟩

def wideTokens : List Token :=
  wideToken .constWord "const" (UInt32.size - 11) (UInt32.size - 6) ::
    wideToken .identifier "c" (UInt32.size - 5) (UInt32.size - 4) ::
    wideToken .assignment "=" (UInt32.size - 3) (UInt32.size - 2) ::
    (wideNumber.tokens ++ [wideToken .semicolon ";" UInt32.size (UInt32.size + 1),
      Token.atEnd "wide.lang" (UInt32.size + 1)])

theorem tokenize_wideText : tokenize wideText "wide.lang" = .ok wideTokens := by
  have hcuts : Token.Cuts .blank (.replicate (UInt32.size - 12 + 1) ' ') "const c = 1;".toList :=
    Token.cuts_blanks _ fun c hc => by
      obtain rfl : 'c' = c := Option.some.inj hc
      rfl
  have hmake : ∀ cs, Token.Rule.blank.make cs = none := fun _ => rfl
  rw [tokenize, toList_wideText, Token.scan_cut hcuts nofun, hmake, byteLength_replicate]
  rfl

def wideLibrary : Library := .ofTexts [("wide", wideText)]

/-- The number in the definition starts at the last position, and stops at the first one. -/
theorem Session.returns_parseText_wide {text : String}
    (htokens : tokenize text "wide.lang" = .ok wideTokens) (s : Session)
    (hf : s.tree.Forest []) :
    Returns (parseText "wide" "wide.lang" text) s fun id s' =>
      ∃ number, s'.tree.Reaches (s'.module id).root number ∧
        s'.tree.span number = .ofBytes (UInt32.size - 1) UInt32.size "wide.lang" := by
  let s₁ := (s.addModule "wide" "wide.lang" text).2
  have hstand := s.stand_addModule "wide" "wide.lang" text
  have hroot := s.module_root_addModule "wide" "wide.lang" text
  have hlayer : s.scopes.scopes.size ≤ (s₁.module ⟨s.modules.size⟩).layers.privateLayer.index := by
    rw [s.layers_addModule]
    exact Nat.le_add_right _ _
  have hempty := (s.vars_addModule "wide" "wide.lang" text hlayer).1
  have hfree : (s₁.scopes.get (s₁.module ⟨s.modules.size⟩).layers.privateLayer).vars.lookup "c" =
      none := by
    rw [hempty]
    rfl
  have hf₁ : s₁.tree.Forest [.node (s₁.module ⟨s.modules.size⟩).root (.moduleRoot "wide") []] :=
    hroot ▸ hf.add _ _ _
  have hread : Returns (parseModule wideTokens "wide.lang" ⟨s.modules.size⟩) s₁ _ :=
    returns_parseModule (x := wideNumber) "wide.lang" rfl rfl rfl rfl rfl
      hstand.privateLayer.has hfree hf₁
  unfold parseText
  refine triple_bind.mpr (triple_get.mpr (triple_bind.mpr (triple_set.mpr ?_)))
  simp only [htokens]
  refine triple_bind.mpr (triple_adapt.mpr (hread.triple.imp ?_))
  rintro - s' ⟨i, t, hforest, hspells, hdefines⟩
  have hmodule : s'.module ⟨s.modules.size⟩ = s₁.module ⟨s.modules.size⟩ := by
    rw [hdefines.rest]
    rfl
  obtain ⟨hmain, -⟩ := Arena.holdsAll_cons.mp hforest.1
  obtain ⟨hitem, -⟩ := Arena.holdsAll_cons.mp hmain.below
  have hup : i ∈ s'.tree.children (s'.module ⟨s.modules.size⟩).root := by
    rw [hmodule]
    exact hmain.children ▸ List.mem_singleton_self i
  have hdown : t.handle ∈ s'.tree.children i :=
    hitem.children ▸ List.mem_singleton_self t.handle
  refine ⟨t.handle, .child (.child .root hup) hdown, ?_⟩
  cases hspells with
  | atom h =>
    cases h with
    | literal _ hlabel => exact Arena.span_of_label hlabel
    | name hkind => cases hkind

/-- In a text that is too long, spans do not nest. One goes backwards. -/
theorem not_nestWithin_of_loaded : ∃ id s number,
    (loadModule wideLibrary "wide" .null).start (.new "main") = (.ok id, s) ∧
    s.tree.Reaches (s.module id).root number ∧
    (s.tree.span number).start.offset.toNat = UInt32.size - 1 ∧
    (s.tree.span number).stop.offset.toNat = 0 ∧
    ¬ s.tree.NestWithin (s.module id).root "wide.lang" wideText := by
  have hnone : (Session.new "main").findModule? "wide" = none := by decide +kernel
  have hfound : wideLibrary.find "wide" = .text "wide.lang" wideText := by
    have hpath : "wide" ++ fileExtension = "wide.lang" := by decide
    rw [← hpath]
    rfl
  have hload : Returns (loadModule wideLibrary "wide" .null) (.new "main") fun id s =>
      ∃ number, s.tree.Reaches (s.module id).root number ∧
        s.tree.span number = .ofBytes (UInt32.size - 1) UInt32.size "wide.lang" := by
    unfold loadModule
    refine triple_bind.mpr (triple_get.mpr ?_)
    simp only [hnone, hfound]
    exact (Session.new "main").returns_parseText_wide tokenize_wideText (Arena.forest_nil _)
  obtain ⟨id, s, hrun, number, hreaches, hspan⟩ := hload.exists
  have hstart : (s.tree.span number).start.offset.toNat = UInt32.size - 1 := by rw [hspan]; rfl
  have hstop : (s.tree.span number).stop.offset.toNat = 0 := by rw [hspan]; rfl
  refine ⟨id, s, number, hrun, hreaches, hstart, hstop, fun hnest => ?_⟩
  have hle := UInt32.le_iff_toNat_le.mp (hnest number hreaches).2.1.ordered.2
  rw [hstart, hstop] at hle
  exact absurd hle (by decide)

end BlockLang
