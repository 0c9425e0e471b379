import BlockLang.Proofs.Grammar.Definition
import BlockLang.Proofs.Grammar.Type
import BlockLang.Proofs.Program.Journal
import BlockLang.Proofs.Token.Lexemes
import BlockLang.Proofs.Typing.Definition

/-!
# A module that defines a constant

Every number with 64 bits but the least one can be written the way it is displayed. A module that
defines a constant by it is loaded and analyzed without a report, and the constant has that
number for its value.
-/

namespace BlockLang

open Token (Lexes lexes_pieces)
open Grammar

-- ---------------------------------------------------------------------------
-- Text
-- ---------------------------------------------------------------------------

/-- The text of a module that defines `c` as `value`. -/
def definitionText (value : String) : String := "const c = " ++ value ++ ";"

/-- A number is displayed with a sign if it is negative. The number behind the sign can be read
unless the number is the least one. -/
theorem Int64.exists_display {n : Int64} (hn : n ≠ Int64.minValue) :
    ∃ k m, (Scalar.int n).display.toList = .replicate k '-' ++ (toString m).toList ∧
      m ≤ Nat.pow 2 63 - 1 ∧ (-·)^[k] (Int64.ofNat m) = n := by
  have hlow := Int64.le_toInt n
  have hhigh := Int64.toInt_lt n
  cases hv : n.toInt with
  | ofNat m =>
    have hdisplay : (Scalar.int n).display = toString m := by rw [Scalar.display, hv]; rfl
    have hm : m ≤ Nat.pow 2 63 - 1 := by
      rw [hv] at hhigh
      simp only [Int.ofNat_eq_natCast, Nat.pow_eq] at hhigh ⊢
      omega
    refine ⟨0, m, by rw [hdisplay]; rfl, hm, ?_⟩
    exact (congrArg Int64.ofInt hv).symm.trans (Int64.ofInt_toInt n)
  | negSucc m =>
    have hdisplay : (Scalar.int n).display = "-" ++ toString (m + 1) := by
      rw [Scalar.display, hv]
      rfl
    have hne : n.toInt ≠ -2 ^ 63 := fun h => hn (Int64.toInt_inj.mp h)
    have hm : m + 1 ≤ Nat.pow 2 63 - 1 := by
      rw [hv] at hlow hne
      simp only [Nat.pow_eq]
      omega
    refine ⟨1, m + 1, ?_, hm, ?_⟩
    · rw [hdisplay, String.toList_append]
      rfl
    · calc -Int64.ofNat (m + 1) = -Int64.ofInt (m + 1 : Nat) := by rw [Int64.ofInt_eq_ofNat]
        _ = Int64.ofInt (Int.negSucc m) := (Int64.ofInt_neg _).symm
        _ = n := (congrArg Int64.ofInt hv).symm.trans (Int64.ofInt_toInt n)

namespace Token

/-- The kinds and texts of the tokens of a definition by a number behind signs. -/
def definitionLexemes (k m : Nat) : List (Kind × String) :=
  (.constWord, "const") :: (.identifier, "c") :: (.assignment, "=") ::
    (.replicate k (.dash, "-") ++ [(.number, toString m), (.semicolon, ";")])

/-- The signs and the number are cut apart, and the words in front of them. -/
theorem lexes_definition {value : String} {k m : Nat}
    (h : value.toList = .replicate k '-' ++ (toString m).toList) :
    Lexes (definitionText value).toList (definitionLexemes k m) := by
  have hplain : ∀ p ∈ [Piece.number m, .mark ";" .semicolon], p.Plain := by
    simp [Piece.Plain, Piece.plainMarks]
  have hmeets : [Piece.number m, .mark ";" .semicolon].IsChain Piece.Meets := by
    simp [Piece.Meets, Piece.runsOn, Piece.isBlank]
  have hnumber := lexes_pieces hplain hmeets
  obtain ⟨d, ds, hdigits, hopens⟩ := (hplain _ List.mem_cons_self).exists_opens
  have hd : d.isDigit = true :=
    Piece.isDigit_of_mem_toString (show d ∈ Piece.chars (.number m) by simp [hdigits])
  have hne : d ≠ '>' := by
    rintro rfl
    exact absurd hd (by decide)
  have htail : Piece.text [.number m, .mark ";" .semicolon] = d :: (ds ++ [';']) := by
    rw [Piece.text, List.flatMap_cons, hdigits]
    rfl
  rw [htail] at hnumber
  have hsigns := hnumber.dashes (by simpa using hne) k
  have hfirst : ∀ c ∈ (List.replicate k '-' ++ d :: (ds ++ [';'])).head?,
      Text.isBlank c = false := by
    cases k with
    | zero => simpa using hopens.blank rfl
    | succ k => simp [List.replicate_succ, Text.isBlank]
  have hequals := (hsigns.blank hfirst).assignment.blank (by simp [Text.isBlank])
  have hc : IsIdentifier "c" := ⟨'c', [], rfl, rfl, by simp⟩
  have hword : IsIdentifier "const" :=
    ⟨'c', ['o', 'n', 's', 't'], rfl, rfl, List.all_eq_true.mp rfl⟩
  have hconst := ((hequals.word hc).blank (by simp [Text.isBlank])).word hword
  have htext : (definitionText value).toList = "const".toList ++ ' ' :: ("c".toList ++ ' ' ::
      '=' :: ' ' :: (.replicate k '-' ++ d :: (ds ++ [';']))) := by
    have hvalue : value.toList = .replicate k '-' ++ d :: ds := h.trans (congrArg _ hdigits)
    simp [definitionText, hvalue]
  rw [htext]
  exact hconst

end Token

-- ---------------------------------------------------------------------------
-- Tokens
-- ---------------------------------------------------------------------------

/-- The tokens of a definition of `c` by the number `m` behind `k` signs. -/
structure SignedDefinition (k m : Nat) where
  word : Token
  name : Token
  equals : Token
  factor : Factor
  semicolon : Token
  last : Token
  isConst : word.kind = .constWord
  isName : name.kind = .identifier
  isC : name.value = "c"
  isAssignment : equals.kind = .assignment
  isSemicolon : semicolon.kind = .semicolon
  isLast : last.kind = .eof
  isNumber : factor.atom.kind = .number
  isM : factor.atom.value = toString m
  signs : factor.marks.length = k
  areSigns : ∀ mark ∈ factor.marks, mark.op = .neg

def SignedDefinition.tokens (d : SignedDefinition k m) : List Token :=
  d.word :: d.name :: d.equals :: (d.factor.tokens ++ [d.semicolon, d.last])

theorem exists_marks {signs : List Token} (h : ∀ t ∈ signs, t.kind = .dash) :
    ∃ marks : List UnaryMark, marks.map (·.token) = signs ∧ ∀ mark ∈ marks, mark.op = .neg := by
  induction signs with
  | nil => exact ⟨[], rfl, by simp⟩
  | cons sign signs ih =>
    rw [List.forall_mem_cons] at h
    obtain ⟨marks, hmarks, hops⟩ := ih h.2
    have hreads : prefixOp? sign.kind = some .neg := by rw [h.1]; rfl
    exact ⟨⟨sign, .neg, hreads⟩ :: marks, by rw [List.map_cons, hmarks],
      List.forall_mem_cons.mpr ⟨rfl, hops⟩⟩

/-- A number that can be displayed is cut into such tokens. -/
theorem tokenize_definition {value : String} {k m : Nat}
    (h : value.toList = .replicate k '-' ++ (toString m).toList) (hm : m ≤ Nat.pow 2 63 - 1)
    (file : String) :
    ∃ d : SignedDefinition k m, tokenize (definitionText value) file = .ok d.tokens := by
  obtain ⟨tokens, last, hscan, hlexemes, hlast⟩ := Token.lexes_definition h file 0
  simp only [Token.definitionLexemes, List.map_eq_cons_iff, List.map_eq_append_iff, Token.lexeme,
    Prod.mk.injEq, List.map_eq_nil_iff] at hlexemes
  obtain ⟨word, _, rfl, ⟨hword, -⟩, name, _, rfl, ⟨hname, hc⟩, equals, _, rfl, ⟨hequals, -⟩,
    signs, _, rfl, hsigns, atom, _, rfl, ⟨hatom, hvalue⟩, semicolon, _, rfl, ⟨hsemicolon, -⟩,
    rfl⟩ := hlexemes
  have hdash : ∀ t ∈ signs, t.kind = .dash := by
    intro t ht
    have hmem : t.lexeme ∈ List.replicate k (.dash, "-") := hsigns ▸ List.mem_map_of_mem ht
    exact congrArg Prod.fst (List.eq_of_mem_replicate hmem)
  obtain ⟨marks, rfl, hops⟩ := exists_marks hdash
  have hnumber : isAtom atom = true := by
    simp only [isAtom, hatom, hvalue, ofDigits_toString]
    exact decide_eq_true hm
  have hlength : marks.length = k := by simpa using congrArg List.length hsigns
  refine ⟨⟨word, name, equals, ⟨marks, atom, hnumber⟩, semicolon, last, hword, hname, hc, hequals,
    hsemicolon, hlast, hatom, hvalue, hlength, hops⟩, hscan.trans ?_⟩
  simp [SignedDefinition.tokens, Factor.tokens]

-- ---------------------------------------------------------------------------
-- Reading
-- ---------------------------------------------------------------------------

section
variable {s s' : Session} {k m : Nat} {us : List Tree}

theorem Session.Equipped.addModule (h : s.Equipped) (name path source : String) :
    (s.addModule name path source).2.Equipped :=
  ⟨h.inScope.addModule name path source, h.types,
    h.builtins.addModule h.inScope.universal name path source⟩

/-- However reading a module ends, the session is equipped then. -/
theorem Session.Equipped.parseModule (h : s.Equipped) (hs : s.Sound) {tokens : List Token}
    (hw : ∀ t ∈ tokens, t.kind = .identifier → IsWord t.value) (name path source file : String) :
    Triple (BlockLang.parseModule tokens file (s.addModule name path source).1)
      (s.addModule name path source).2 (fun _ s' => s'.Equipped) fun _ s' => s'.Equipped := by
  have hreading : ReadingEquipped 0 _ (s.addModule name path source).2 :=
    ⟨hs.reading name path source file hw, h.types, (h.addModule name path source).builtins⟩
  refine (triple_read keeps_equipped tokens name path source file s.tree.forest_nil
    hreading).mono ?_ ?_
  all_goals
    rintro - s' ⟨d, c, ts, -, h', -⟩
    exact ⟨h'.reading.session, h'.types, h'.builtins⟩

/-- The private layer of a new module is a new scope. -/
theorem Session.lookup_addModule (s : Session) (name path source c : String) :
    (((s.addModule name path source).2.scopes.get ⟨s.scopes.scopes.size + 3⟩).vars.lookup c) =
      none := by
  simp [Session.addModule, ScopeTable.get_addScope]

/-- The module that has been read consists of the definition. -/
structure ReadDefinition (s : Session) (name path source : String) (d : SignedDefinition k m)
    (us : List Tree) (s' : Session) (i : NodeId) (t : Tree) : Prop where
  forest : s'.tree.Forest (.node (s'.module ⟨s.modules.size⟩).root (.moduleRoot name)
    [.node i (.varDecl ⟨s.decls.size⟩ none false) [t]] :: us)
  written : (Tree.node i (.varDecl ⟨s.decls.size⟩ none false) [t]).Every (Written s')
  spells : SpellsFactor s' d.factor.atom d.factor.marks t
  equipped : s'.Equipped
  const : (s'.decl ⟨s.decls.size⟩).isConst = true
  scope : s'.scopes.Has (s'.module ⟨s.modules.size⟩).layers.privateLayer
  lookup : (s'.scopes.get (s'.module ⟨s.modules.size⟩).layers.privateLayer).vars.lookup "c" =
    some (.single ⟨s.decls.size⟩)
  report : s'.report = s.report
  modules : s'.modules = (s.addModule name path source).2.modules

theorem returns_parseModule_read (hs : s.Sound) (he : s.Equipped) (hf : s.tree.Forest us)
    (d : SignedDefinition k m) {path source : String}
    (htokens : tokenize source path = .ok d.tokens) (name : String) :
    Returns (parseModule d.tokens path ⟨s.modules.size⟩) (s.addModule name path source).2
      fun _ s' => ∃ i t, ReadDefinition s name path source d us s' i t := by
  have hwords := isWord_of_tokenize htokens
  have hread : IfReturns (parseModule d.tokens path ⟨s.modules.size⟩)
      (s.addModule name path source).2 fun _ s' => HasRead s name path source us s' :=
    (triple_read keeps_reading d.tokens name path source path hf
      (hs.reading name path source path hwords)).mono (fun _ _ h => h) fun _ _ _ => trivial
  have hequipped : IfReturns (parseModule d.tokens path ⟨s.modules.size⟩)
      (s.addModule name path source).2 fun _ s' => s'.Equipped :=
    (he.parseModule hs hwords name path source path).mono (fun _ _ h => h) fun _ _ _ => trivial
  have hlayers := s.layers_addModule name path source
  have hroot := s.module_root_addModule name path source
  have hscope : (s.addModule name path source).2.scopes.Has
      ((s.addModule name path source).2.module ⟨s.modules.size⟩).layers.privateLayer := by
    rw [hlayers, ScopeTable.Has, s.size_scopes_addModule]
    exact Nat.lt_succ_self _
  have hfree : ((s.addModule name path source).2.scopes.get ((s.addModule name path source).2.module
      ⟨s.modules.size⟩).layers.privateLayer).vars.lookup d.name.value = none := by
    rw [hlayers]
    exact s.lookup_addModule name path source _
  have hf₀ : (s.addModule name path source).2.tree.Forest
      (.node ((s.addModule name path source).2.module ⟨s.modules.size⟩).root (.moduleRoot name) []
        :: us) := hroot ▸ hf.add _ _ _
  refine (((returns_parseModule path d.isConst d.isName d.isAssignment d.isSemicolon d.isLast hscope
    hfree hf₀).and hread).and hequipped).imp ?_
  rintro - s' ⟨⟨⟨i, t, hf', hspells, hdefines⟩, _, _, ts, hf'', -, hwritten, -⟩, hequipped'⟩
  have hmodules : s'.modules = (s.addModule name path source).2.modules := by rw [hdefines.rest]
  have hmodule : s'.module ⟨s.modules.size⟩ =
      (s.addModule name path source).2.module ⟨s.modules.size⟩ := by
    rw [Session.module, Session.module, hmodules]
  have hreport : s'.report = (s.addModule name path source).2.report := by rw [hdefines.rest]
  have hdecl : s'.decl ⟨s.decls.size⟩ = .new d.name.value (.var true false)
      ((s.addModule name path source).2.module ⟨s.modules.size⟩).layers.privateLayer
      d.name.span.start := by
    rw [Session.decl, hdefines.decls]
    exact congrArg (Option.getD · default) Array.getElem?_push_size
  rw [hmodule] at hf''
  -- both say what the same root is the root of
  have hsame := hf'.head.1.unique hf''.head.1 rfl
  rw [Tree.node.injEq] at hsame
  rw [← hsame.2.2, List.forall_mem_singleton] at hwritten
  refine ⟨i, t, ⟨?_, hwritten, hspells, hequipped', ?_, ?_, ?_, hreport, hmodules⟩⟩
  · rw [hmodule]
    exact hf'
  · rw [hdecl]
    rfl
  · rw [hmodule]
    exact hscope.mono (Nat.le_of_eq (ScopeTable.size_addVar hdefines.scopes).symm)
  · rw [hmodule, ← d.isC]
    exact hdefines.lookup

end

-- ---------------------------------------------------------------------------
-- Analyzing
-- ---------------------------------------------------------------------------

section
variable {s s' : Session} {l root : NodeId} {n : Int64} {t : Tree} {us : List Tree}

/-- Scopes, declarations and types are those of an equipped session. -/
theorem Session.Equipped.of_rest (h : s.Equipped) (hs : s'.Scoped)
    (hrest : s' = { s with
      tree := s'.tree, temps := s'.temps, report := s'.report, modules := s'.modules }) :
    s'.Equipped := by
  have htypes : s'.types = s.types := by rw [hrest]
  exact ⟨hs, htypes ▸ h.types, h.builtins.congr (by rw [hrest]) (by rw [hrest]) (by rw [hrest])
    (htypes ▸ .refl _)⟩

theorem Session.Equipped.modifyModule (h : s.Equipped) (id : ModuleId) (f : Module → Module) :
    (s.modifyModule id f).Equipped := by
  obtain ⟨⟨hclosed, huniversal, hnodes, hfunctions⟩, htypes, hbuiltins⟩ := h
  exact ⟨⟨hclosed, huniversal, hnodes, hfunctions⟩, htypes, hbuiltins.congr rfl rfl rfl (.refl _)⟩

theorem Marks.equipped (h : Marks s s') (hs : s.Equipped) : s'.Equipped := by
  have hp : Proceeds (fun _ => True) s s' := h.proceeds fun _ hn => absurd trivial hn
  refine hs.of_rest (hp.scoped hs.inScope) ?_
  rw [h.rest]

theorem Marks.known (h : Marks s s') (hl : Known s l n) : Known s' l n := by
  obtain ⟨label, hlabel⟩ := Arena.exists_label hl.lt_size
  obtain ⟨lvalue, hlabel'⟩ := h.labels l label hlabel
  obtain ⟨v, hv, hholds⟩ := hl.value
  have hvalues : s'.values = s.values := by rw [h.rest]
  have htype := hl.type
  rw [Arena.facts_of_label hlabel] at htype hv
  refine ⟨?_, v, ?_, hvalues ▸ hholds⟩
  · rw [Arena.facts_of_label hlabel']
    exact htype
  · rw [Arena.facts_of_label hlabel']
    exact hv

theorem Builds.evaluates {N : NodeId → Prop} (h : Builds s s') : Evaluates N s s' := by
  have htypes : s'.types = s.types := by rw [h.rest]
  have hvalues : s'.values = s.values := by rw [h.rest]
  refine ⟨h.proceeds, htypes ▸ .refl _, htypes ▸ fun ht => ht, hvalues ▸ .refl _, ?_⟩
  rw [h.rest]

/-- The passes over a module with the definition of a number determine the constant. -/
theorem returns_analyzeTree_definition {name : String} {decl : DeclId} {i : NodeId} {count : Nat}
    (hs : s.Equipped)
    (hf : s.tree.Forest
      (.node root (.moduleRoot name) [.node i (.varDecl decl none false) [t]] :: us))
    (hw : (Tree.node i (.varDecl decl none false) [t]).Every (Written s))
    (ht : Negates l count t) (hl : Known s l n)
    (hconst : (s.decl decl).isConst = true) :
    Returns (analyzeTree root) s fun _ s' => Typing.Determines decl ((-·)^[count] n) s s' := by
  unfold analyzeTree
  refine triple_bind.mpr
    ((returns_normalize_definition ht hf (Written.unmarked hw) (Written.source hw)).imp ?_)
  rintro - s₁ ⟨hreport, hmarks, hf₁⟩
  refine triple_bind.mpr ((returns_lower_definition ht (Written.source hw) hf₁).imp ?_)
  rintro - s₂ ⟨b, ts, hcarries, hbuilds, hf₂⟩
  have he : Evaluates (fun _ => False) s₁ s₂ := hbuilds.evaluates
  have hs₂ : s₂.Equipped := he.equipped (hmarks.equipped hs)
  have hl₂ : Known s₂ l n := (hmarks.known hl).evaluates he not_false
  have hconst₂ : (s₂.decl decl).isConst = true := by rwa [he.rest, hmarks.rest]
  refine (Typing.returns_inferWith_definition hs₂ hf₂ hcarries hl₂ hconst₂ _).imp fun _ s₃ hd => ?_
  obtain ⟨htype, hvalue, hreport₁, hscopes, hmodules⟩ := hd.from he
  refine ⟨htype, hvalue, hreport₁.trans hreport, hscopes.trans ?_, hmodules.trans ?_⟩
  all_goals rw [hmarks.rest]

/-- The number that is read is known. -/
theorem Grammar.SpellsAtom.known {atom : Token} {m : Nat}
    (h : SpellsAtom s atom (.node l .literal []))
    (hk : atom.kind = .number) (hm : atom.value = toString m) : Known s l (.ofNat m) := by
  cases h with
  | literal hd hlabel hgrown =>
    cases hd with
    | int h =>
      rw [hm, ofDigits_toString] at hlabel hgrown
      refine ⟨?_, _, ?_, (Heap.holdsInt_ofScalar _ _).grows hgrown⟩
      · rw [Arena.facts_of_label hlabel]
      · rw [Arena.facts_of_label hlabel]
    | float h => simp [hk] at h
    | bool b h => cases b <;> simp [hk] at h
    | string h => simp [hk] at h

/-- In the module, `name` is declared as a number with 64 bits, and the number is `n`. -/
def Session.HasConstant (s : Session) (module : ModuleId) (name : String) (n : Int64) : Prop :=
  ∃ decl value,
    s.scopes.findVar? (s.module module).layers.privateLayer name = .ok (some (.single decl)) ∧
    (s.decl decl).type = some Primitive.int64.typeId ∧ (s.decl decl).value = some value ∧
    s.values.scalar? value = some (.int n)

theorem Session.module_modifyModule (id : ModuleId) (h : id.index < s.modules.size)
    (f : Module → Module) : (s.modifyModule id f).module id = f (s.module id) := by
  rw [module, getElem?_modifyModule, if_pos rfl, module, Array.getElem?_eq_getElem h]
  rfl

/-- A module that consists of the definition of a number is analyzed. -/
theorem ReadDefinition.returns_analyzeWithin {k m : Nat} {d : SignedDefinition k m} {i : NodeId}
    {name path source : String} (h : ReadDefinition s name path source d us s' i t)
    (library : Library) (depth : Nat) :
    Returns (analyzeWithin library (depth + 1) ⟨s.modules.size⟩) s' fun _ s'' =>
      s''.report = s.report ∧ s''.HasConstant ⟨s.modules.size⟩ "c" ((-·)^[k] (.ofNat m)) := by
  have hid : s.modules.size < s'.modules.size := by
    rw [h.modules, s.modules_addModule, Array.size_push]
    exact Nat.lt_succ_self _
  have hidle : (s'.module ⟨s.modules.size⟩).started = false := by
    rw [Session.module, h.modules, s.modules_addModule]
    simp
  let begun := s'.modifyModule ⟨s.modules.size⟩ ({ · with started := true })
  have hmodule : begun.module ⟨s.modules.size⟩ =
      { s'.module ⟨s.modules.size⟩ with started := true } := Session.module_modifyModule _ hid _
  have himports : begun.imports ⟨s.modules.size⟩ = [] := by
    have hkind : begun.tree.kind i = .varDecl ⟨s.decls.size⟩ none false :=
      h.forest.head.1.below.1.kind
    have himport : begun.tree.import? i = none := by rw [Arena.import?, hkind]
    have hchildren : begun.tree.children (begun.module ⟨s.modules.size⟩).root = [i] :=
      hmodule ▸ h.forest.head.1.children
    rw [Session.imports, hchildren, List.filterMap_cons_none himport]
    rfl
  obtain ⟨l, hnegates, hliteral⟩ := h.spells.negates d.isNumber d.areSigns
  rw [d.signs] at hnegates
  have hknown := hliteral.known d.isNumber d.isM
  have hl : Known begun l (.ofNat m) := ⟨hknown.type, hknown.value⟩
  have hw : (Tree.node i (.varDecl ⟨s.decls.size⟩ none false) [t]).Every (Written begun) := by
    intro u hu
    obtain ⟨hformed, hliteral, hfresh, hfunction, hbinding⟩ := h.written u hu
    exact ⟨hformed, hliteral, hfresh, hfunction, hbinding⟩
  have hrun := returns_analyzeTree_definition (h.equipped.modifyModule _ _) h.forest hw hnegates hl
    h.const
  unfold analyzeWithin
  refine triple_bind.mpr (triple_get.mpr ?_)
  rw [hidle, if_neg Bool.false_ne_true]
  refine triple_bind.mpr (triple_modify.mpr (triple_bind.mpr (triple_get.mpr ?_)))
  rw [himports]
  refine triple_bind.mpr (triple_forM_nil.mpr (triple_bind.mpr (triple_get.mpr
    (triple_bind.mpr (triple_adapt.mpr ?_)))))
  rw [hmodule]
  refine hrun.imp ?_
  rintro - s₁ ⟨htype, ⟨v, hv, hholds⟩, hreport, hscopes, hmodules⟩
  have hid₁ : s.modules.size < s₁.modules.size := by
    rw [hmodules]
    simpa [Session.modifyModule] using hid
  have hsame : s₁.module ⟨s.modules.size⟩ = begun.module ⟨s.modules.size⟩ := by
    rw [Session.module, hmodules]
    rfl
  refine triple_modify.mpr
    ⟨hreport.trans h.report, ⟨s.decls.size⟩, v, ?_, htype, hv, hholds.scalar?⟩
  rw [Session.module_modifyModule ⟨s.modules.size⟩ hid₁, hsame, hmodule]
  exact hscopes ▸ ScopeTable.findVar?_self h.scope h.lookup

-- ---------------------------------------------------------------------------
-- Programs
-- ---------------------------------------------------------------------------

theorem returns_parseText_definition (hs : s.Sound) (he : s.Equipped) {value : String} {k m : Nat}
    (hvalue : value.toList = .replicate k '-' ++ (toString m).toList) (hm : m ≤ Nat.pow 2 63 - 1)
    (name path : String) :
    Returns (parseText name path (definitionText value)) s fun id s' => id = ⟨s.modules.size⟩ ∧
      ∃ (d : SignedDefinition k m) (us : List Tree) (i : NodeId) (t : Tree),
        ReadDefinition s name path (definitionText value) d us s' i t := by
  obtain ⟨us, hf, -⟩ := hs.trees
  obtain ⟨d, hd⟩ := tokenize_definition hvalue hm path
  unfold parseText
  refine triple_bind.mpr (triple_get.mpr (triple_bind.mpr (triple_set.mpr ?_)))
  simp only [hd]
  refine triple_bind.mpr (triple_adapt.mpr
    ((returns_parseModule_read hs he hf d hd name).triple.imp ?_))
  rintro - s' ⟨i, t, h⟩
  exact ⟨rfl, d, us, i, t, h⟩

end

/-- A module that defines a constant by a number as it is displayed is loaded and analyzed without
a report, and declares the constant as this number. The least number is left out: its digits
are read before the sign, and are more than a number with 64 bits. -/
theorem declares_display (library : Library) (entrySymbol name path : String) {n : Int64}
    (hn : n ≠ Int64.minValue)
    (hfound : library.find name = .text path (definitionText (Scalar.int n).display)) :
    Returns (build library name) (.new entrySymbol) fun module s =>
      s.report = [] ∧ s.HasConstant module "c" n := by
  obtain ⟨k, m, hvalue, hm, rfl⟩ := Int64.exists_display hn
  have hnone : (Session.new entrySymbol).findModule? name = none := by
    simp [Session.findModule?, modules_new]
  unfold build loadRoot loadModule
  refine triple_bind.mpr (triple_bind.mpr (triple_get.mpr ?_))
  simp only [hnone, hfound]
  refine (returns_parseText_definition (sound_new entrySymbol) (Session.equipped_new entrySymbol)
    hvalue hm name path).imp ?_
  rintro _ s ⟨rfl, d, us, i, t, h⟩
  unfold analyze
  refine triple_bind.mpr (triple_bind.mpr (triple_get.mpr
    ((h.returns_analyzeWithin library _).imp ?_)))
  rintro - s' ⟨hreport, hconstant⟩
  exact ⟨hreport.trans (report_new entrySymbol), hconstant⟩

/-- A negative number is read, negated and found again. -/
theorem declares_display_negative :
    (-5 : Int64) ≠ Int64.minValue ∧
    (Library.ofTexts [("main", "const c = -5;")]).find "main" =
      .text "main.lang" (definitionText (Scalar.int (-5)).display) ∧
    Returns (build (Library.ofTexts [("main", "const c = -5;")]) "main") (.new "main")
      fun module s => s.report = [] ∧ s.HasConstant module "c" (-5) :=
  ⟨by decide, by decide +kernel,
    declares_display _ "main" "main" "main.lang" (by decide) (by decide +kernel)⟩

/-- A library with the definition of the least number. -/
def leastLibrary : Library :=
  .ofTexts [("main", definitionText (Scalar.int Int64.minValue).display)]

/-- The least number cannot be read. -/
theorem not_declares_least :
    ¬ ∀ (library : Library) (entrySymbol name path : String) (n : Int64),
      library.find name = .text path (definitionText (Scalar.int n).display) →
      Returns (build library name) (.new entrySymbol) fun module s =>
        ¬ s.Hurt ∧ s.HasConstant module "c" n := by
  intro hall
  have hfound : leastLibrary.find "main" =
      .text "main.lang" (definitionText (Scalar.int Int64.minValue).display) := by decide +kernel
  obtain ⟨module, s, hrun, -⟩ := (hall leastLibrary "main" "main" "main.lang" _ hfound).exists
  have hstops : ((build leastLibrary "main").start (.new "main")).1.toBool = false := by
    decide +kernel
  rw [hrun] at hstops
  cases hstops

end BlockLang
