import BlockLang.Proofs.Token.Pieces
import BlockLang.Proofs.Types.Built
import BlockLang.Types.Display

/-!
# Types in pieces

A type that can be spelled is displayed as a text in pieces (`Spells.displayWithin`), which
is cut into the tokens of its pieces (`Spells.fits`).
-/

namespace BlockLang

/-- An identifier that is no keyword. -/
def IsName (name : String) : Prop := IsIdentifier name ∧ Token.Kind.ofWord name = .identifier

namespace Piece

abbrev openBracket : Piece := .mark "[" .openBracket
abbrev closeBracket : Piece := .mark "]" .closeBracket
abbrev openParen : Piece := .mark "(" .openParen
abbrev closeParen : Piece := .mark ")" .closeParen
abbrev atSign : Piece := .mark "@" .atSign
abbrev semicolon : Piece := .mark ";" .semicolon
abbrev colon : Piece := .mark ":" .colon
abbrev comma : Piece := .mark "," .comma
abbrev arrow : Piece := .mark "->" .arrow

/-- `parts` with commas between them. -/
def commas : List (List Piece) → List Piece
  | [] => []
  | [ps] => ps
  | ps :: parts => ps ++ comma :: blank :: commas parts

@[simp] theorem text_nil : text [] = [] := rfl

@[simp] theorem text_cons (p : Piece) (ps : List Piece) : text (p :: ps) = p.chars ++ text ps := rfl

@[simp] theorem text_append (ps qs : List Piece) : text (ps ++ qs) = text ps ++ text qs := by
  simp [text]

theorem text_commas (parts : List (List Piece)) :
    text (commas parts) = ", ".toList.intercalate (parts.map text) := by
  fun_induction commas parts with
  | case1 => rfl
  | case2 ps => simp [List.intercalate]
  | case3 ps parts hne ih =>
    obtain ⟨qs, parts, rfl⟩ := List.exists_cons_of_ne_nil hne
    simp [List.intercalate, chars, ih]

/-- A place of a tuple. -/
def field (name : Option String) (type : List Piece) : List Piece :=
  match name with
  | none => type
  | some name => [word name] ++ colon :: blank :: type

/-! ### Tokens -/

theorem length_le_commas {parts : List (List Piece)} (h : ∀ ps ∈ parts, lexemes ps ≠ []) :
    parts.length ≤ (lexemes (commas parts)).length := by
  fun_induction commas parts with
  | case1 => simp
  | case2 ps => exact List.length_pos_iff.mpr (h ps List.mem_cons_self)
  | case3 ps parts _ ih =>
    have hparts := ih fun qs hqs => h qs (List.mem_cons_of_mem _ hqs)
    rw [lexemes_append, lexemes_mark, lexemes_blank, List.length_append, List.length_cons,
      List.length_cons]
    omega

theorem length_le_of_mem_commas {parts : List (List Piece)} {ps : List Piece} (h : ps ∈ parts) :
    (lexemes ps).length ≤ (lexemes (commas parts)).length := by
  fun_induction commas parts with
  | case1 => simp at h
  | case2 qs => rw [List.mem_singleton.mp h]
  | case3 qs parts _ ih =>
    rw [lexemes_append, lexemes_mark, lexemes_blank, List.length_append, List.length_cons]
    rcases List.mem_cons.mp h with rfl | hmem
    · omega
    · have hlength := ih hmem
      omega

theorem length_le_field (name : Option String) (ps : List Piece) :
    (lexemes ps).length ≤ (lexemes (field name ps)).length := by
  cases name with
  | none => exact Nat.le_refl _
  | some name => simp [field]; omega

/-- Pieces that are read as they are, behind a blank too. -/
structure Fits (ps : List Piece) : Prop where
  plain : ∀ p ∈ ps, p.Plain
  meets : ps.IsChain Meets
  head : ∀ p ∈ ps.head?, p.isBlank = false

variable {ps qs : List Piece} {text : String} {kind : Token.Kind}

theorem fits_nil : Fits [] := ⟨by simp, .nil, by simp⟩

theorem fits_word {name : String} (h : IsIdentifier name) : Fits [word name] :=
  ⟨by simpa [Plain] using h, .singleton _, by simp [isBlank]⟩

theorem fits_number (n : Nat) : Fits [number n] :=
  ⟨by simp [Plain], .singleton _, by simp [isBlank]⟩

/-- A mark keeps apart what stands before and behind it. -/
theorem fits_mark (hps : Fits ps) (hm : (text, kind) ∈ plainMarks) (hqs : ∀ q ∈ qs, q.Plain)
    (hmeets : qs.IsChain Meets) : Fits (ps ++ mark text kind :: qs) := by
  have hmark : ∀ q : Piece, (mark text kind).Meets q := fun q => ⟨nofun, nofun⟩
  refine ⟨?_, ?_, ?_⟩
  · simp only [List.forall_mem_append, List.forall_mem_cons]
    exact ⟨hps.plain, hm, hqs⟩
  · refine List.isChain_append.mpr ⟨hps.meets, ?_, ?_⟩
    · exact List.isChain_cons.mpr ⟨fun q _ => hmark q, hmeets⟩
    · intro p _ q hq
      obtain rfl := Option.some.inj hq
      exact ⟨fun _ => rfl, fun _ => rfl⟩
  · cases ps with
    | nil =>
      intro p hp
      obtain rfl := Option.some.inj hp
      rfl
    | cons p ps => exact hps.head

theorem Fits.mark (hps : Fits ps) (hm : (text, kind) ∈ plainMarks) (hqs : Fits qs) :
    Fits (ps ++ mark text kind :: qs) :=
  fits_mark hps hm hqs.plain hqs.meets

theorem Fits.spaced (hps : Fits ps) (hm : (text, kind) ∈ plainMarks) (hqs : Fits qs) :
    Fits (ps ++ Piece.mark text kind :: blank :: qs) := by
  refine fits_mark hps hm (List.forall_mem_cons.mpr ⟨trivial, hqs.plain⟩) ?_
  exact List.isChain_cons.mpr ⟨fun q hq => ⟨nofun, fun _ => hqs.head q hq⟩, hqs.meets⟩

theorem fits_commas {parts : List (List Piece)} (h : ∀ ps ∈ parts, Fits ps) :
    Fits (commas parts) := by
  fun_induction commas parts with
  | case1 => exact fits_nil
  | case2 ps => exact h ps List.mem_cons_self
  | case3 ps parts _ ih =>
    exact (h ps List.mem_cons_self).spaced (by decide)
      (ih fun qs hqs => h qs (List.mem_cons_of_mem _ hqs))

theorem fits_field {name : Option String} (hname : ∀ n ∈ name, IsName n) (h : Fits ps) :
    Fits (field name ps) := by
  cases name with
  | none => exact h
  | some name => exact (fits_word (hname name rfl).1).spaced (by decide) h

end Piece

namespace TypeTable

variable {t : TypeTable} {id : TypeId} {ps : List Piece}

/-- A type that is made up from primitives by lists, tuples, references and functions; the
places of a tuple may have names, but not those of arguments. -/
inductive Spellable (t : TypeTable) : TypeId → Prop
  | primitive {id p} (kind : t.kind id = .primitive p) : Spellable t id
  | list {id element length} (kind : t.kind id = .list element length)
    (part : Spellable t element) : Spellable t id
  | tuple {id fields} (kind : t.kind id = .tuple fields)
    (names : ∀ field ∈ fields, ∀ name ∈ field.name, IsName name)
    (parts : ∀ field ∈ fields, Spellable t field.type) : Spellable t id
  | reference {id target} (kind : t.kind id = .reference target) (part : Spellable t target) :
    Spellable t id
  | func {id arguments fields result} (kind : t.kind id = .func arguments result)
    (tuple : t.kind arguments = .tuple fields) (plain : ∀ field ∈ fields, field.name = none)
    (parts : ∀ field ∈ fields, Spellable t field.type) (last : Spellable t result) :
    Spellable t id

/-- How a type is spelled; `f` spells the parts of a tuple. -/
inductive Spells (t : TypeTable) : TypeId → List Piece → Prop
  | primitive {id p} (kind : t.kind id = .primitive p) : Spells t id [.word p.name]
  | list {id element ps} (kind : t.kind id = .list element none) (part : Spells t element ps) :
    Spells t id (.openBracket :: (ps ++ [.closeBracket]))
  | sized {id element length ps} (kind : t.kind id = .list element (some length))
    (part : Spells t element ps) :
    Spells t id (.openBracket ::
      (ps ++ .semicolon :: .blank :: ([.number length.toNat] ++ [.closeBracket])))
  | single {id type ps} (kind : t.kind id = .tuple [⟨none, type⟩]) (part : Spells t type ps) :
    Spells t id (.openParen :: (ps ++ [.comma, .closeParen]))
  | tuple {id fields} (f : TypeId → List Piece) (kind : t.kind id = .tuple fields)
    (several : ∀ type, fields ≠ [⟨none, type⟩])
    (names : ∀ field ∈ fields, ∀ name ∈ field.name, IsName name)
    (parts : ∀ field ∈ fields, Spells t field.type (f field.type)) :
    Spells t id (.openParen ::
      (Piece.commas (fields.map fun field => Piece.field field.name (f field.type)) ++
        [.closeParen]))
  | reference {id target ps} (kind : t.kind id = .reference target) (part : Spells t target ps) :
    Spells t id (.atSign :: ps)
  | func {id arguments fields result ps} (f : TypeId → List Piece)
    (kind : t.kind id = .func arguments result) (tuple : t.kind arguments = .tuple fields)
    (plain : ∀ field ∈ fields, field.name = none)
    (parts : ∀ field ∈ fields, Spells t field.type (f field.type))
    (last : Spells t result ps) :
    Spells t id ([.word "fn"] ++ .openParen ::
      (Piece.commas (fields.map fun field => f field.type) ++
        .closeParen :: .blank :: .arrow :: .blank :: ps))

/-- Spellings of the parts of a tuple. -/
theorem exists_spelling {fields : List TypeField}
    (h : ∀ field ∈ fields, ∃ ps, t.Spells field.type ps) :
    ∃ f : TypeId → List Piece, ∀ field ∈ fields, t.Spells field.type (f field.type) := by
  classical
  refine ⟨fun type => if h : ∃ ps, t.Spells type ps then h.choose else [], fun field hf => ?_⟩
  have hspells := h field hf
  simp only [dif_pos hspells]
  exact hspells.choose_spec

theorem Spellable.exists_spells (h : t.Spellable id) : ∃ ps, t.Spells id ps := by
  induction h with
  | primitive kind => exact ⟨_, .primitive kind⟩
  | @list id element length kind _ ih =>
    obtain ⟨ps, hps⟩ := ih
    cases length with
    | none => exact ⟨_, .list kind hps⟩
    | some length => exact ⟨_, .sized kind hps⟩
  | @tuple id fields kind names _ ih =>
    obtain ⟨f, hf⟩ := exists_spelling ih
    by_cases hsingle : ∃ type, fields = [⟨none, type⟩]
    · obtain ⟨type, rfl⟩ := hsingle
      exact ⟨_, .single kind (hf _ List.mem_cons_self)⟩
    · exact ⟨_, .tuple f kind (fun type heq => hsingle ⟨type, heq⟩) names hf⟩
  | reference kind _ ih =>
    obtain ⟨ps, hps⟩ := ih
    exact ⟨_, .reference kind hps⟩
  | func kind tuple plain _ _ ih ihlast =>
    obtain ⟨f, hf⟩ := exists_spelling ih
    obtain ⟨ps, hps⟩ := ihlast
    exact ⟨_, .func f kind tuple plain hf hps⟩

/-! ## Texts -/

theorem displayWithin_tuple {fields : List TypeField} (hkind : t.kind id = .tuple fields)
    (hseveral : ∀ type, fields ≠ [⟨none, type⟩]) (depth : Nat) :
    t.displayWithin (depth + 1) id = "(" ++ commaList (fields.map fun field =>
      match field.name with
      | some name => name ++ ": " ++ t.displayWithin depth field.type
      | none => t.displayWithin depth field.type) ++ ")" := by
  rw [displayWithin, hkind]
  match fields, hseveral with
  | [], _ | ⟨some _, _⟩ :: _, _ | ⟨none, _⟩ :: _ :: _, _ => rfl
  | [⟨none, type⟩], hseveral => exact absurd rfl (hseveral type)

theorem Spells.displayWithin (h : t.Spells id ps) (ht : t.Canonical) {depth : Nat}
    (hdepth : id.index < depth) : (t.displayWithin depth id).toList = Piece.text ps := by
  have hpart : ∀ {id part depth}, part ∈ (t.kind id).parts → id.index < depth + 1 →
      part.index < depth := by
    intro id part depth hmem hlt
    have := ht.ordered id part hmem
    omega
  induction h generalizing depth
  all_goals obtain ⟨depth, rfl⟩ := Nat.exists_eq_succ_of_ne_zero (Nat.ne_zero_of_lt hdepth)
  case primitive kind => simp [TypeTable.displayWithin, kind, Piece.chars]
  case list kind part ih =>
    have hih := ih (hpart (by simp [kind, TypeKind.parts]) hdepth)
    simp [TypeTable.displayWithin, kind, hih, Piece.chars]
  case sized kind part ih =>
    have hih := ih (hpart (by simp [kind, TypeKind.parts]) hdepth)
    simp [TypeTable.displayWithin, kind, hih, Piece.chars]
  case single kind part ih =>
    have hih := ih (hpart (by simp [kind, TypeKind.parts]) hdepth)
    simp [TypeTable.displayWithin, kind, hih, Piece.chars]
  case tuple fields f kind several names parts ih =>
    have hih : ∀ field ∈ fields, (t.displayWithin depth field.type).toList =
        Piece.text (f field.type) := fun field hf =>
      ih field hf (hpart (by simpa [kind, TypeKind.parts] using ⟨field, hf, rfl⟩) hdepth)
    have hfields : (fields.map fun field => (match field.name with
        | some name => name ++ ": " ++ t.displayWithin depth field.type
        | none => t.displayWithin depth field.type).toList) =
        fields.map fun field => Piece.text (Piece.field field.name (f field.type)) := by
      refine List.map_congr_left fun field hf => ?_
      cases hname : field.name with
      | none => exact hih field hf
      | some name => simp [Piece.field, Piece.chars, hih field hf]
    rw [displayWithin_tuple kind several]
    simp [commaList, Piece.text_commas, Piece.chars, Function.comp_def, hfields]
  case reference kind part ih =>
    have hih := ih (hpart (by simp [kind, TypeKind.parts]) hdepth)
    simp [TypeTable.displayWithin, kind, hih, Piece.chars]
  case func arguments fields result ps f kind tuple plain parts last ih ihlast =>
    have harguments : arguments.index < depth := hpart (by simp [kind, TypeKind.parts]) hdepth
    have hih : (fields.map fun field => (t.displayWithin depth field.type).toList) =
        fields.map fun field => Piece.text (f field.type) :=
      List.map_congr_left fun field hf => ih field hf (Nat.lt_trans (ht.ordered arguments _
        (by simpa [tuple, TypeKind.parts] using ⟨field, hf, rfl⟩)) harguments)
    have hlast := ihlast (hpart (by simp [kind, TypeKind.parts]) hdepth)
    simp [TypeTable.displayWithin, kind, tuple, commaList, Piece.text_commas, Piece.chars,
      Function.comp_def, hih, hlast]

theorem isName_primitive (p : Primitive) : IsName p.name := by
  cases p <;> exact ⟨⟨_, _, rfl, by decide, List.all_eq_true.mp (by decide)⟩, by decide⟩

theorem isIdentifier_fn : IsIdentifier "fn" :=
  ⟨'f', ['n'], rfl, by decide, List.forall_mem_singleton.mpr (by decide)⟩

/-- A spelled type is read as it is. -/
theorem Spells.fits (h : t.Spells id ps) : Piece.Fits ps := by
  induction h with
  | @primitive id p kind => exact Piece.fits_word (isName_primitive p).1
  | list kind part ih =>
    exact Piece.fits_nil.mark (by decide) (ih.mark (by decide) Piece.fits_nil)
  | @sized id element length ps kind part ih =>
    exact Piece.fits_nil.mark (by decide) (ih.spaced (by decide)
      ((Piece.fits_number length.toNat).mark (by decide) Piece.fits_nil))
  | single kind part ih =>
    exact Piece.fits_nil.mark (by decide)
      (ih.mark (by decide) (Piece.fits_nil.mark (by decide) Piece.fits_nil))
  | @tuple id fields f kind several names parts ih =>
    have hfields : ∀ ps ∈ fields.map fun field => Piece.field field.name (f field.type),
        Piece.Fits ps := by
      rintro _ hps
      obtain ⟨field, hf, rfl⟩ := List.mem_map.mp hps
      exact Piece.fits_field (names field hf) (ih field hf)
    exact Piece.fits_nil.mark (by decide)
      ((Piece.fits_commas hfields).mark (by decide) Piece.fits_nil)
  | reference kind part ih => exact Piece.fits_nil.mark (by decide) ih
  | @func id arguments fields result ps f kind tuple plain parts last ih ihlast =>
    have hfields : ∀ ps ∈ fields.map fun field => f field.type, Piece.Fits ps := by
      rintro _ hps
      obtain ⟨field, hf, rfl⟩ := List.mem_map.mp hps
      exact ih field hf
    exact (Piece.fits_word isIdentifier_fn).mark (by decide) ((Piece.fits_commas hfields).spaced
      (by decide) (Piece.fits_nil.spaced (by decide) ihlast))

end TypeTable
end BlockLang
