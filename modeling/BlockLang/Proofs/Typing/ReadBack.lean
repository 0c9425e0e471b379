import BlockLang.Proofs.Grammar.Type
import BlockLang.Proofs.Scope.Look
import BlockLang.Proofs.Session.Run

/-!
# Displayed types read back

The text that a type is displayed as is read as a type up to its end, and what is read is
resolved to the same handle, without a report, wherever the names of the primitives mean the
primitives (`readsAs_display`).
-/

namespace BlockLang

instance (body : TypeDefBody) (type : TypeId) : Decidable (body = .builtin type) :=
  match body with
  | .builtin other => decidable_of_iff (other = type) (by simp)
  | .written _ => .isFalse nofun

namespace ScopeTable

variable {t : ScopeTable} {scope : ScopeId}

/-- In `scope`, `name` stands for a builtin type. There is nothing to resolve about it, so it
is not being resolved. -/
def Denotes (t : ScopeTable) (scope : ScopeId) (name : String) (type : TypeId) : Prop :=
  ∃ id, t.findType? scope name = .ok (some id) ∧ (t.typeDef id).body = .builtin type ∧
    (t.typeDef id).resolving = false

/-- In `scope`, the names of the primitives stand for them. -/
def KnowsPrimitives (t : ScopeTable) (scope : ScopeId) : Prop :=
  ∀ p : Primitive, t.Denotes scope p.name p.typeId

/-- What is kept with a definition once it is resolved does not change what it is. -/
theorem typeDef_resolved (t : ScopeTable) (changed id : TypeDefId) (resolved : Option TypeId) :
    ((t.modifyTypeDef changed ({ · with resolved })).typeDef id).body = (t.typeDef id).body ∧
      ((t.modifyTypeDef changed ({ · with resolved })).typeDef id).resolving =
        (t.typeDef id).resolving := by
  simp only [typeDef, modifyTypeDef, Array.getElem?_modify]
  split
  · cases t.typeDefs[id.index]? <;> exact ⟨rfl, rfl⟩
  · exact ⟨rfl, rfl⟩

theorem KnowsPrimitives.resolved (h : t.KnowsPrimitives scope) (changed : TypeDefId)
    (resolved : Option TypeId) :
    (t.modifyTypeDef changed ({ · with resolved })).KnowsPrimitives scope := by
  intro p
  obtain ⟨id, hfind, hbody, hresolving⟩ := h p
  obtain ⟨hsame, hsame'⟩ := t.typeDef_resolved changed id resolved
  exact ⟨id, (t.findType?_withDefs _ scope p.name).trans hfind, hsame.trans hbody,
    hsame'.trans hresolving⟩

end ScopeTable

namespace Typing

open Pass

variable {t : TypeTable} {scope : ScopeId} {id : TypeId}

/-- Where the types are those of `t` and the primitives are known, `pass` returns `a` without
a report, and that stays so. -/
def Yields (t : TypeTable) (scope : ScopeId) (pass : Pass α) (a : α) : Prop :=
  ∀ s : Session, s.types = t → s.scopes.KnowsPrimitives scope →
    Returns pass s fun b s' => b = a ∧ s'.types = t ∧ s'.report = s.report ∧
      s'.scopes.KnowsPrimitives scope

theorem Yields.pure (a : α) : Yields t scope (Pure.pure a) a :=
  fun _ ht hknows => ⟨rfl, ht, rfl, hknows⟩

theorem Yields.bind {pass : Pass α} {f : α → Pass β} {a : α} {b : β} (h : Yields t scope pass a)
    (h' : Yields t scope (f a) b) : Yields t scope (pass >>= f) b := by
  intro s ht hknows
  rw [Returns, triple_bind]
  refine (h s ht hknows).imp ?_
  rintro _ s' ⟨rfl, ht', hreport, hknows'⟩
  exact (h' s' ht' hknows').imp fun b s'' ⟨hb, ht'', hreport', hknows''⟩ =>
    ⟨hb, ht'', hreport'.trans hreport, hknows''⟩

/-- A type that the table has is found. -/
theorem yields_makeType {f : TypeTable → TypeId × TypeTable} (h : f t = (id, t)) :
    Yields t scope (makeType f) id := by
  rintro s rfl hknows
  rw [Returns, triple_makeType, h]
  exact ⟨rfl, rfl, rfl, hknows⟩

theorem returns_resolveTypeDef {s : Session} {d : TypeDefId} {position : Position}
    (hbody : (s.scopes.typeDef d).body = .builtin id)
    (hresolving : (s.scopes.typeDef d).resolving = false)
    (hknows : s.scopes.KnowsPrimitives scope) :
    Returns (resolveTypeDef d position) s fun body s' => body.isSome = true ∧
      (s'.scopes.typeDef d).body = .builtin id ∧ s'.types = s.types ∧ s'.report = s.report ∧
      s'.scopes.KnowsPrimitives scope := by
  unfold resolveTypeDef resolveDef
  simp only [Returns, triple_bind, triple_scopes]
  cases (s.scopes.typeDef d).resolved with
  | some body => exact ⟨rfl, hbody, rfl, rfl, hknows⟩
  | none =>
    simp only [hresolving, hbody, Bool.false_eq_true, if_false]
    exact ⟨rfl, (s.scopes.typeDef_resolved d d _).1.trans hbody, rfl, rfl, hknows.resolved d _⟩

theorem yields_resolveNamed (p : Primitive) (position : Position) :
    Yields t scope (resolveNamed resolveTypeDef scope p.name [] position) p.typeId := by
  rintro s rfl hknows
  obtain ⟨d, hfind, hbody, hresolving⟩ := hknows p
  unfold resolveNamed
  rw [Returns, triple_bind, triple_lookUp, hfind]
  dsimp only
  rw [triple_bind]
  refine (returns_resolveTypeDef hbody hresolving hknows).imp ?_
  rintro body s' ⟨hsome, hbody', htypes, hreport, hknows'⟩
  obtain ⟨body, rfl⟩ := Option.isSome_iff_exists.mp hsome
  simp only [triple_bind, triple_scopes, hbody', triple_pure]
  exact ⟨trivial, htypes, hreport, hknows'⟩

/-- `expr` is resolved to `id`. -/
def ResolvesTo (t : TypeTable) (expr : TypeExpr) (id : TypeId) : Prop :=
  ∀ scope, Yields t scope (resolveType scope expr) id

theorem yields_resolveFields {fields : List TypeField} {xs : List (Option String × TypeExpr)}
    (h : List.Forall₂ (fun field x => x.1 = field.name ∧ ResolvesTo t x.2 field.type) fields xs) :
    Yields t scope (resolveFields resolveTypeDef scope [] xs) fields := by
  induction h with
  | nil =>
    unfold resolveFields
    exact .pure []
  | @cons field x fields xs hx _ ih =>
    obtain ⟨name, x⟩ := x
    obtain ⟨rfl, hx⟩ := hx
    unfold resolveFields
    exact (hx scope).bind (ih.bind (.pure _))

theorem yields_resolveList {fields : List TypeField} {xs : List TypeExpr}
    (h : List.Forall₂ (fun field x => ResolvesTo t x field.type) fields xs) :
    Yields t scope (resolveList resolveTypeDef scope [] xs) (fields.map (·.type)) := by
  induction h with
  | nil =>
    unfold resolveList
    exact .pure []
  | cons hx _ ih =>
    unfold resolveList
    exact (hx scope).bind (ih.bind (.pure _))

end Typing

namespace TypeTable

open Typing

variable {t : TypeTable} {id : TypeId}

/-- In a table that is in use, what a written type is resolved to is as its form tells. -/
theorem Built.meaning (h : t.Built) : t.Meaning (ResolvesTo t) := by
  have hcanonical := h.settled.canonical
  have hintern : ∀ {kind id}, t.kind id = kind → kind ≠ .error → kind.isParam = false →
      t.intern kind = (id, t) := by
    rintro _ id rfl herror hparam
    exact hcanonical.intern_kind (has_of_kind_ne_error herror) hparam
  constructor
  case name =>
    intro p id hkind position scope
    obtain rfl : p.typeId = id := by
      have hp := h.kind_typeId p
      exact hcanonical.shared _ _ (h.has_typeId p) (has_of_kind_ne_error (by simp [hkind]))
        (by rw [hp]; rfl) (hp.trans hkind.symm)
    have hargs : Yields t scope (resolveList resolveTypeDef scope [] []) [] :=
      yields_resolveList .nil
    unfold resolveType resolveIn
    exact hargs.bind (yields_resolveNamed p position)
  case list =>
    intro element length id x hkind hx scope
    unfold resolveType resolveIn
    exact (hx scope).bind (yields_makeType (hintern hkind (by simp) rfl))
  case tuple =>
    intro fields id xs hkind hxs scope
    unfold resolveType resolveIn
    exact (yields_resolveFields hxs).bind (yields_makeType (hintern hkind (by simp) rfl))
  case reference =>
    intro target id x hkind hx scope
    unfold resolveType resolveIn
    exact (hx scope).bind (yields_makeType (hintern hkind (by simp) rfl))
  case func =>
    intro arguments fields result id xs x hkind htuple hplain hxs hx scope
    have harguments : t.makePlainTuple (fields.map (·.type)) = (arguments, t) := by
      have hfields : (fields.map (·.type)).map (⟨none, ·⟩) = fields := by
        rw [List.map_map]
        refine (List.map_congr_left fun field hf => ?_).trans (List.map_id fields)
        rw [Function.comp_apply, ← hplain field hf]
        rfl
      rw [makePlainTuple, hfields]
      exact hintern htuple (by simp) rfl
    unfold resolveType resolveIn
    exact (yields_resolveList hxs).bind ((yields_makeType harguments).bind
      ((hx scope).bind (yields_makeType (hintern hkind (by simp) rfl))))

end TypeTable

namespace Session

variable {s : Session} {id : TypeId}

/-- As a type, `text` is read up to the end of the file, in any session and without a change
to it. What is read is resolved to `id`, without a report or a new type, wherever the
primitives are known. -/
def ReadsAs (s : Session) (text file : String) (id : TypeId) : Prop :=
  ∃ tokens, tokenize text file = .ok tokens ∧
    ∀ depth, tokens.length ≤ depth → ∀ (layers : Layers) (s₀ : Session), ∃ expr c,
      ((Grammar.productions depth).type.run (.start tokens file layers)).start s₀ =
        (.ok (expr, c), s₀) ∧
      (∃ last, c.rest = [last] ∧ last.kind = .eof) ∧
      ∀ scope, s.scopes.KnowsPrimitives scope → ∃ s',
        (Typing.resolveType scope expr).start s = (.ok id, s') ∧ s'.types = s.types ∧
        s'.report = s.report

/-- A type that can be spelled is displayed as a text that reads as this type. -/
theorem readsAs_display (h : s.types.Built) (hid : s.types.Spellable id) (file : String) :
    s.ReadsAs (s.types.display id) file id := by
  obtain ⟨ps, hps⟩ := hid.exists_spells
  obtain ⟨tokens, last, hscan, hlexemes, hlast⟩ := scan_pieces file 0 hps.fits.plain hps.fits.meets
  have htext : (s.types.display id).toList = Piece.text ps :=
    hps.displayWithin h.settled.canonical (Nat.lt_succ_self _)
  refine ⟨tokens ++ [last], ?_, fun depth hdepth layers s₀ => ?_⟩
  · rw [tokenize, htext, hscan]
  have hlength : (Piece.lexemes ps).length ≤ depth := by
    rw [← hlexemes, List.length_map]
    rw [List.length_append] at hdepth
    omega
  obtain ⟨expr, c, hgets, hrest, hresolves⟩ := hps.takes h.meaning hlength
    (.start (tokens ++ [last]) file layers) last [] ⟨tokens, rfl, hlexemes⟩ (by simp [hlast])
  refine ⟨expr, c, congrArg (Task.start · s₀) hgets, ⟨last, hrest, hlast⟩, fun scope hknows => ?_⟩
  obtain ⟨_, s', hstart, rfl, htypes, hreport, -⟩ := (hresolves scope s rfl hknows).exists
  exact ⟨s', hstart, htypes, hreport⟩

/-- The types up to `([@fn((x: @[int8; 4])) -> bool],)`, each made from the one before it. -/
def nestedRequests : List TypeRequest :=
  [.list Primitive.int8.typeId (some 4), .reference ⟨10⟩, .tuple [⟨some "x", ⟨11⟩⟩],
    .plainTuple [⟨12⟩], .func ⟨13⟩ Primitive.bool.typeId, .reference ⟨14⟩, .list ⟨15⟩ none,
    .plainTuple [⟨16⟩]]

/-- A session that knows these types, and the primitives by their names. -/
def nested : Session :=
  let (universal, scopes) := ScopeTable.empty.addScope .universal none
  let s := Primitive.all.foldl definePrimitive
    ⟨.empty, .initial, scopes, #[], .empty, #[], [], #[], universal, "main"⟩
  { s with types := nestedRequests.foldl (fun t r => (r.answer t).2) (.new fun _ => 0) }

theorem built_nested : nested.types.Built := by
  have hbytes := (TypeTable.Built.new fun _ => 0).request
    (.list Primitive.int8.typeId (some 4)) (by decide)
  have hreference := hbytes.request (.reference ⟨10⟩) (by decide)
  have hnamed := hreference.request (.tuple [⟨some "x", ⟨11⟩⟩]) (by decide)
  have harguments := hnamed.request (.plainTuple [⟨12⟩]) (by decide)
  have hfunc := harguments.request (.func ⟨13⟩ Primitive.bool.typeId) (by decide)
  have hreference' := hfunc.request (.reference ⟨14⟩) (by decide)
  have hlist := hreference'.request (.list ⟨15⟩ none) (by decide)
  exact hlist.request (.plainTuple [⟨16⟩]) (by decide)

theorem knowsPrimitives_nested : nested.scopes.KnowsPrimitives nested.universal := by
  intro p
  refine ⟨⟨p.typeId.index⟩, ?_⟩
  cases p <;> decide +kernel

theorem spellable_nested : nested.types.Spellable ⟨17⟩ := by
  have hprimitive : ∀ p : Primitive, nested.types.Spellable p.typeId := fun p =>
    .primitive (built_nested.kind_typeId p)
  have hbytes : nested.types.kind ⟨10⟩ = .list Primitive.int8.typeId (some 4) := by decide
  have hreference : nested.types.kind ⟨11⟩ = .reference ⟨10⟩ := by decide
  have hnamed : nested.types.kind ⟨12⟩ = .tuple [⟨some "x", ⟨11⟩⟩] := by decide
  have harguments : nested.types.kind ⟨13⟩ = .tuple [⟨none, ⟨12⟩⟩] := by decide
  have hfunc : nested.types.kind ⟨14⟩ = .func ⟨13⟩ Primitive.bool.typeId := by decide
  have hreference' : nested.types.kind ⟨15⟩ = .reference ⟨14⟩ := by decide
  have hlist : nested.types.kind ⟨16⟩ = .list ⟨15⟩ none := by decide
  have hsingle : nested.types.kind ⟨17⟩ = .tuple [⟨none, ⟨16⟩⟩] := by decide
  have hx : IsName "x" := ⟨⟨'x', [], rfl, by decide, nofun⟩, by decide⟩
  have hargument : nested.types.Spellable ⟨12⟩ := .tuple hnamed (by simpa using hx)
    (by simpa using .reference hreference (.list hbytes (hprimitive .int8)))
  have hsignature : nested.types.Spellable ⟨14⟩ :=
    .func hfunc harguments (by simp) (by simpa using hargument) (hprimitive .bool)
  exact .tuple hsingle (by simp) (by simpa using .list hlist (.reference hreference' hsignature))

/-- The parentheses, the comma and the name all come back. -/
theorem readsAs_nested :
    (nested.types.Built ∧ nested.types.Spellable ⟨17⟩ ∧
      nested.scopes.KnowsPrimitives nested.universal) ∧
    nested.ReadsAs "([@fn((x: @[int8; 4])) -> bool],)" unnamedFile ⟨17⟩ := by
  have hreads := readsAs_display built_nested spellable_nested unnamedFile
  have htext : nested.types.display ⟨17⟩ = "([@fn((x: @[int8; 4])) -> bool],)" := by decide +kernel
  rw [htext] at hreads
  exact ⟨⟨built_nested, spellable_nested, knowsPrimitives_nested⟩, hreads⟩

end Session
end BlockLang
