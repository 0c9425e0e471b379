import BlockLang.Grammar.Statement
import BlockLang.Proofs.Types.Pieces

/-!
# Reading types

A type that is spelled out is read up to its end, to an expression that means it in every
sense of the word that follows the grammar (`Meaning`, `Spells.takes`).
-/

namespace BlockLang

open Token (Kind)

/-! ## The tokens ahead -/

/-- The tokens ahead have these kinds and texts, then `rest` follows. -/
def Cursor.Ahead (c : Cursor) (lexemes : List (Kind × String)) (rest : List Token) : Prop :=
  ∃ tokens, c.rest = tokens ++ rest ∧ tokens.map Token.lexeme = lexemes

theorem Cursor.current_of_rest {c : Cursor} {token : Token} {rest : List Token}
    (h : c.rest = token :: rest) : c.current = token := by
  rw [Cursor.current, h]
  rfl

theorem Cursor.kind_of_rest {c : Cursor} {token : Token} {rest : List Token}
    (h : c.rest = token :: rest) : c.current.kind = token.kind :=
  congrArg Token.kind (current_of_rest h)

namespace Cursor.Ahead

variable {c : Cursor} {k : Kind} {v : String} {ls ls' : List (Kind × String)}
  {rest : List Token}

theorem rest_eq (h : c.Ahead [] rest) : c.rest = rest := by
  obtain ⟨tokens, hc, hls⟩ := h
  rw [hc, List.map_eq_nil_iff.mp hls, List.nil_append]

theorem cons (h : c.Ahead ((k, v) :: ls) rest) :
    ∃ token tokens, c.rest = token :: (tokens ++ rest) ∧ token.kind = k ∧ token.value = v ∧
      tokens.map Token.lexeme = ls := by
  obtain ⟨tokens, hc, hls⟩ := h
  obtain ⟨token, tokens, rfl, htoken, htokens⟩ := List.map_eq_cons_iff.mp hls
  exact ⟨token, tokens, hc, congrArg Prod.fst htoken, congrArg Prod.snd htoken, htokens⟩

theorem kind (h : c.Ahead ((k, v) :: ls) rest) : c.current.kind = k := by
  obtain ⟨token, tokens, hc, hk, -, -⟩ := h.cons
  exact (Cursor.kind_of_rest hc).trans hk

theorem value (h : c.Ahead ((k, v) :: ls) rest) : c.current.value = v := by
  obtain ⟨token, tokens, hc, -, hv, -⟩ := h.cons
  rw [Cursor.current_of_rest hc, hv]

theorem length_le (h : c.Ahead ls rest) : ls.length ≤ c.rest.length := by
  obtain ⟨tokens, hc, rfl⟩ := h
  simp [hc]

theorem next (h : c.Ahead ((k, v) :: ls) rest) : c.next.Ahead ls rest := by
  obtain ⟨token, tokens, hc, -, -, hls⟩ := h.cons
  rw [Cursor.next, hc]
  exact ⟨tokens, rfl, hls⟩

/-- What comes later is ahead of every cursor that has come there. -/
theorem split (h : c.Ahead (ls ++ (k, v) :: ls') rest) :
    ∃ token middle, c.Ahead ls (token :: middle) ∧ token.kind = k ∧
      ∀ c' : Cursor, c'.rest = token :: middle → c'.Ahead ((k, v) :: ls') rest := by
  obtain ⟨tokens, hc, hls⟩ := h
  obtain ⟨before, after, rfl, hbefore, hafter⟩ := List.map_eq_append_iff.mp hls
  obtain ⟨token, after, rfl, htoken, hafter'⟩ := List.map_eq_cons_iff.mp hafter
  refine ⟨token, after ++ rest, ⟨before, ?_, hbefore⟩, congrArg Prod.fst htoken, fun c' hc' => ?_⟩
  · rw [hc, List.append_assoc, List.cons_append]
  · exact ⟨token :: after, hc', hafter⟩

end Cursor.Ahead

namespace Parse

/-! ## Reading tokens -/

/-- From `c`, `p` gets to `c'` without looking at the session. -/
def Gets (p : Parse α) (c : Cursor) (a : α) (c' : Cursor) : Prop := p.run c = pure (a, c')

variable {c c' c'' : Cursor} {kind : Kind}

theorem Gets.bind {p : Parse α} {f : α → Parse β} {a : α} {b : β} (h : Gets p c a c')
    (h' : Gets (f a) c' b c'') : Gets (p >>= f) c b c'' := by
  rw [Gets, StateT.run_bind, h, pure_bind]
  exact h'

theorem Gets.pure (a : α) : Gets (Pure.pure a : Parse α) c a c := rfl

theorem gets_isAt (kind : Kind) : Gets (isAt kind) c (decide (c.current.kind = kind)) c := rfl

theorem gets_currentKind : Gets currentKind c c.current.kind c := rfl

theorem gets_bound : Gets bound c (c.rest.length + 1) c := rfl

theorem gets_advance : Gets advance c c.current c.next := rfl

theorem gets_expect (h : c.current.kind = kind) : Gets (expect kind) c c.current c.next := by
  refine (gets_isAt kind).bind ?_
  rw [decide_eq_true h]
  exact gets_advance

theorem gets_accept (h : c.current.kind = kind) : Gets (accept kind) c true c.next := by
  refine (gets_isAt kind).bind ?_
  rw [decide_eq_true h]
  exact gets_advance.bind (.pure true)

theorem gets_accept_false (h : c.current.kind ≠ kind) : Gets (accept kind) c false c := by
  refine (gets_isAt kind).bind ?_
  rw [decide_eq_false h]
  exact .pure false

/-- In front of a token as `stop` says, `p` reads the pieces `ps`, and `Q` holds of what they
are read as. -/
def Takes (stop : Kind → Prop) (p : Parse α) (ps : List Piece) (Q : α → Prop) : Prop :=
  ∀ c token rest, c.Ahead (Piece.lexemes ps) (token :: rest) → stop token.kind →
    ∃ a c', Gets p c a c' ∧ c'.rest = token :: rest ∧ Q a

theorem Takes.before {stop stop' : Kind → Prop} {p : Parse α} {ps : List Piece} {Q : α → Prop}
    (h : Takes stop p ps Q) (hstop : ∀ kind, stop' kind → stop kind) : Takes stop' p ps Q :=
  fun c token rest hc hkind => h c token rest hc (hstop _ hkind)

theorem Takes.imp {stop : Kind → Prop} {p : Parse α} {ps : List Piece} {Q R : α → Prop}
    (h : Takes stop p ps Q) (hqr : ∀ a, Q a → R a) : Takes stop p ps R := by
  intro c token rest hc hstop
  obtain ⟨a, c', hgets, hc', hq⟩ := h c token rest hc hstop
  exact ⟨a, c', hgets, hc', hqr a hq⟩

/-! ## Productions -/

/-- What may follow a type. -/
abbrev AfterType (kind : Kind) : Prop := kind ≠ .less

end Parse

namespace Grammar

open Parse

variable {type : Parse TypeExpr} {ps : List Piece} {Q : TypeExpr → Prop}

theorem takes_namedType {name : String} (h : IsName name) :
    Takes AfterType (namedType type) [.word name]
      fun x => ∃ position, x = .name name [] position := by
  intro c token rest hc hstop
  simp only [Piece.lexemes_word, h.2, Piece.lexemes_nil] at hc
  have hrest := hc.next.rest_eq
  have hnext : c.next.current.kind ≠ .less := Cursor.kind_of_rest hrest ▸ hstop
  refine ⟨.name name [] c.current.span.start, c.next, ?_, hrest, _, rfl⟩
  refine (gets_expect hc.kind).bind ((gets_accept_false hnext).bind ?_)
  rw [hc.value]
  exact .pure _

theorem takes_listType (h : Takes AfterType type ps Q) :
    Takes AfterType (listType type) (.openBracket :: (ps ++ [.closeBracket]))
      fun x => ∃ element, x = .list element none ∧ Q element := by
  intro c token rest hc hstop
  simp only [Piece.lexemes_mark, Piece.lexemes_append, Piece.lexemes_nil] at hc
  obtain ⟨close, middle, helement, hclose, hlater⟩ := hc.next.split
  obtain ⟨element, c', hgets, hc', hq⟩ := h c.next close middle helement (by simp [hclose])
  have hbracket := hlater c' hc'
  refine ⟨.list element none, c'.next, ?_, hbracket.next.rest_eq, element, rfl, hq⟩
  refine (gets_expect hc.kind).bind (hgets.bind ((gets_accept_false ?_).bind ?_))
  · rw [hbracket.kind]
    decide
  · exact (gets_expect hbracket.kind).bind (.pure _)

theorem ofDigits_toString (n : Nat) : Number.ofDigits (toString n).toList = n := by
  rw [Nat.toString_eq_repr, Nat.toList_repr]
  exact Nat.ofDigitChars_toDigits (by decide) (by decide)

theorem gets_boundedNumber {token : Token} {n limit : Nat} (hvalue : token.value = toString n)
    (hn : n ≤ limit) {c : Cursor} : Gets (boundedNumber token limit) c n c := by
  rw [boundedNumber, hvalue, ofDigits_toString, if_pos hn]
  exact .pure n

theorem takes_listType_sized (h : Takes AfterType type ps Q) (length : UInt64) :
    Takes AfterType (listType type)
      (.openBracket :: (ps ++ .semicolon :: .blank :: ([.number length.toNat] ++ [.closeBracket])))
      fun x => ∃ element, x = .list element (some length) ∧ Q element := by
  intro c token rest hc hstop
  simp only [Piece.lexemes_mark, Piece.lexemes_append, Piece.lexemes_blank, Piece.lexemes_number,
    Piece.lexemes_nil, List.cons_append, List.nil_append] at hc
  obtain ⟨semicolon, middle, helement, hsemicolon, hlater⟩ := hc.next.split
  obtain ⟨element, c', hgets, hc', hq⟩ :=
    h c.next semicolon middle helement (by simp [hsemicolon])
  have hlength := hlater c' hc'
  have hbracket := hlength.next.next
  have hlimit : length.toNat ≤ Nat.pow 2 64 - 1 := Nat.le_sub_one_of_lt length.toNat_lt
  refine ⟨.list element (some length), c'.next.next.next, ?_, hbracket.next.rest_eq, element, rfl,
    hq⟩
  refine (gets_expect hc.kind).bind (hgets.bind ((gets_accept hlength.kind).bind ?_))
  refine (gets_expect hlength.next.kind).bind ?_
  refine (gets_boundedNumber hlength.next.value hlimit).bind ((gets_expect hbracket.kind).bind ?_)
  rw [UInt64.ofNat_toNat]
  exact .pure _

section Separated

variable {α β : Type} {item : Parse β} {close : Kind} {message : String} {fuel : Nat}
  {c c' c'' : Cursor} {b : β}

theorem gets_separated_nil (h : c.current.kind = close) :
    Gets (separated close message item (fuel + 1)) c ([], false) c := by
  refine (gets_isAt close).bind ?_
  rw [decide_eq_true h]
  exact .pure _

theorem gets_separated_last (h : c.current.kind ≠ close) (hitem : Gets item c b c')
    (hclose : c'.current.kind = close) (hcomma : close ≠ .comma) :
    Gets (separated close message item (fuel + 1)) c ([b], false) c' := by
  refine (gets_isAt close).bind ?_
  rw [decide_eq_false h]
  refine hitem.bind ((gets_accept_false (hclose ▸ hcomma)).bind ((gets_isAt close).bind ?_))
  rw [decide_eq_true hclose]
  exact .pure _

theorem gets_separated_cons {bs : List β} {sawComma : Bool} (h : c.current.kind ≠ close)
    (hitem : Gets item c b c') (hcomma : c'.current.kind = .comma)
    (hothers : Gets (separated close message item fuel) c'.next (bs, sawComma) c'') :
    Gets (separated close message item (fuel + 1)) c (b :: bs, true) c'' := by
  refine (gets_isAt close).bind ?_
  rw [decide_eq_false h]
  exact hitem.bind ((gets_accept hcomma).bind (hothers.bind (.pure _)))

/-- The text of `ps` starts with a token of another kind. -/
def StartsApart (close : Kind) (ps : List Piece) : Prop :=
  ∃ kind value ls, Piece.lexemes ps = (kind, value) :: ls ∧ kind ≠ close

theorem StartsApart.lexemes_ne_nil {close : Kind} (h : StartsApart close ps) :
    Piece.lexemes ps ≠ [] := by
  obtain ⟨kind, value, ls, hls, -⟩ := h
  simp [hls]

/-- Parts with commas between them are read one after the other, up to `close`. -/
theorem takes_separated (hclose : close ≠ .comma) {f : α → List Piece} {R : α → β → Prop}
    {xs : List α}
    (hitem : ∀ x ∈ xs, Takes (fun kind => kind = .comma ∨ kind = close) item (f x) (R x))
    (hfirst : ∀ x ∈ xs, StartsApart close (f x)) (hfuel : xs.length < fuel) :
    Takes (· = close) (separated close message item fuel) (Piece.commas (xs.map f))
      fun r => List.Forall₂ R xs r.1 := by
  induction xs generalizing fuel with
  | nil =>
    obtain ⟨fuel, rfl⟩ := Nat.exists_eq_succ_of_ne_zero (Nat.ne_zero_of_lt hfuel)
    intro c token rest hc hstop
    have hrest := hc.rest_eq
    have hkind : c.current.kind = close := (Cursor.kind_of_rest hrest).trans hstop
    exact ⟨([], false), c, gets_separated_nil hkind, hrest, .nil⟩
  | cons x xs ih =>
    obtain ⟨fuel, rfl⟩ := Nat.exists_eq_succ_of_ne_zero (Nat.ne_zero_of_lt hfuel)
    obtain ⟨kind, value, ls, hls, hne⟩ := hfirst x List.mem_cons_self
    intro c token rest hc hstop
    cases xs with
    | nil =>
      have hc : c.Ahead (Piece.lexemes (f x)) (token :: rest) := hc
      obtain ⟨b, c', hgets, hc', hr⟩ := hitem x List.mem_cons_self c token rest hc (.inr hstop)
      have hkind : c'.current.kind = close := (Cursor.kind_of_rest hc').trans hstop
      rw [hls] at hc
      exact ⟨([b], false), c', gets_separated_last (hc.kind ▸ hne) hgets hkind hclose, hc',
        .cons hr .nil⟩
    | cons y ys =>
      have hc : c.Ahead (Piece.lexemes (f x) ++ (.comma, ",") ::
          Piece.lexemes (Piece.commas ((y :: ys).map f))) (token :: rest) := by
        simpa [Piece.commas] using hc
      obtain ⟨comma, middle, hfx, hcomma, hlater⟩ := hc.split
      obtain ⟨b, c', hgets, hc', hr⟩ :=
        hitem x List.mem_cons_self c comma middle hfx (.inl hcomma)
      have hothers := hlater c' hc'
      obtain ⟨⟨bs, sawComma⟩, c'', hgets', hc'', hrs⟩ :=
        ih (fun z hz => hitem z (List.mem_cons_of_mem _ hz))
          (fun z hz => hfirst z (List.mem_cons_of_mem _ hz)) (Nat.lt_of_succ_lt_succ hfuel)
          c'.next token rest hothers.next hstop
      rw [hls, List.cons_append] at hc
      exact ⟨(b :: bs, true), c'', gets_separated_cons (hc.kind ▸ hne) hgets hothers.kind hgets',
        hc'', .cons hr hrs⟩

/-- There are at least as many tokens ahead as there are parts, which bounds the rounds. -/
theorem exists_gets_separated (hclose : close ≠ .comma) {f : α → List Piece} {R : α → β → Prop}
    {xs : List α}
    (hitem : ∀ x ∈ xs, Takes (fun kind => kind = .comma ∨ kind = close) item (f x) (R x))
    (hfirst : ∀ x ∈ xs, StartsApart close (f x)) {token : Token} {rest : List Token}
    (hc : c.Ahead (Piece.lexemes (Piece.commas (xs.map f))) (token :: rest))
    (hstop : token.kind = close) :
    ∃ bs sawComma c', Gets (separated close message item (c.rest.length + 1)) c (bs, sawComma) c' ∧
      c'.rest = token :: rest ∧ List.Forall₂ R xs bs := by
  have hparts := Piece.length_le_commas
    (List.forall_mem_map.mpr fun x hx => (hfirst x hx).lexemes_ne_nil)
  rw [List.length_map] at hparts
  have hfuel : xs.length < c.rest.length + 1 :=
    Nat.lt_succ_of_le (Nat.le_trans hparts hc.length_le)
  obtain ⟨⟨bs, sawComma⟩, c', hgets, hc', hbs⟩ :=
    takes_separated hclose hitem hfirst hfuel c token rest hc hstop
  exact ⟨bs, sawComma, c', hgets, hc', hbs⟩

end Separated

/-! ### Tuples and functions -/

/-- The text of a type starts with a token that closes nothing, and with a name only if that
is all. -/
def OpensType (ps : List Piece) : Prop :=
  ∃ kind value ls, Piece.lexemes ps = (kind, value) :: ls ∧ kind ≠ .closeParen ∧
    (kind = .identifier → ls = [])

theorem OpensType.startsApart (h : OpensType ps) : StartsApart .closeParen ps := by
  obtain ⟨kind, value, ls, hls, hne, -⟩ := h
  exact ⟨kind, value, ls, hls, hne⟩

theorem OpensType.startsApart_field (h : OpensType ps) {name : Option String}
    (hname : ∀ n ∈ name, IsName n) : StartsApart .closeParen (Piece.field name ps) := by
  cases name with
  | none => exact h.startsApart
  | some name =>
    refine ⟨.identifier, name, (.colon, ":") :: Piece.lexemes ps, ?_, by decide⟩
    simp [Piece.field, (hname name rfl).2]

theorem gets_fieldName {c : Cursor} {name value : String} {ls : List (Kind × String)}
    {rest : List Token} (h : c.Ahead ((.identifier, name) :: (.colon, value) :: ls) rest) :
    Gets fieldName c (some name) c.next.next := by
  have hpeek : c.peekKind 1 = .colon := by
    obtain ⟨token, tokens, hc, -, -, hls⟩ := h.cons
    obtain ⟨second, tokens, rfl, hsecond, -⟩ := List.map_eq_cons_iff.mp hls
    rw [Cursor.peekKind, hc]
    exact congrArg Prod.fst hsecond
  have hget : Gets (get : Parse Cursor) c c c := rfl
  refine hget.bind ?_
  rw [if_pos ⟨h.kind, hpeek⟩]
  refine gets_advance.bind (gets_advance.bind ?_)
  rw [h.value]
  exact .pure _

theorem gets_fieldName_none {c : Cursor}
    (h : ¬(c.current.kind = .identifier ∧ c.peekKind 1 = .colon)) :
    Gets fieldName c none c := by
  have hget : Gets (get : Parse Cursor) c c c := rfl
  refine hget.bind ?_
  rw [if_neg h]
  exact .pure _

/-- A place of a tuple type. -/
def tupleField (type : Parse TypeExpr) : Parse (Option String × TypeExpr) := do
  return (← fieldName, ← type)

theorem takes_tupleField (h : Takes AfterType type ps Q) (hopens : OpensType ps)
    (name : Option String) (hname : ∀ n ∈ name, IsName n) :
    Takes (fun kind => kind = .comma ∨ kind = .closeParen) (tupleField type) (Piece.field name ps)
      fun x => x.1 = name ∧ Q x.2 := by
  intro c token rest hc hstop
  have hafter : AfterType token.kind := by
    rcases hstop with hstop | hstop <;> simp [hstop]
  cases name with
  | none =>
    have hc : c.Ahead (Piece.lexemes ps) (token :: rest) := hc
    obtain ⟨x, c', hgets, hc', hq⟩ := h c token rest hc hafter
    refine ⟨(none, x), c', (gets_fieldName_none ?_).bind (hgets.bind (.pure _)), hc', rfl, hq⟩
    -- A name is followed by what comes after the type.
    rintro ⟨hkind, hpeek⟩
    obtain ⟨kind, value, ls, hls, -, hall⟩ := hopens
    rw [hls] at hc
    rw [hall (hc.kind.symm.trans hkind)] at hc
    obtain ⟨first, tokens, hrest, -, -, htokens⟩ := hc.cons
    rw [Cursor.peekKind, hrest, List.map_eq_nil_iff.mp htokens] at hpeek
    have hpeek : token.kind = .colon := hpeek
    rcases hstop with hstop | hstop <;> simp [hstop] at hpeek
  | some name =>
    simp only [Piece.field, List.cons_append, List.nil_append, Piece.lexemes_word,
      (hname name rfl).2, Piece.lexemes_mark, Piece.lexemes_blank] at hc
    obtain ⟨x, c', hgets, hc', hq⟩ := h c.next.next token rest hc.next.next hafter
    exact ⟨(some name, x), c', (gets_fieldName hc).bind (hgets.bind (.pure _)), hc', rfl, hq⟩

theorem takes_tupleType_single (h : Takes AfterType type ps Q) (hopens : OpensType ps) :
    Takes AfterType (tupleType type) (.openParen :: (ps ++ [.comma, .closeParen]))
      fun x => ∃ inner, x = .tuple [(none, inner)] ∧ Q inner := by
  intro c token rest hc hstop
  simp only [Piece.lexemes_mark, Piece.lexemes_append, Piece.lexemes_nil] at hc
  obtain ⟨comma, middle, hinner, hcomma, hlater⟩ := hc.next.split
  obtain ⟨⟨name, inner⟩, c', hgets, hc', rfl, hq⟩ :=
    takes_tupleField h hopens none (by simp) c.next comma middle hinner (.inl hcomma)
  have hbehind := hlater c' hc'
  have hparen := hbehind.next
  obtain ⟨kind, value, ls, hls, hne, -⟩ := hopens
  obtain ⟨n, hn⟩ : ∃ n, c.next.rest.length = n + 1 := by
    have hlength := hc.next.length_le
    rw [List.length_append, List.length_cons] at hlength
    exact Nat.exists_eq_succ_of_ne_zero (by omega)
  refine ⟨.tuple [(none, inner)], c'.next.next, ?_, hparen.next.rest_eq, inner, rfl, hq⟩
  refine (gets_expect hc.kind).bind (gets_bound.bind ?_)
  rw [hn]
  rw [hls] at hinner
  refine (gets_separated_cons (hinner.kind ▸ hne) hgets hbehind.kind
    (gets_separated_nil hparen.kind)).bind ?_
  exact (gets_expect hparen.kind).bind (.pure _)

theorem takes_tupleType {fields : List TypeField} {f : TypeId → List Piece}
    {R : TypeExpr → TypeId → Prop} (hseveral : ∀ type, fields ≠ [⟨none, type⟩])
    (hnames : ∀ field ∈ fields, ∀ name ∈ field.name, IsName name)
    (h : ∀ field ∈ fields, Takes AfterType type (f field.type) (R · field.type))
    (hopens : ∀ field ∈ fields, OpensType (f field.type)) :
    Takes AfterType (tupleType type) (.openParen ::
        (Piece.commas (fields.map fun field => Piece.field field.name (f field.type)) ++
          [.closeParen]))
      fun x => ∃ xs, x = .tuple xs ∧
        List.Forall₂ (fun field x => x.1 = field.name ∧ R x.2 field.type) fields xs := by
  intro c token rest hc hstop
  simp only [Piece.lexemes_mark, Piece.lexemes_append, Piece.lexemes_nil] at hc
  obtain ⟨close, middle, hparts, hclose, hlater⟩ := hc.next.split
  obtain ⟨xs, sawComma, c', hgets, hc', hxs⟩ := exists_gets_separated (by decide)
    (fun field hf => takes_tupleField (h field hf) (hopens field hf) field.name (hnames field hf))
    (fun field hf => (hopens field hf).startsApart_field (hnames field hf)) hparts hclose
  have hparen := hlater c' hc'
  refine ⟨.tuple xs, c'.next, ?_, hparen.next.rest_eq, xs, rfl, hxs⟩
  refine (gets_expect hc.kind).bind (gets_bound.bind (hgets.bind ?_))
  refine (gets_expect hparen.kind).bind ?_
  -- `(T)` would be `T`, but no tuple is spelled like that.
  split
  · obtain ⟨⟨name, type⟩, fields, ⟨rfl, -⟩, hnil, rfl⟩ := List.forall₂_cons_right_iff.mp hxs
    obtain rfl := List.forall₂_nil_right_iff.mp hnil
    exact absurd rfl (hseveral type)
  · exact .pure _

theorem takes_funcType {fields : List TypeField} {f : TypeId → List Piece}
    {R : TypeExpr → TypeId → Prop}
    (h : ∀ field ∈ fields, Takes AfterType type (f field.type) (R · field.type))
    (hopens : ∀ field ∈ fields, OpensType (f field.type)) (hlast : Takes AfterType type ps Q) :
    Takes AfterType (funcType type) ([.word "fn"] ++ .openParen ::
        (Piece.commas (fields.map fun field => f field.type) ++
          .closeParen :: .blank :: .arrow :: .blank :: ps))
      fun x => ∃ xs y, x = .func xs y ∧
        List.Forall₂ (fun field x => R x field.type) fields xs ∧ Q y := by
  intro c token rest hc hstop
  simp only [List.cons_append, List.nil_append, Piece.lexemes_word, Piece.lexemes_mark,
    Piece.lexemes_append, Piece.lexemes_blank] at hc
  have hfn : c.current.kind = .fnWord := hc.kind
  obtain ⟨close, middle, hparts, hclose, hlater⟩ := hc.next.next.split
  have hitem : ∀ field ∈ fields, Takes (fun kind => kind = .comma ∨ kind = .closeParen) type
      (f field.type) (R · field.type) := fun field hf =>
    (h field hf).before fun kind hkind => by rcases hkind with rfl | rfl <;> decide
  obtain ⟨xs, sawComma, c', hgets, hc', hxs⟩ := exists_gets_separated (by decide) hitem
    (fun field hf => (hopens field hf).startsApart) hparts hclose
  have hparen := hlater c' hc'
  obtain ⟨y, c'', hgets', hc'', hy⟩ := hlast c'.next.next token rest hparen.next.next hstop
  refine ⟨.func xs y, c'', ?_, hc'', xs, y, rfl, hxs, hy⟩
  refine (gets_expect hfn).bind ((gets_expect hc.next.kind).bind (gets_bound.bind ?_))
  refine hgets.bind ((gets_expect hparen.kind).bind ((gets_accept hparen.next.kind).bind ?_))
  exact hgets'.bind (.pure _)

/-! ### Types -/

theorem takes_reference (h : Takes AfterType type ps Q) :
    Takes AfterType (do let _ ← expect .atSign; return TypeExpr.reference (← type))
        (.atSign :: ps)
      fun x => ∃ target, x = TypeExpr.reference target ∧ Q target := by
  intro c token rest hc hstop
  rw [Piece.lexemes_mark] at hc
  obtain ⟨target, c', hgets, hc', hq⟩ := h c.next token rest hc.next hstop
  exact ⟨.reference target, c', (gets_expect hc.kind).bind (hgets.bind (.pure _)), hc', target, rfl,
    hq⟩

/-- The first token decides on the production. -/
theorem takes_currentKind {α : Type} {p : Kind → Parse α} {stop : Kind → Prop} {Q : α → Prop}
    {kind : Kind} {value : String} {ls : List (Kind × String)}
    (hps : Piece.lexemes ps = (kind, value) :: ls) (h : Takes stop (p kind) ps Q) :
    Takes stop (currentKind >>= p) ps Q := by
  intro c token rest hc hstop
  obtain ⟨a, c', hgets, hc', hq⟩ := h c token rest hc hstop
  rw [hps] at hc
  exact ⟨a, c', gets_currentKind.bind (hc.kind ▸ hgets), hc', hq⟩

end Grammar

/-- What a type as written stands for, as its form tells. -/
structure TypeTable.Meaning (t : TypeTable) (M : TypeExpr → TypeId → Prop) : Prop where
  name {p : Primitive} {id} (hkind : t.kind id = .primitive p) (position) :
    M (.name p.name [] position) id
  list {element length id x} (hkind : t.kind id = .list element length) (hx : M x element) :
    M (.list x length) id
  tuple {fields id xs} (hkind : t.kind id = .tuple fields)
    (hxs : List.Forall₂ (fun field x => x.1 = field.name ∧ M x.2 field.type) fields xs) :
    M (.tuple xs) id
  reference {target id x} (hkind : t.kind id = .reference target) (hx : M x target) :
    M (.reference x) id
  func {arguments fields result id xs x} (hkind : t.kind id = .func arguments result)
    (htuple : t.kind arguments = .tuple fields) (hplain : ∀ field ∈ fields, field.name = none)
    (hxs : List.Forall₂ (fun field x => M x field.type) fields xs) (hx : M x result) :
    M (.func xs x) id

namespace TypeTable.Spells

open Grammar Parse

variable {t : TypeTable} {id : TypeId} {ps : List Piece} {M : TypeExpr → TypeId → Prop}

theorem opensType (h : t.Spells id ps) : OpensType ps := by
  cases h with
  | @primitive id p kind =>
    refine ⟨.identifier, p.name, [], ?_, by decide, fun _ => rfl⟩
    simp [(isName_primitive p).2]
  | list | sized => exact ⟨.openBracket, "[", _, rfl, by decide, nofun⟩
  | single | tuple => exact ⟨.openParen, "(", _, rfl, by decide, nofun⟩
  | reference => exact ⟨.atSign, "@", _, rfl, by decide, nofun⟩
  | func => exact ⟨.fnWord, "fn", _, rfl, by decide, nofun⟩

/-- A spelled type is read up to its end, as what it means. -/
theorem takes (h : t.Spells id ps) (hM : t.Meaning M) {depth : Nat}
    (hdepth : (Piece.lexemes ps).length ≤ depth) :
    Takes AfterType (productions depth).type ps (M · id) := by
  induction h generalizing depth
  all_goals
    simp only [Piece.lexemes_word, Piece.lexemes_number, Piece.lexemes_mark, Piece.lexemes_blank,
      Piece.lexemes_append, List.cons_append, List.nil_append, List.length_cons,
      List.length_append] at hdepth
    obtain ⟨depth, rfl⟩ := Nat.exists_eq_succ_of_ne_zero (Nat.ne_zero_of_lt hdepth)
  case primitive id p kind =>
    refine takes_currentKind rfl ((isName_primitive p).2 ▸ ?_)
    refine (takes_namedType (isName_primitive p)).imp ?_
    rintro _ ⟨position, rfl⟩
    exact hM.name kind position
  case list kind part ih =>
    have hpart := @ih depth (by omega)
    refine takes_currentKind rfl ((takes_listType hpart).imp ?_)
    rintro _ ⟨x, rfl, hx⟩
    exact hM.list kind hx
  case sized length _ kind part ih =>
    have hpart := @ih depth (by omega)
    refine takes_currentKind rfl ((takes_listType_sized hpart length).imp ?_)
    rintro _ ⟨x, rfl, hx⟩
    exact hM.list kind hx
  case single kind part ih =>
    have hpart := @ih depth (by omega)
    refine takes_currentKind rfl ((takes_tupleType_single hpart part.opensType).imp ?_)
    rintro _ ⟨x, rfl, hx⟩
    exact hM.tuple kind (.cons ⟨rfl, hx⟩ .nil)
  case tuple fields f kind several names parts ih =>
    have hparts : ∀ field ∈ fields,
        Takes AfterType (productions depth).type (f field.type) (M · field.type) := by
      intro field hf
      have hlength := Piece.length_le_of_mem_commas
        (List.mem_map_of_mem (f := fun field => Piece.field field.name (f field.type)) hf)
      have hfield := Piece.length_le_field field.name (f field.type)
      exact ih field hf (by omega)
    refine takes_currentKind rfl ((takes_tupleType several names hparts
      fun field hf => (parts field hf).opensType).imp ?_)
    rintro _ ⟨xs, rfl, hxs⟩
    exact hM.tuple kind hxs
  case reference kind part ih =>
    have hpart := @ih depth (by omega)
    refine takes_currentKind rfl ((takes_reference hpart).imp ?_)
    rintro _ ⟨x, rfl, hx⟩
    exact hM.reference kind hx
  case func fields result ps f kind tuple plain parts last ih ihlast =>
    have hparts : ∀ field ∈ fields,
        Takes AfterType (productions depth).type (f field.type) (M · field.type) := by
      intro field hf
      have hlength := Piece.length_le_of_mem_commas
        (List.mem_map_of_mem (f := fun field => f field.type) hf)
      exact ih field hf (by omega)
    have hlast := @ihlast depth (by omega)
    refine takes_currentKind rfl ((takes_funcType hparts
      (fun field hf => (parts field hf).opensType) hlast).imp ?_)
    rintro _ ⟨xs, x, rfl, hxs, hx⟩
    exact hM.func kind tuple plain hxs hx

end TypeTable.Spells
end BlockLang
