import BlockLang.Proofs.Grammar.Precedence
import BlockLang.Proofs.Token.Lexemes

/-!
# Postfix operators

Names, places and indices behind an expression are read from left to right, each around what
stands before it. In a text no place may stand right behind another: digits, a point and digits
are one number.
-/

namespace BlockLang.Grammar

open Parse
open Token (Kind Lexes)

/-- What may stand behind an expression. An index has a text with these lexemes. -/
inductive Postfix where
  | name (text : String)
  | place (digits : List Char)
  | index (text : List Char) (lexemes : List (Kind × String))

namespace Postfix

def chars : Postfix → List Char
  | name text => '.' :: text.toList
  | place digits => '.' :: digits
  | index text _ => '[' :: text ++ [']']

def lexemes : Postfix → List (Kind × String)
  | name text => [(.dot, "."), (.identifier, text)]
  | place digits => [(.dot, "."), (.number, .ofList digits)]
  | index _ lexemes => (.openBracket, "[") :: lexemes ++ [(.closeBracket, "]")]

/-- The text of an index keeps its lexemes in front of the bracket. -/
def Written : Postfix → Prop
  | name text => IsIdentifier text ∧ Kind.ofWord text = .identifier
  | place digits => digits ≠ [] ∧ ∀ c ∈ digits, c.isDigit = true
  | index text lexemes => ∀ rest more, Lexes (']' :: rest) more →
    Lexes (text ++ ']' :: rest) (lexemes ++ more)

/-- No place stands right behind another. -/
def Apart : Postfix → Postfix → Prop
  | place _, place _ => False
  | _, _ => True

end Postfix

-- ---------------------------------------------------------------------------
-- The text
-- ---------------------------------------------------------------------------

section
variable {ps : List Postfix} {rest : List Char} {more : List (Kind × String)}

theorem lexes_dot (h : Lexes rest more) : Lexes ('.' :: rest) ((.dot, ".") :: more) := by
  have hcut : Token.Cuts (.mark "." .dot) ['.'] rest := rfl
  exact h.take hcut (List.cons_ne_nil _ _) rfl

theorem lexes_openBracket (h : Lexes rest more) :
    Lexes ('[' :: rest) ((.openBracket, "[") :: more) := by
  have hcut : Token.Cuts (.mark "[" .openBracket) ['['] rest := rfl
  exact h.take hcut (List.cons_ne_nil _ _) rfl

theorem lexes_closeBracket (h : Lexes rest more) :
    Lexes (']' :: rest) ((.closeBracket, "]") :: more) := by
  have hcut : Token.Cuts (.mark "]" .closeBracket) [']'] rest := rfl
  exact h.take hcut (List.cons_ne_nil _ _) rfl

/-- A postfix operator starts with a mark. -/
theorem head_postfixes (hrest : ∀ c ∈ rest.head?, Token.Rule.isWordPart c = false) :
    ∀ c ∈ (ps.flatMap Postfix.chars ++ rest).head?, Token.Rule.isWordPart c = false := by
  cases ps with
  | nil => exact hrest
  | cons p ps =>
    intro c hc
    have hmark : c = '.' ∨ c = '[' := by
      cases p
      · exact .inl (by simpa [Postfix.chars] using hc.symm)
      · exact .inl (by simpa [Postfix.chars] using hc.symm)
      · exact .inr (by simpa [Postfix.chars] using hc.symm)
    rcases hmark with rfl | rfl <;> decide

theorem isDigit_of_not_isWordPart {c : Char} (h : Token.Rule.isWordPart c = false) :
    c.isDigit = false := by
  rw [← Bool.not_eq_true] at h ⊢
  exact fun hd => h (Piece.isWordPart_of_isDigit hd)

/-- What stands right behind a place does not go on with digits. -/
theorem digitsLength_behind_place {digits : List Char} {q : Postfix} (hq : q.Written)
    (hapart : (Postfix.place digits).Apart q) {cs : List Char}
    (h : q.chars ++ rest = '.' :: cs) : Token.Rule.digitsLength cs = 0 := by
  cases q with
  | name name =>
    obtain ⟨⟨c, ds, hname, hstart, -⟩, -⟩ := hq
    obtain rfl : c :: (ds ++ rest) = cs := by simpa [Postfix.chars, hname] using h
    have hdigit : c.isDigit = false := by
      rw [← Bool.not_eq_true]
      exact fun hd => by simp [Token.isWordStart_of_isDigit hd] at hstart
    simp [Token.Rule.digitsLength, hdigit]
  | place _ => exact hapart.elim
  | index _ _ => simp [Postfix.chars] at h

/-- The text of postfix operators is cut into their tokens. -/
theorem lexes_postfixes (h : ∀ p ∈ ps, p.Written) (hapart : ps.IsChain Postfix.Apart)
    (hmore : Lexes rest more)
    (hrest : ∀ c ∈ rest.head?, Token.Rule.isWordPart c = false ∧ c ≠ '.') :
    Lexes (ps.flatMap Postfix.chars ++ rest) (ps.flatMap Postfix.lexemes ++ more) := by
  induction ps with
  | nil => exact hmore
  | cons p ps ih =>
    have hothers := ih (fun q hq => h q (List.mem_cons_of_mem _ hq)) hapart.tail
    have hhead : ∀ c ∈ (ps.flatMap Postfix.chars ++ rest).head?, Token.Rule.isWordPart c = false :=
      head_postfixes fun c hc => (hrest c hc).1
    have hp := h p List.mem_cons_self
    rw [List.flatMap_cons, List.flatMap_cons, List.append_assoc, List.append_assoc]
    cases p with
    | name name =>
      obtain ⟨hname, hkind⟩ := hp
      have hne : name.toList ≠ [] := by
        obtain ⟨c, cs, hcs, -⟩ := hname
        simp [hcs]
      refine lexes_dot (hothers.take (Token.cuts_word hname hhead) hne ?_)
      simp [Token.Rule.word, hkind]
    | place digits =>
      obtain ⟨hne, hdigits⟩ := hp
      refine lexes_dot (hothers.take (Token.cuts_digits hne hdigits
        (fun c hc => isDigit_of_not_isWordPart (hhead c hc)) fun cs hcs => ?_) hne rfl)
      cases ps with
      | nil => exact absurd rfl (hrest '.' (by simpa using congrArg List.head? hcs)).2
      | cons q qs =>
        rw [List.flatMap_cons, List.append_assoc] at hcs
        exact digitsLength_behind_place (h q (by simp)) (List.isChain_cons_cons.mp hapart).1 hcs
    | index text lexemes =>
      have hclose := hp _ _ (lexes_closeBracket hothers)
      have hopen := lexes_openBracket hclose
      simpa [Postfix.chars, Postfix.lexemes] using hopen

/-- So is the text of a name with postfix operators behind it. -/
theorem tokenize_postfixes {name : String} (hname : IsIdentifier name)
    (hkind : Kind.ofWord name = .identifier) (h : ∀ p ∈ ps, p.Written)
    (hapart : ps.IsChain Postfix.Apart) (file : String) :
    ∃ first tokens semicolon last,
      tokenize (.ofList (name.toList ++ (ps.flatMap Postfix.chars ++ [';']))) file =
        .ok (first :: (tokens ++ [semicolon, last])) ∧
      first.kind = .identifier ∧ first.value = name ∧
      tokens.map Token.lexeme = ps.flatMap Postfix.lexemes ∧ semicolon.kind = .semicolon := by
  have hnil : Lexes [] [] := fun file offset => ⟨[], _, rfl, rfl, rfl⟩
  have hend : Lexes [';'] [(.semicolon, ";")] := hnil.take
    (show Token.Cuts (.mark ";" .semicolon) [';'] [] from rfl) (List.cons_ne_nil _ _) rfl
  have hends : ∀ c ∈ [';'].head?, Token.Rule.isWordPart c = false ∧ c ≠ '.' := by
    intro c hc
    obtain rfl : ';' = c := Option.some.inj hc
    exact ⟨rfl, by decide⟩
  have hne : name.toList ≠ [] := by
    obtain ⟨c, cs, hcs, -⟩ := hname
    simp [hcs]
  have hmake : Token.Rule.word.make name.toList = some (.identifier, name) := by
    simp [Token.Rule.word, hkind]
  obtain ⟨_, last, hscan, hall, -⟩ := ((lexes_postfixes h hapart hend hends).take
    (Token.cuts_word hname (head_postfixes fun c hc => (hends c hc).1)) hne hmake) file 0
  obtain ⟨first, _, rfl, hfirst, hmore⟩ := List.map_eq_cons_iff.mp hall
  obtain ⟨tokens, _, rfl, htokens, hstop⟩ := List.map_eq_append_iff.mp hmore
  obtain ⟨semicolon, _, rfl, hsemicolon, hstop⟩ := List.map_eq_cons_iff.mp hstop
  obtain rfl := List.map_eq_nil_iff.mp hstop
  obtain ⟨hword, hvalue⟩ := Prod.mk.inj hfirst
  refine ⟨first, tokens, semicolon, last, ?_, hword, hvalue, htokens, (Prod.mk.inj hsemicolon).1⟩
  rw [tokenize, String.toList_ofList, hscan]
  simp

end

-- ---------------------------------------------------------------------------
-- The tree
-- ---------------------------------------------------------------------------

variable {parts : Productions Power} {Q : List (Kind × String) → Tree → Session → Prop}

/-- The second tree has a node for each postfix operator around the first one. `Q` says what an
index is read as. -/
inductive Wraps (Q : List (Kind × String) → Tree → Session → Prop) (s : Session) :
    List Postfix → Tree → Tree → Prop
  | nil {t : Tree} : Wraps Q s [] t t
  | name {i : NodeId} {text : String} {ps : List Postfix} {t u : Tree}
    (h : Wraps Q s ps (.node i (.field text) [t]) u) : Wraps Q s (.name text :: ps) t u
  | place {i : NodeId} {digits : List Char} {ps : List Postfix} {t u : Tree}
    (h : Wraps Q s ps (.node i (.field (.ofList digits)) [t]) u) :
    Wraps Q s (.place digits :: ps) t u
  | index {i : NodeId} {text : List Char} {lexemes : List (Kind × String)} {ps : List Postfix}
    {t u v : Tree} (hv : Q lexemes v s) (h : Wraps Q s ps (.node i .index [t, v]) u) :
    Wraps Q s (.index text lexemes :: ps) t u

/-- In front of a closing bracket, the tokens of an index are read as `Q` says. -/
def Postfix.ReadBy (expr : Parse NodeId) (Q : List (Kind × String) → Tree → Session → Prop) :
    Postfix → Prop
  | index _ lexemes => ∀ tokens close rest c s, tokens.map Token.lexeme = lexemes →
    close.kind = .closeBracket → c.rest = tokens ++ close :: rest →
      Makes expr c s [] (close :: rest) (Q lexemes)
  | _ => True

section
variable {c : Cursor} {s : Session} {t : Tree} {rest tail : List Token} {R : Tree → Session → Prop}

/-- What was there before is also known in the end. -/
theorem Makes.imp_enriches {p : Parse NodeId} {ts : List Tree} {S : Tree → Session → Prop}
    (h : Makes p c s ts rest R) (hq : ∀ u s', Enriches s s' → R u s' → S u s') :
    Makes p c s ts rest S := by
  intro us hforest
  refine (h us hforest).imp ?_
  rintro r s' ⟨u, hid, hc, hforest', he, hu⟩
  exact ⟨u, hid, hc, hforest', he, hq u s' he hu⟩

theorem Makes.expect {f : Token → Parse NodeId} {ts : List Tree} {token : Token} {kind : Kind}
    (hc : c.rest = token :: tail) (hk : token.kind = kind)
    (hf : Makes (f token) c.next s ts rest R) : Makes (Parse.expect kind >>= f) c s ts rest R := by
  have hcurrent : c.current = token := Cursor.current_of_rest hc
  have hrun : (Parse.expect kind >>= f).run c = (Parse.advance >>= f).run c := by
    rw [run_bind_of_gets (gets_expect (hcurrent ▸ hk)), run_bind_of_gets gets_advance]
  intro us hforest
  rw [hrun]
  exact Makes.advance hc hf us hforest

theorem rest_next {token : Token} (hc : c.rest = token :: tail) : c.next.rest = tail := by
  rw [Cursor.next, hc]

/-- A name or a place gives a field of what stands before it. -/
theorem makes_memberAccess {dot field : Token} (hc : c.rest = dot :: field :: rest)
    (hkind : field.kind = .identifier ∨ field.kind = .number) :
    Makes (memberAccess t.handle) c s [t] rest fun u _ =>
      ∃ i, u = .node i (.field field.value) [t] := by
  have hfield : c.next.rest = field :: rest := rest_next hc
  have hname : Makes (do
      let name ← advance
      node (.field name.value) (← spanFrom (← spanOf t.handle).start) [t.handle]) c.next s [t] rest
      fun u _ => ∃ i, u = .node i (.field field.value) [t] :=
    .advance hfield (.spanOf (.look (gets_spanFrom _)
      (makes_node rfl (rest_next hfield) fun i _ _ => ⟨i, rfl⟩)))
  refine .advance hc (.look gets_currentKind ?_)
  rw [Cursor.kind_of_rest hfield]
  rcases hkind with hkind | hkind <;> rw [hkind] <;> exact hname

/-- An index gives an access to what stands before it. -/
theorem makes_indexing {tokens : List Token} {opening close : Token}
    (hR : ∀ v s s', R v s → Enriches s s' → R v s')
    (hc : c.rest = opening :: (tokens ++ close :: rest)) (hclose : close.kind = .closeBracket)
    (hread : ∀ c', c'.rest = tokens ++ close :: rest →
      Makes (parts.expr .lowest) c' s [] (close :: rest) R) :
    Makes (indexing parts t.handle) c s [t] rest fun u s' =>
      ∃ i v, u = .node i .index [t, v] ∧ R v s' := by
  refine .advance hc (.bind [t] (hread c.next (rest_next hc)) fun v c' s' hc' _ hv => ?_)
  refine .expect hc' hclose (.spanOf (.look (gets_spanFrom _) ?_))
  exact makes_node rfl (rest_next hc') fun i s'' he => ⟨i, v, rfl, hR v s' s'' hv he⟩

end

/-- A name and a place are read alike. -/
theorem makes_climb_field {power : Power} {fuel : Nat} {kind : Kind} {value : String}
    {ls : List (Kind × String)} {next : Token} {tokens rest : List Token} {c : Cursor} {s : Session}
    {t : Tree} {R : Tree → Session → Prop} (hpower : power.rank < Power.call.rank)
    (hkind : kind = .identifier ∨ kind = .number)
    (htokens : tokens.map Token.lexeme = (.dot, ".") :: (kind, value) :: ls)
    (hc : c.rest = tokens ++ next :: rest)
    (hnext : ∀ tail i c' s', tail.map Token.lexeme = ls → c'.rest = tail ++ next :: rest →
      Makes (climb parts power fuel i) c' s' [.node i (.field value) [t]] (next :: rest) R) :
    Makes (climb parts power (fuel + 1) t.handle) c s [t] (next :: rest) R := by
  obtain ⟨dot, _, rfl, hdot, htokens⟩ := List.map_eq_cons_iff.mp htokens
  obtain ⟨field, tail, rfl, hfield, htail⟩ := List.map_eq_cons_iff.mp htokens
  obtain ⟨rfl, rfl⟩ := Prod.mk.inj hfield
  have hmore : continuation? dot.kind = some .member := by
    rw [(Prod.mk.inj hdot).1]
    rfl
  refine makes_climb_extend hc hmore (Nat.lt_trans hpower (by decide))
    (makes_memberAccess hc hkind) ?_
  rintro _ c' s' hc' ⟨i, rfl⟩
  exact hnext tail i c' s' htail hc'

/-- What has been read is extended by each postfix operator in turn. -/
theorem makes_postfixes (hQ : ∀ ls v s s', Q ls v s → Enriches s s' → Q ls v s') {power : Power}
    (hpower : power.rank < Power.call.rank) {ps : List Postfix}
    (hread : ∀ p ∈ ps, p.ReadBy (parts.expr .lowest) Q) {next : Token}
    (hnext : continuation? next.kind = none) {fuel : Nat} (hfuel : ps.length < fuel)
    {tokens rest : List Token} (htokens : tokens.map Token.lexeme = ps.flatMap Postfix.lexemes)
    {c : Cursor} {s : Session} {t : Tree} (hc : c.rest = tokens ++ next :: rest) :
    Makes (climb parts power fuel t.handle) c s [t] (next :: rest)
      fun u s' => Wraps Q s' ps t u := by
  induction ps generalizing fuel tokens c s t with
  | nil =>
    obtain rfl : tokens = [] := by simpa using htokens
    exact makes_climb_stop hfuel hc (by simp [hnext]) .nil
  | cons p ps ih =>
    obtain ⟨fuel, rfl⟩ := Nat.exists_eq_succ_of_ne_zero (Nat.ne_of_gt (Nat.zero_lt_of_lt hfuel))
    have hothers := @ih (fun q hq => hread q (List.mem_cons_of_mem _ hq)) fuel
      (Nat.lt_of_succ_lt_succ hfuel)
    cases p with
    | name text =>
      refine makes_climb_field hpower (.inl rfl) htokens hc fun tail i c' s' htail hc' => ?_
      exact (hothers htail hc').imp fun u s'' h => .name h
    | place digits =>
      refine makes_climb_field hpower (.inr rfl) htokens hc fun tail i c' s' htail hc' => ?_
      exact (hothers htail hc').imp fun u s'' h => .place h
    | index text lexemes =>
      have hlexemes : tokens.map Token.lexeme = (.openBracket, "[") :: (lexemes ++
          (.closeBracket, "]") :: ps.flatMap Postfix.lexemes) := by
        simpa [Postfix.lexemes] using htokens
      obtain ⟨opening, _, rfl, hopening, htokens⟩ := List.map_eq_cons_iff.mp hlexemes
      obtain ⟨inner, _, rfl, hinner, htokens⟩ := List.map_eq_append_iff.mp htokens
      obtain ⟨close, tail, rfl, hclose, htail⟩ := List.map_eq_cons_iff.mp htokens
      have hmore : continuation? opening.kind = some .index := by
        rw [(Prod.mk.inj hopening).1]
        rfl
      have hrest : c.rest = opening :: (inner ++ close :: (tail ++ next :: rest)) := by
        simpa using hc
      have hkind : close.kind = .closeBracket := (Prod.mk.inj hclose).1
      refine makes_climb_extend hrest hmore hpower (makes_indexing (hQ lexemes) hrest hkind
        fun c' hc' => hread _ List.mem_cons_self inner close _ c' s hinner hkind hc') ?_
      rintro _ c' s' hc' ⟨i, v, rfl, hv⟩
      exact (hothers htail hc').imp_enriches fun u s'' he h => .index (hQ _ _ _ _ hv he) h

theorem length_le_postfixes (ps : List Postfix) :
    ps.length ≤ (ps.flatMap Postfix.lexemes).length := by
  induction ps with
  | nil => exact Nat.le_refl _
  | cons p ps ih =>
    rw [List.flatMap_cons, List.length_append, List.length_cons, Nat.add_comm]
    exact Nat.add_le_add (by cases p <;> simp [Postfix.lexemes]) ih

theorem eq_symbol_of_spellsAtom {s : Session} {token : Token} {t : Tree}
    (h : SpellsAtom s token t) (hk : token.kind = .identifier) :
    ∃ i, t = .node i (.symbol token.value) [] := by
  cases h with
  | name _ _ => exact ⟨_, rfl⟩
  | literal hd _ _ =>
    cases hd with
    | int h => simp [hk] at h
    | float h => simp [hk] at h
    | bool b h => cases b <;> simp [hk] at h
    | string h _ => simp [hk] at h

/-- A name with postfix operators behind it is read as their nodes around the name. -/
theorem makes_name_postfixes {depth : Nat}
    (hQ : ∀ ls v s s', Q ls v s → Enriches s s' → Q ls v s') {ps : List Postfix}
    (hread : ∀ p ∈ ps, p.ReadBy ((productions depth).expr .lowest) Q) {first next : Token}
    {tokens rest : List Token} (hword : first.kind = .identifier)
    (htokens : tokens.map Token.lexeme = ps.flatMap Postfix.lexemes)
    (hnext : continuation? next.kind = none) {c : Cursor} {s : Session}
    (hc : c.rest = first :: (tokens ++ next :: rest)) :
    Makes ((productions (depth + 1)).expr .lowest) c s [] (next :: rest) fun u s' =>
      ∃ i, Wraps Q s' ps (.node i (.symbol first.value) []) u := by
  have hatom : isAtom first = true := by rw [isAtom, hword]
  refine .bind [] (makes_atom hatom hc) fun t c' s' hc' _ ht => ?_
  obtain ⟨i, rfl⟩ := eq_symbol_of_spellsAtom ht hword
  have hfuel : ps.length < c'.rest.length + 1 := by
    have hlength := congrArg List.length htokens
    rw [List.length_map] at hlength
    have hle := length_le_postfixes ps
    rw [hc', List.length_append]
    omega
  refine .look gets_bound ?_
  exact (makes_postfixes hQ (by decide) hread hnext hfuel htokens hc').imp fun u s'' h => ⟨i, h⟩

/-- The text of a name with postfix operators behind it, of which no place stands right behind
another, is cut into tokens that are read as the nodes of the operators around the name. -/
theorem expr_postfixes {depth : Nat} (hQ : ∀ ls v s s', Q ls v s → Enriches s s' → Q ls v s')
    {name : String} (hname : IsIdentifier name) (hkind : Kind.ofWord name = .identifier)
    {ps : List Postfix} (hps : ∀ p ∈ ps, p.Written) (hapart : ps.IsChain Postfix.Apart)
    (hread : ∀ p ∈ ps, p.ReadBy ((productions depth).expr .lowest) Q) (file : String) :
    ∃ tokens stop, tokenize (.ofList (name.toList ++ (ps.flatMap Postfix.chars ++ [';']))) file =
        .ok (tokens ++ stop) ∧ ∀ c s, c.rest = tokens ++ stop →
      Makes ((productions (depth + 1)).expr .lowest) c s [] stop fun u s' =>
        ∃ i, Wraps Q s' ps (.node i (.symbol name) []) u := by
  obtain ⟨first, tokens, semicolon, last, htokenize, hword, rfl, htokens, hsemicolon⟩ :=
    tokenize_postfixes hname hkind hps hapart file
  refine ⟨first :: tokens, [semicolon, last], htokenize, fun c s hc => ?_⟩
  have hnext : continuation? semicolon.kind = none := by
    rw [hsemicolon]
    rfl
  exact makes_name_postfixes hQ hread hword htokens hnext hc

/-- A place right behind another one is part of a number. -/
example : (tokenize "b.0.1" "main").toOption.map (·.map Token.lexeme) = some
    [(.identifier, "b"), (.dot, "."), (.float, "0.1"), (.eof, "EOF")] := by rfl

end BlockLang.Grammar
