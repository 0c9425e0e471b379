import BlockLang.Proofs.Session.Builtins
import BlockLang.Proofs.Types.Compare
import BlockLang.Proofs.Typing.Choice
import BlockLang.Proofs.Typing.Operation

/-!
# Choosing an operator

Names on top of the operands cost the same with every built-in, as long as costs are below the
greatest one. Of two operands that have one arithmetic type under their names, that type
decides which built-in is meant (`Typing.resolves_operands`).
-/

namespace BlockLang

-- ---------------------------------------------------------------------------
-- What operands cost
-- ---------------------------------------------------------------------------

namespace Cost

theorem primitive_self (p : Primitive) : primitive p p = zero := if_pos rfl

theorem eq_zero_of_add {a b : Cost} (h : a + b = valid 0) : a = zero := by
  cases a <;> cases b <;> simp_all [zero, greatest]

theorem pos_of_primitive {p q : Primitive} (h : primitive p q = valid n) (hne : p ≠ q) :
    0 < n := by
  cases p <;> cases q <;> simp_all [primitive, Primitive.isInteger, Primitive.isFloat, steps,
    Primitive.rank] <;> omega

/-- Below the greatest cost, names do not hide what two conversions cost. -/
theorem least_layers {m n k : Nat} {c : Cost} (hlt : m + n < greatest)
    (h : c + valid m + (c + valid n) = valid k) : m + n ≤ k ∧ (k = m + n → c = zero) := by
  cases c with
  | invalid => simp at h
  | valid j =>
    simp only [valid_add, valid.injEq] at h
    refine ⟨by omega, fun hk => ?_⟩
    have hj : j = 0 := by omega
    rw [hj, zero]

/-- Too many names hide what conversions cost. -/
theorem many_layers {m n : Nat} {c : Cost} (h : greatest ≤ m + n) :
    c + valid m + (c + valid n) = if c.isValid then valid greatest else invalid := by
  cases c with
  | invalid => rfl
  | valid j =>
    simp only [valid_add, isValid, if_true, valid.injEq]
    omega

/-- No arithmetic type is the only one that its numbers can be brought to. -/
theorem exists_primitive_ne {p : Primitive} (hp : p.isArithmetic = true) :
    ∃ q, q.isArithmetic = true ∧ q ≠ p ∧ (primitive p q).isValid = true := by
  cases p with
  | bool => cases hp
  | float80 => exact ⟨.float32, rfl, nofun, rfl⟩
  | _ => exact ⟨.float80, rfl, nofun, rfl⟩

end Cost

namespace TypeTable

variable {t : TypeTable} {a b args params : TypeId} {p q : Primitive}

theorem kind_stripNamed (h : t.underlying? a = some p) :
    t.kind (t.stripNamed a) = .primitive p := by
  simp only [underlying?, primitive?] at h
  split at h
  · next hk => rw [hk, Option.some.inj h]
  · cases h

theorem has_of_underlying (h : t.underlying? a = some p) : t.Has a := by
  refine has_of_kind_ne_error fun he => ?_
  have hplain : (t.kind a).isNamed = false := by rw [he]; rfl
  have hkind := kind_stripNamed h
  rw [(strip_of_not_named hplain).1, he] at hkind
  cases hkind

theorem Built.underlying_typeId (h : t.Built) (p : Primitive) :
    t.underlying? p.typeId = some p ∧ t.nameCount p.typeId = 0 := by
  have hkind := h.kind_typeId p
  have hplain : (t.kind p.typeId).isNamed = false := by rw [hkind]; rfl
  obtain ⟨hstrip, hcount⟩ := strip_of_not_named hplain
  exact ⟨by simp only [underlying?, primitive?, hstrip, hkind], hcount⟩

/-- A name counts as much as any other, whatever primitive is wanted. -/
theorem Built.compare_underlying (h : t.Built) (ha : t.underlying? a = some p) (q : Primitive) :
    t.compare a q.typeId = .primitive p q + .valid (t.nameCount a) := by
  have hkind := kind_stripNamed ha
  have hwanted := h.kind_typeId q
  have hplain : (t.kind q.typeId).isNamed = false := by rw [hwanted]; rfl
  obtain ⟨hstrip, hcount⟩ := strip_of_not_named hplain
  have hcompare := h.settled.canonical.compare_strip a q.typeId (by simp [isError, hkind])
    (by simp [isError, hstrip, hwanted])
  rw [hcompare, hstrip, hcount, h.settled.canonical.compare_primitive hkind hwanted,
    Nat.dist_zero_right]

/-- Two operands are given to a built-in that takes `n` of type `q`. -/
theorem Built.compare_operands (h : t.Built) (hargs : t.kind args = .tuple [⟨none, a⟩, ⟨none, b⟩])
    (hparams : t.kind params = .tuple (.replicate n ⟨none, q.typeId⟩)) :
    t.compare args params =
      if n = 2 then t.compare a q.typeId + t.compare b q.typeId else .invalid := by
  have hlength : [(⟨none, a⟩ : TypeField), ⟨none, b⟩].length = n ↔ n = 2 := eq_comm
  rw [h.settled.canonical.compare_tuple hargs hparams, List.length_replicate]
  simp only [hlength]
  split
  · next hn =>
    have hlast : t.compare b q.typeId + .zero = t.compare b q.typeId :=
      (t.bounded_compare b q.typeId).add_zero
    have hend : fieldsCost t.compare [] [] = .zero := rfl
    rw [hn, List.replicate_succ, List.replicate_one, fieldsCost_cons, fieldsCost_cons, hend, hlast]
    rfl
  · rfl

/-- Both operands have the primitive `p` under their names, so only built-ins at `p` are as
cheap as the names alone. -/
theorem Built.least_operands (h : t.Built) (hargs : t.kind args = .tuple [⟨none, a⟩, ⟨none, b⟩])
    (hparams : t.kind params = .tuple (.replicate n ⟨none, q.typeId⟩))
    (ha : t.underlying? a = some p) (hb : t.underlying? b = some p)
    (hlayers : t.nameCount a + t.nameCount b < Cost.greatest) :
    (∀ k, t.compare args params = .valid k → t.nameCount a + t.nameCount b ≤ k) ∧
    (t.compare args params = .valid (t.nameCount a + t.nameCount b) ↔ n = 2 ∧ q = p) := by
  rw [h.compare_operands hargs hparams, h.compare_underlying ha, h.compare_underlying hb]
  by_cases hn : n = 2
  · rw [if_pos hn]
    refine ⟨fun k hk => (Cost.least_layers hlayers hk).1, fun hk => ⟨hn, ?_⟩, ?_⟩
    · by_contra hne
      have hzero := (Cost.least_layers hlayers hk).2 rfl
      exact Nat.lt_irrefl 0 (Cost.pos_of_primitive hzero (Ne.symm hne))
    · rintro ⟨-, rfl⟩
      rw [Cost.primitive_self, Cost.zero]
      simp only [Cost.valid_add, Cost.valid.injEq]
      omega
  · simp [hn]

/-- With too many names on the operands, every conversion costs as much as any other. -/
theorem Built.compare_many (h : t.Built) (hargs : t.kind args = .tuple [⟨none, a⟩, ⟨none, b⟩])
    (hparams : t.kind params = .tuple (.replicate n ⟨none, q.typeId⟩))
    (ha : t.underlying? a = some p) (hb : t.underlying? b = some p)
    (hmany : Cost.greatest ≤ t.nameCount a + t.nameCount b) :
    t.compare args params =
      if n = 2 ∧ (Cost.primitive p q).isValid then .valid Cost.greatest else .invalid := by
  rw [h.compare_operands hargs hparams, h.compare_underlying ha, h.compare_underlying hb,
    Cost.many_layers hmany]
  by_cases hn : n = 2
  · simp [hn]
  · simp [hn]

/-- Arguments of one primitive cost nothing only where they are asked for. -/
theorem Built.eq_of_compare_zero (h : t.Built)
    (hargs : t.kind args = .tuple (.replicate m ⟨none, p.typeId⟩))
    (hparams : t.kind params = .tuple (.replicate n ⟨none, q.typeId⟩)) (hm : 0 < m)
    (hcost : t.compare args params = .valid 0) : m = n ∧ p = q := by
  rw [h.settled.canonical.compare_tuple hargs hparams, List.length_replicate,
    List.length_replicate] at hcost
  split at hcost
  · next hmn =>
    subst hmn
    refine ⟨rfl, by_contra fun hne => ?_⟩
    obtain ⟨k, rfl⟩ := Nat.exists_eq_succ_of_ne_zero (Nat.ne_of_gt hm)
    rw [List.replicate_succ, List.replicate_succ, fieldsCost_cons,
      h.settled.canonical.compare_primitive (h.kind_typeId p) (h.kind_typeId q)] at hcost
    have hfirst : Cost.primitive p q = .zero := Cost.eq_zero_of_add hcost
    exact Nat.lt_irrefl 0 (Cost.pos_of_primitive hfirst hne)
  · cases hcost

end TypeTable

-- ---------------------------------------------------------------------------
-- Choosing an operator
-- ---------------------------------------------------------------------------

/-- Every arithmetic type has each binary operator but the two on truth values. -/
theorem Builtin.mem_all {op : BinaryOp} {p : Primitive} (hop : op.promotesOperands = true)
    (hp : p.isArithmetic = true) : (⟨.binary op, p⟩ : Builtin) ∈ Builtin.all := by
  have hkind : .binary op ∈ arithmeticKinds := by cases op <;> first | decide | cases hop
  have hoperand : p ∈ Primitive.arithmetic := by cases p <;> first | decide | cases hp
  refine List.mem_append_left _ (List.mem_flatMap.mpr ⟨p, hoperand, ?_⟩)
  exact List.mem_map.mpr ⟨.binary op, hkind, rfl⟩

theorem Builtin.nodup_all : Builtin.all.Nodup := by decide +kernel

theorem Builtin.Kind.eq_binary {kind : Builtin.Kind} {op : BinaryOp} (h : kind.symbol = op.symbol)
    (ha : kind.arity = 2) : kind = .binary op := by
  cases kind with
  | binary op' => cases op' <;> cases op <;> first | rfl | exact absurd h (by decide)
  | unary op' => cases ha

/-- Operators of one symbol differ in the number of their operands. -/
theorem Builtin.Kind.eq_of_symbol {kind kind' : Builtin.Kind} (h : kind.symbol = kind'.symbol)
    (ha : kind.arity = kind'.arity) : kind = kind' := by
  cases kind' with
  | binary op => exact eq_binary h ha
  | unary op =>
    cases kind with
    | binary op' => cases ha
    | unary op' => cases op' <;> cases op <;> first | rfl | exact absurd h (by decide)

theorem Builtin.Kind.arity_pos (kind : Builtin.Kind) : 0 < kind.arity := by
  cases kind <;> exact Nat.zero_lt_succ _

theorem Session.HasBuiltin.func? {s : Session} {id : DeclId} {op : Builtin}
    {signature parameters : TypeId} (h : s.HasBuiltin id op signature parameters) :
    s.types.func? signature = some (parameters, op.result.typeId) := by
  have hnamed : (s.types.kind signature).isNamed = false := by rw [h.func]; rfl
  rw [TypeTable.func?, (TypeTable.strip_of_not_named hnamed).1, h.func]

namespace Typing

open Pass

variable {s : Session} {scope : ScopeId} {args a b signature parameters : TypeId} {id : DeclId}
  {op : BinaryOp} {p : Primitive}

/-- What is resolved is one of the candidates. -/
theorem mem_of_choose {candidates : List Candidate}
    (h : choose candidates = .resolved id signature) :
    ∃ cost, ⟨id, signature, cost⟩ ∈ candidates := by
  have hfits := fits_choose candidates
  rw [h] at hfits
  obtain ⟨amount, -, hfilter⟩ := hfits
  have hmem : ⟨id, signature, .valid amount⟩ ∈ candidates.filter (·.cost = .valid amount) := by
    rw [hfilter]
    exact List.mem_singleton_self _
  exact ⟨_, List.mem_of_mem_filter hmem⟩

/-- One candidate is cheaper than all others. -/
theorem choose_map_eq_resolved {found : List DeclId} {make : DeclId → Candidate} {amount : Nat}
    (hn : found.Nodup) (hid : id ∈ found)
    (hleast : ∀ other ∈ found, ∀ k, (make other).cost = .valid k → amount ≤ k)
    (honly : ∀ other ∈ found, (make other).cost = .valid amount ↔ other = id) :
    choose (found.map make) = .resolved (make id).decl (make id).signature := by
  have hcost : (make id).cost = .valid amount := (honly id hid).mpr rfl
  have hfilter : (found.map make).filter (·.cost = .valid amount) = [make id] := by
    have hcongr : found.filter ((decide <| Candidate.cost · = .valid amount) ∘ make) =
        found.filter (· = id) :=
      List.filter_congr fun other hother => by simpa using honly other hother
    rw [List.filter_map, hcongr, List.filter_eq, List.count_eq_one_of_mem hn hid]
    rfl
  have hcheapest : Cheapest (found.map make) amount := by
    refine ⟨⟨make id, List.mem_map_of_mem hid, hcost⟩, fun c hc k hk => ?_⟩
    obtain ⟨other, hother, rfl⟩ := List.mem_map.mp hc
    exact hleast other hother k hk
  rw [hcheapest.choose_eq, hfilter]

/-- The candidate that a declaration with a function type makes. -/
def candidateOf (s : Session) (args : TypeId) (id : DeclId) : Candidate :=
  let signature := (s.decl id).type.getD .error
  ⟨id, signature, s.types.compare args (((s.types.func? signature).map (·.1)).getD .error)⟩

theorem candidateOf_builtin {op : Builtin} (h : s.HasBuiltin id op signature parameters) :
    candidateOf s args id = ⟨id, signature, s.types.compare args parameters⟩ := by
  simp only [candidateOf, h.type, Option.getD_some, h.func?, Option.map_some]

theorem triple_candidate? {op : Builtin} (h : s.HasBuiltin id op signature parameters)
    {Q : Option Candidate → Session → Prop} {E : Fault → Session → Prop} :
    Triple (candidate? args id) s Q E ↔ Q (some (candidateOf s args id)) s := by
  rw [candidateOf_builtin h]
  simp only [candidate?, callableSignature?, triple_bind, triple_declOf, h.kind, h.type,
    triple_types, triple_pure, h.func?, Option.map_some]

/-- An operator is resolved among its built-ins, and nothing is changed by it. -/
theorem exists_resolution (hb : s.Builtins) (hscope : s.scopes.Has scope) (name : String)
    (hname : IsOperator name) (args : TypeId) :
    ∃ found : List DeclId, found.Nodup ∧
      (∀ id, id ∈ found ↔ ∃ op, Builtin.all[id.index]? = some op ∧ op.kind.symbol = name) ∧
      ∀ {Q : Resolution → Session → Prop} {E : Fault → Session → Prop},
        Triple (resolveOverload scope name args) s Q E ↔
          Q (choose (found.map (candidateOf s args))) s := by
  obtain ⟨found, hfound, hnodup, hmem⟩ := hb.exists_findVars hscope hname
  refine ⟨found, hnodup, hmem, fun {Q E} => ?_⟩
  have hcandidates : ∀ id ∈ found, ∀ Q : Option Candidate → Session → Prop,
      Triple (candidate? args id) s Q E ↔ Q (some (candidateOf s args id)) s := by
    intro id hid Q
    obtain ⟨op, hop, -⟩ := (hmem id).mp hid
    obtain ⟨signature, parameters, hbuiltin⟩ := hb.builtin id.index op hop
    exact triple_candidate? hbuiltin
  unfold resolveOverload
  simp only [triple_bind, triple_lookUp, hfound, triple_mapM_reads found hcandidates, triple_pure]
  have hall : (found.map fun id => some (candidateOf s args id)).filterMap id =
      found.map (candidateOf s args) := by
    simp [List.filterMap_map]
  rw [hall]

/-- A built-in that is cheaper than all others of its name is meant. -/
theorem resolves_cheapest {b : Builtin} (amount : Nat) (hb : s.Builtins)
    (hscope : s.scopes.Has scope) (hmem : b ∈ Builtin.all) (hname : IsOperator b.kind.symbol)
    (hleast : ∀ id b' signature parameters, s.HasBuiltin id b' signature parameters →
      b'.kind.symbol = b.kind.symbol → (∀ k, s.types.compare args parameters = .valid k →
        amount ≤ k) ∧ (s.types.compare args parameters = .valid amount ↔ b' = b)) :
    ∃ id signature parameters, s.HasBuiltin id b signature parameters ∧
      ∀ {Q : Resolution → Session → Prop} {E : Fault → Session → Prop},
        Triple (resolveOverload scope b.kind.symbol args) s Q E ↔ Q (.resolved id signature) s := by
  obtain ⟨found, hnodup, hfound, hresolve⟩ := exists_resolution hb hscope b.kind.symbol hname args
  obtain ⟨i, hi⟩ := List.mem_iff_getElem?.mp hmem
  obtain ⟨signature, parameters, hbuiltin⟩ := hb.builtin i _ hi
  have hcandidate : ∀ other ∈ found,
      (∀ k, (candidateOf s args other).cost = .valid k → amount ≤ k) ∧
      ((candidateOf s args other).cost = .valid amount ↔ other = ⟨i⟩) := by
    intro other hother
    obtain ⟨b', hb', hsymbol⟩ := (hfound other).mp hother
    obtain ⟨signature', parameters', hbuiltin'⟩ := hb.builtin other.index b' hb'
    obtain ⟨hcost, honly⟩ := hleast _ b' signature' parameters' hbuiltin' hsymbol
    rw [candidateOf_builtin hbuiltin']
    refine ⟨hcost, honly.trans ⟨?_, ?_⟩⟩
    · rintro rfl
      have hindex : other.index = i :=
        (List.getElem?_inj (List.getElem?_eq_some_iff.mp hb').1 Builtin.nodup_all).mp
          (hb'.trans hi.symm)
      rw [← hindex]
    · rintro rfl
      exact Option.some.inj (hb'.symm.trans hi)
  have hself : (⟨i⟩ : DeclId) ∈ found := (hfound ⟨i⟩).mpr ⟨_, hi, rfl⟩
  have hchoose := choose_map_eq_resolved hnodup hself (fun other h => (hcandidate other h).1)
    fun other h => (hcandidate other h).2
  refine ⟨⟨i⟩, signature, parameters, hbuiltin, fun {Q E} => ?_⟩
  rw [hresolve, hchoose, candidateOf_builtin hbuiltin]

/-- Of two operands with the same arithmetic type under their names, that type decides. -/
theorem resolves_operands (hb : s.Builtins) (ht : s.types.Built) (hscope : s.scopes.Has scope)
    (hop : op.promotesOperands = true) (hp : p.isArithmetic = true)
    (hargs : s.types.kind args = .tuple [⟨none, a⟩, ⟨none, b⟩])
    (ha : s.types.underlying? a = some p) (hb' : s.types.underlying? b = some p)
    (hlayers : s.types.nameCount a + s.types.nameCount b < Cost.greatest) :
    ∃ id signature parameters, s.HasBuiltin id ⟨.binary op, p⟩ signature parameters ∧
      ∀ {Q : Resolution → Session → Prop} {E : Fault → Session → Prop},
        Triple (resolveOverload scope op.symbol args) s Q E ↔ Q (.resolved id signature) s := by
  refine resolves_cheapest (s.types.nameCount a + s.types.nameCount b) hb hscope
    (Builtin.mem_all hop hp) (isOperator_binary op)
    fun id b' signature parameters hbuiltin hsymbol => ?_
  obtain ⟨hleast, honly⟩ := ht.least_operands hargs hbuiltin.parameters ha hb' hlayers
  refine ⟨hleast, honly.trans ⟨?_, ?_⟩⟩
  · rintro ⟨harity, hoperand⟩
    rw [← hoperand, ← Builtin.Kind.eq_binary hsymbol harity]
  · rintro rfl
    exact ⟨rfl, rfl⟩

/-- With too many names on the operands, nothing decides. -/
theorem resolves_ambiguous (hb : s.Builtins) (ht : s.types.Built) (hscope : s.scopes.Has scope)
    (hop : op.promotesOperands = true) (hp : p.isArithmetic = true)
    (hargs : s.types.kind args = .tuple [⟨none, a⟩, ⟨none, b⟩])
    (ha : s.types.underlying? a = some p) (hb' : s.types.underlying? b = some p)
    (hmany : Cost.greatest ≤ s.types.nameCount a + s.types.nameCount b) :
    ∃ id signature tied, (∃ b' parameters, s.HasBuiltin id b' signature parameters) ∧
      ∀ {Q : Resolution → Session → Prop} {E : Fault → Session → Prop},
        Triple (resolveOverload scope op.symbol args) s Q E ↔
          Q (.ambiguous id signature tied) s := by
  obtain ⟨found, -, hfound, hresolve⟩ :=
    exists_resolution hb hscope op.symbol (isOperator_binary op) args
  let candidates := found.map (candidateOf s args)
  have hbuiltin : ∀ c ∈ candidates, ∃ b' parameters, s.HasBuiltin c.decl b' c.signature parameters ∧
      c.cost = s.types.compare args parameters := by
    intro c hc
    obtain ⟨id, hid, rfl⟩ := List.mem_map.mp hc
    obtain ⟨b', hb₁, -⟩ := (hfound id).mp hid
    obtain ⟨signature, parameters, hbuiltin⟩ := hb.builtin id.index b' hb₁
    rw [candidateOf_builtin hbuiltin]
    exact ⟨b', parameters, hbuiltin, rfl⟩
  -- the built-in at `p` and another one are both to be had, at the greatest price
  have hoffer : ∀ q : Primitive, q.isArithmetic = true → (Cost.primitive p q).isValid = true →
      ∃ c ∈ candidates, Builtin.all[c.decl.index]? = some ⟨.binary op, q⟩ ∧
        c.cost = .valid Cost.greatest := by
    intro q hq hvalid
    obtain ⟨i, hi⟩ := List.mem_iff_getElem?.mp (Builtin.mem_all hop hq)
    obtain ⟨signature, parameters, hat⟩ := hb.builtin i _ hi
    refine ⟨_, List.mem_map_of_mem ((hfound ⟨i⟩).mpr ⟨_, hi, rfl⟩), ?_⟩
    rw [candidateOf_builtin hat]
    exact ⟨hi, (ht.compare_many hargs hat.parameters ha hb' hmany).trans (if_pos ⟨rfl, hvalid⟩)⟩
  obtain ⟨q, hq, hne, hvalid⟩ := Cost.exists_primitive_ne hp
  obtain ⟨c, hc, hdecl, hcost⟩ := hoffer p hp (by rw [Cost.primitive_self]; rfl)
  obtain ⟨c', hc', hdecl', hcost'⟩ := hoffer q hq hvalid
  have hcheapest : Cheapest candidates Cost.greatest := by
    refine ⟨⟨c, hc, hcost⟩, fun d hd k hk => ?_⟩
    obtain ⟨b', parameters, hat, hprice⟩ := hbuiltin d hd
    rw [hprice, ht.compare_many hargs hat.parameters ha hb' hmany] at hk
    split at hk
    · exact Nat.le_of_eq (Cost.valid.inj hk)
    · cases hk
  have hother : c ≠ c' := by
    rintro rfl
    exact hne (Builtin.mk.inj (Option.some.inj (hdecl'.symm.trans hdecl))).2
  obtain ⟨first, hfirst, tied, hchoose⟩ :=
    hcheapest.exists_choose_eq_ambiguous hc hc' hcost hcost' hother
  obtain ⟨b', parameters, hat, -⟩ := hbuiltin first hfirst
  refine ⟨first.decl, first.signature, tied, ⟨b', parameters, hat⟩, fun {Q E} => ?_⟩
  rw [hresolve, hchoose]

/-- The arguments that a built-in asks for decide. -/
theorem resolves_exact {b : Builtin} (hb : s.Builtins) (ht : s.types.Built)
    (hscope : s.scopes.Has scope) (hmem : b ∈ Builtin.all) (hname : IsOperator b.kind.symbol)
    (hargs : s.types.kind args = .tuple (.replicate b.kind.arity ⟨none, b.operand.typeId⟩)) :
    ∃ id signature parameters, s.HasBuiltin id b signature parameters ∧
      ∀ {Q : Resolution → Session → Prop} {E : Fault → Session → Prop},
        Triple (resolveOverload scope b.kind.symbol args) s Q E ↔ Q (.resolved id signature) s := by
  refine resolves_cheapest 0 hb hscope hmem hname fun id b' signature parameters hbuiltin hsymbol =>
    ⟨fun _ _ => Nat.zero_le _, fun hcost => ?_, ?_⟩
  · obtain ⟨harity, hoperand⟩ :=
      ht.eq_of_compare_zero hargs hbuiltin.parameters b.kind.arity_pos hcost
    obtain ⟨kind, operand⟩ := b
    obtain ⟨kind', operand'⟩ := b'
    obtain rfl : kind = kind' := Builtin.Kind.eq_of_symbol hsymbol.symm harity
    obtain rfl : operand = operand' := hoperand
    rfl
  · rintro rfl
    have hself : args = parameters := ht.settled.canonical.shared args parameters
      (TypeTable.has_of_kind_ne_error (by simp [hargs]))
      (TypeTable.has_of_kind_ne_error (by simp [hbuiltin.parameters])) (by rw [hargs]; rfl)
      (hargs.trans hbuiltin.parameters.symm)
    rw [hself]
    exact s.types.compare_self parameters

/-- What an operator is resolved to takes operands of one type. -/
theorem resolves_builtin (hb : s.Builtins) (hscope : s.scopes.Has scope) (op : BinaryOp)
    (args : TypeId) :
    ∃ resolution, (∀ {Q : Resolution → Session → Prop} {E : Fault → Session → Prop},
        Triple (resolveOverload scope op.symbol args) s Q E ↔ Q resolution s) ∧
      ∀ id signature, resolution = .resolved id signature →
        ∃ op parameters, s.HasBuiltin id op signature parameters := by
  obtain ⟨found, -, hmem, hresolve⟩ :=
    exists_resolution hb hscope op.symbol (isOperator_binary op) args
  refine ⟨_, hresolve, fun id signature h => ?_⟩
  obtain ⟨cost, hcost⟩ := mem_of_choose h
  obtain ⟨other, hother, heq⟩ := List.mem_map.mp hcost
  obtain ⟨op', hop', -⟩ := (hmem other).mp hother
  obtain ⟨signature', parameters, hbuiltin⟩ := hb.builtin other.index op' hop'
  rw [candidateOf_builtin hbuiltin, Candidate.mk.injEq] at heq
  obtain ⟨rfl, rfl, -⟩ := heq
  exact ⟨op', parameters, hbuiltin⟩

end Typing
end BlockLang
