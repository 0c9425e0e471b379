import BlockLang.Proofs.Types.Compare

/-!
# Types with errors in them

Where a part of a type is replaced by the error type, nothing that it converts to or from
becomes dearer (`Canonical.compare_mono`): a part that is wrong already raises no further
objections.
-/

namespace BlockLang
namespace TypeTable

variable {t : TypeTable}

/-- `a'` is `a` with the error type in the place of some of its parts, or of all of it. -/
inductive Spoiled (t : TypeTable) : TypeId → TypeId → Prop
  | same (a : TypeId) : Spoiled t a a
  | error (ha' : t.kind a' = .error) : Spoiled t a' a
  | list (ha' : t.kind a' = .list x' n) (ha : t.kind a = .list x n) (hx : Spoiled t x' x) :
    Spoiled t a' a
  | tuple (ha' : t.kind a' = .tuple xs') (ha : t.kind a = .tuple xs)
    (hnames : xs'.map (·.name) = xs.map (·.name))
    (htypes : ∀ p ∈ xs'.zip xs, Spoiled t p.1.type p.2.type) : Spoiled t a' a
  | reference (ha' : t.kind a' = .reference x') (ha : t.kind a = .reference x)
    (hx : Spoiled t x' x) : Spoiled t a' a
  /-- The arguments of an instance count where the body has them. -/
  | named (ha' : t.kind a' = .named name args' x') (ha : t.kind a = .named name args x)
    (hx : Spoiled t x' x) : Spoiled t a' a
  | func (ha' : t.kind a' = .func x' r') (ha : t.kind a = .func x r) (hx : Spoiled t x' x)
    (hr : Spoiled t r' r) : Spoiled t a' a

namespace Spoiled

variable {a a' b b' c : TypeId}

theorem of_leaf (h : t.Spoiled a' a) (he : t.kind a' ≠ .error) (hk : (t.kind a).parts = [])
    (ht : ∀ fields, t.kind a ≠ .tuple fields) : a' = a := by
  cases h with
  | same => rfl
  | error ha' => exact absurd ha' he
  | tuple _ ha => exact absurd ha (ht _)
  | _ => simp_all [TypeKind.parts]

theorem of_list (h : t.Spoiled a' a) (he : t.kind a' ≠ .error) (hk : t.kind a = .list x n) :
    ∃ x', t.kind a' = .list x' n ∧ t.Spoiled x' x := by
  cases h with
  | same => exact ⟨x, hk, .same x⟩
  | error ha' => exact absurd ha' he
  | list ha' ha hx =>
    obtain ⟨rfl, rfl⟩ := TypeKind.list.inj (ha.symm.trans hk)
    exact ⟨_, ha', hx⟩
  | _ => simp_all

theorem of_tuple (h : t.Spoiled a' a) (he : t.kind a' ≠ .error) (hk : t.kind a = .tuple xs) :
    ∃ xs', t.kind a' = .tuple xs' ∧ xs'.map (·.name) = xs.map (·.name) ∧
      ∀ p ∈ xs'.zip xs, t.Spoiled p.1.type p.2.type := by
  cases h with
  | same =>
    refine ⟨xs, hk, rfl, fun p hp => ?_⟩
    obtain ⟨i, hi, rfl⟩ := List.mem_iff_getElem.mp hp
    simpa using Spoiled.same _
  | error ha' => exact absurd ha' he
  | tuple ha' ha hnames htypes =>
    obtain rfl := TypeKind.tuple.inj (ha.symm.trans hk)
    exact ⟨_, ha', hnames, htypes⟩
  | _ => simp_all

theorem of_reference (h : t.Spoiled a' a) (he : t.kind a' ≠ .error)
    (hk : t.kind a = .reference x) : ∃ x', t.kind a' = .reference x' ∧ t.Spoiled x' x := by
  cases h with
  | same => exact ⟨x, hk, .same x⟩
  | error ha' => exact absurd ha' he
  | reference ha' ha hx =>
    obtain rfl := TypeKind.reference.inj (ha.symm.trans hk)
    exact ⟨_, ha', hx⟩
  | _ => simp_all

theorem of_named (h : t.Spoiled a' a) (he : t.kind a' ≠ .error)
    (hk : t.kind a = .named name args x) :
    ∃ args' x', t.kind a' = .named name args' x' ∧ t.Spoiled x' x := by
  cases h with
  | same => exact ⟨args, x, hk, .same x⟩
  | error ha' => exact absurd ha' he
  | named ha' ha hx =>
    obtain ⟨rfl, rfl, rfl⟩ := TypeKind.named.inj (ha.symm.trans hk)
    exact ⟨_, _, ha', hx⟩
  | _ => simp_all

theorem of_func (h : t.Spoiled a' a) (he : t.kind a' ≠ .error) (hk : t.kind a = .func x r) :
    ∃ x' r', t.kind a' = .func x' r' ∧ t.Spoiled x' x ∧ t.Spoiled r' r := by
  cases h with
  | same => exact ⟨x, r, hk, .same x, .same r⟩
  | error ha' => exact absurd ha' he
  | func ha' ha hx hr =>
    obtain ⟨rfl, rfl⟩ := TypeKind.func.inj (ha.symm.trans hk)
    exact ⟨_, _, ha', hx, hr⟩
  | _ => simp_all

/-- The error type has nothing that could be replaced. -/
theorem of_error (h : t.Spoiled a' a) (hk : t.kind a = .error) : t.kind a' = .error := by
  cases h with
  | same => exact hk
  | error ha' => exact ha'
  | _ => simp_all

/-- What is not replaced as a whole is looked at in the same way. -/
theorem form (h : t.Spoiled a' a) (he : t.kind a' ≠ .error) :
    (t.kind a').isNamed = (t.kind a).isNamed ∧ (t.kind a').isPlain = (t.kind a).isPlain ∧
      (t.kind a').isParam = (t.kind a).isParam := by
  cases h with
  | same => exact ⟨rfl, rfl, rfl⟩
  | error ha' => exact absurd ha' he
  | _ ha' ha => simp [ha', ha, TypeKind.isNamed, TypeKind.isPlain, TypeKind.isParam]

end Spoiled

section
variable {a a' b b' c : TypeId} {xs xs' ys ys' : List TypeField}

theorem clashes_congr {f f' g g' : TypeField} (hf : f'.name = f.name) (hg : g'.name = g.name) :
    f'.clashes g' = f.clashes g := by
  simp only [TypeField.clashes, hf, hg]

/-- Places that cost no more make a tuple that costs no more. -/
theorem fieldsCost_mono {cost : TypeId → TypeId → Cost} {xs xs' ys ys' : List TypeField}
    (hxs : xs'.map (·.name) = xs.map (·.name)) (hys : ys'.map (·.name) = ys.map (·.name))
    (h : ∀ p ∈ (xs'.zip xs).zip (ys'.zip ys),
      (cost p.1.1.type p.2.1.type).le (cost p.1.2.type p.2.2.type) = true) :
    (fieldsCost cost xs' ys').le (fieldsCost cost xs ys) = true := by
  induction xs generalizing xs' ys ys' with
  | nil =>
    obtain rfl : xs' = [] := by simpa using hxs
    cases ys with
    | nil =>
      obtain rfl : ys' = [] := by simpa using hys
      rfl
    | cons y ys => exact Cost.le_invalid _
  | cons x xs ih =>
    obtain ⟨x', xs', rfl⟩ : ∃ z zs, xs' = z :: zs := by
      cases xs' with
      | nil => cases hxs
      | cons z zs => exact ⟨z, zs, rfl⟩
    cases ys with
    | nil => exact Cost.le_invalid _
    | cons y ys =>
      obtain ⟨y', ys', rfl⟩ : ∃ z zs, ys' = z :: zs := by
        cases ys' with
        | nil => cases hys
        | cons z zs => exact ⟨z, zs, rfl⟩
      simp only [List.map_cons, List.cons.injEq] at hxs hys
      have hclash : x'.clashes y' = x.clashes y := clashes_congr hxs.1 hys.1
      have hfirst := h ((x', x), (y', y)) (by simp)
      have hrest := ih hxs.2 hys.2 fun p hp => h p (List.mem_cons_of_mem _ hp)
      rw [fieldsCost_cons, fieldsCost_cons, hclash]
      split
      · exact Cost.le_refl _
      · exact Cost.add_mono hfirst hrest

theorem snd_eq_of_mem_zip {p : (TypeField × TypeField) × TypeField × TypeField}
    (hp : p ∈ (xs'.zip xs).zip (ys'.zip xs)) : p.1.2 = p.2.2 := by
  obtain ⟨i, hi, rfl⟩ := List.mem_iff_getElem.mp hp
  simp only [List.getElem_zip]

/-- Types that have been spoiled each in its own way still convert to one another for nothing. -/
theorem Canonical.compare_spoiled_same (h : t.Canonical) {a' b' c : TypeId} (ha : t.Spoiled a' c)
    (hb : t.Spoiled b' c) : t.compare a' b' = .zero := by
  by_cases hea : t.kind a' = .error
  · exact h.compare_error (.inl hea)
  by_cases heb : t.kind b' = .error
  · exact h.compare_error (.inr heb)
  have hsmaller : ∀ x ∈ (t.kind c).parts, x.index < c.index := h.ordered c
  cases hk : t.kind c with
  | error => exact absurd (ha.of_error hk) hea
  | primitive p =>
    rw [ha.of_leaf hea (by simp [hk, TypeKind.parts]) (by simp [hk]),
      hb.of_leaf heb (by simp [hk, TypeKind.parts]) (by simp [hk]), compare_self]
  | param name =>
    rw [ha.of_leaf hea (by simp [hk, TypeKind.parts]) (by simp [hk]),
      hb.of_leaf heb (by simp [hk, TypeKind.parts]) (by simp [hk]), compare_self]
  | list x n =>
    obtain ⟨x', hka, hx⟩ := ha.of_list hea hk
    obtain ⟨y', hkb, hy⟩ := hb.of_list heb hk
    have := hsmaller x (by simp [hk, TypeKind.parts])
    rw [h.compare_list hka hkb, compare_spoiled_same h hx hy, lengthCost_self, Cost.zero_add_zero]
  | tuple xs =>
    obtain ⟨xs', hka, hxs, hx⟩ := ha.of_tuple hea hk
    obtain ⟨ys', hkb, hys, hy⟩ := hb.of_tuple heb hk
    have hlength : xs'.length = ys'.length := by
      simpa using congrArg List.length (hxs.trans hys.symm)
    rw [h.compare_tuple hka hkb, if_pos hlength]
    refine Cost.eq_zero_of_le (t.fieldsCost_self xs ▸ fieldsCost_mono hxs hys fun p hp => ?_)
    obtain ⟨hpx, hpy⟩ := List.of_mem_zip hp
    have hsame := snd_eq_of_mem_zip hp
    have := hsmaller p.1.2.type (by rw [hk]; exact List.mem_map_of_mem (List.of_mem_zip hpx).2)
    rw [compare_spoiled_same h (hx _ hpx) (hsame ▸ hy _ hpy)]
    exact Cost.zero_le _
  | reference x =>
    obtain ⟨x', hka, hx⟩ := ha.of_reference hea hk
    obtain ⟨y', hkb, hy⟩ := hb.of_reference heb hk
    have := hsmaller x (by simp [hk, TypeKind.parts])
    rw [h.compare_reference hka hkb, compare_spoiled_same h hx hy, if_pos rfl]
  | named name args x =>
    obtain ⟨_, x', hka, hx⟩ := ha.of_named hea hk
    obtain ⟨_, y', hkb, hy⟩ := hb.of_named heb hk
    have := hsmaller x (by simp [hk, TypeKind.parts])
    rw [h.compare_named hka hkb, compare_spoiled_same h hx hy]
  | func x r =>
    obtain ⟨x', r', hka, hx, hr⟩ := ha.of_func hea hk
    obtain ⟨y', s', hkb, hy, hs⟩ := hb.of_func heb hk
    have := hsmaller x (by simp [hk, TypeKind.parts])
    have := hsmaller r (by simp [hk, TypeKind.parts])
    rw [h.compare_func hka hkb, compare_spoiled_same h hx hy, compare_spoiled_same h hr hs,
      Cost.zero_add_zero]
termination_by c.index

/-- Spoiling both sides of a conversion makes it no harder. -/
theorem Canonical.compare_mono (h : t.Canonical) {a a' b b' : TypeId} (ha : t.Spoiled a' a)
    (hb : t.Spoiled b' b) : (t.compare a' b').le (t.compare a b) = true := by
  by_cases hea : t.kind a' = .error
  · rw [h.compare_error (.inl hea)]
    exact Cost.zero_le _
  by_cases heb : t.kind b' = .error
  · rw [h.compare_error (.inr heb)]
    exact Cost.zero_le _
  have ih : ∀ {x x' y y' : TypeId}, x.index + y.index < a.index + b.index → t.Spoiled x' x →
      t.Spoiled y' y → (t.compare x' y').le (t.compare x y) = true :=
    fun _ hx hy => compare_mono h hx hy
  have hleft : ∀ x ∈ (t.kind a).parts, x.index + b.index < a.index + b.index :=
    fun x hx => Nat.add_lt_add_right (h.ordered a x hx) _
  have hright : ∀ y ∈ (t.kind b).parts, a.index + y.index < a.index + b.index :=
    fun y hy => Nat.add_lt_add_left (h.ordered b y hy) _
  have hboth : ∀ x ∈ (t.kind a).parts, ∀ y ∈ (t.kind b).parts,
      x.index + y.index < a.index + b.index :=
    fun x hx y hy => Nat.add_lt_add (h.ordered a x hx) (h.ordered b y hy)
  obtain ⟨hnamed, hplain, hparam⟩ := ha.form hea
  obtain ⟨hnamed', hplain', hparam'⟩ := hb.form heb
  generalize hcost : t.compare a b = cost
  have hpriced := hcost ▸ h.priced a b
  cases hpriced with
  | same hab =>
    subst hab
    rw [h.compare_spoiled_same ha hb]
    exact Cost.zero_le _
  | error he =>
    rcases he with he | he
    · exact absurd (ha.of_error he) hea
    · exact absurd (hb.of_error he) heb
  | named hka hkb =>
    obtain ⟨_, x', hka', hx⟩ := ha.of_named hea hka
    obtain ⟨_, y', hkb', hy⟩ := hb.of_named heb hkb
    rw [h.compare_named hka' hkb']
    exact ih (hboth _ (by simp [hka, TypeKind.parts]) _ (by simp [hkb, TypeKind.parts])) hx hy
  | namedLeft hka hkb =>
    obtain ⟨_, x', hka', hx⟩ := ha.of_named hea hka
    rw [h.compare_named_left hka' (hnamed'.trans hkb) heb]
    exact Cost.add_mono (ih (hleft _ (by simp [hka, TypeKind.parts])) hx hb) (Cost.le_refl _)
  | namedRight hka hkb =>
    obtain ⟨_, y', hkb', hy⟩ := hb.of_named heb hkb
    rw [h.compare_named_right (hnamed.trans hka) hea hkb']
    exact Cost.add_mono (ih (hright _ (by simp [hkb, TypeKind.parts])) ha hy) (Cost.le_refl _)
  | param hp hka hkb =>
    rw [← hparam, ← hparam'] at hp
    exact h.compare_param_le hp (hnamed.trans hka) (hnamed'.trans hkb)
  | tuple hka hkb hlength =>
    obtain ⟨xs', hka', hxs, hx⟩ := ha.of_tuple hea hka
    obtain ⟨ys', hkb', hys, hy⟩ := hb.of_tuple heb hkb
    have hlength' : xs'.length = ys'.length := by
      have hx' := congrArg List.length hxs
      have hy' := congrArg List.length hys
      simp only [List.length_map] at hx' hy'
      omega
    rw [h.compare_tuple hka' hkb', if_pos hlength']
    refine fieldsCost_mono hxs hys fun p hp => ?_
    obtain ⟨hpx, hpy⟩ := List.of_mem_zip hp
    refine ih (hboth _ ?_ _ ?_) (hx _ hpx) (hy _ hpy)
    · rw [hka]
      exact List.mem_map_of_mem (List.of_mem_zip hpx).2
    · rw [hkb]
      exact List.mem_map_of_mem (List.of_mem_zip hpy).2
  | singleLeft hka hkb =>
    obtain ⟨xs', hka', hxs, hx⟩ := ha.of_tuple hea hka
    obtain ⟨f', rfl⟩ := List.length_eq_one_iff.mp (by simpa using congrArg List.length hxs)
    rw [h.compare_single_left hka' (hplain'.trans hkb)]
    exact ih (hleft _ (by simp [hka, TypeKind.parts])) (hx (_, _) (by simp)) hb
  | singleRight hka hkb =>
    obtain ⟨ys', hkb', hys, hy⟩ := hb.of_tuple heb hkb
    obtain ⟨g', rfl⟩ := List.length_eq_one_iff.mp (by simpa using congrArg List.length hys)
    rw [h.compare_single_right (hplain.trans hka) hkb']
    exact ih (hright _ (by simp [hkb, TypeKind.parts])) ha (hy (_, _) (by simp))
  | primitive hka hkb =>
    obtain rfl := ha.of_leaf hea (by simp [hka, TypeKind.parts]) (by simp [hka])
    obtain rfl := hb.of_leaf heb (by simp [hkb, TypeKind.parts]) (by simp [hkb])
    rw [hcost]
    exact Cost.le_refl _
  | list hka hkb =>
    obtain ⟨x', hka', hx⟩ := ha.of_list hea hka
    obtain ⟨y', hkb', hy⟩ := hb.of_list heb hkb
    rw [h.compare_list hka' hkb']
    exact Cost.add_mono (Cost.le_refl _)
      (ih (hboth _ (by simp [hka, TypeKind.parts]) _ (by simp [hkb, TypeKind.parts])) hx hy)
  | reference hka hkb hzero =>
    obtain ⟨x', hka', hx⟩ := ha.of_reference hea hka
    obtain ⟨y', hkb', hy⟩ := hb.of_reference heb hkb
    have hle := ih (hboth _ (by simp [hka, TypeKind.parts]) _ (by simp [hkb, TypeKind.parts])) hx hy
    rw [hzero] at hle
    rw [h.compare_reference hka' hkb', Cost.eq_zero_of_le hle, if_pos rfl]
    exact Cost.le_refl _
  | func hka hkb =>
    obtain ⟨x', r', hka', hx, hr⟩ := ha.of_func hea hka
    obtain ⟨y', s', hkb', hy, hs⟩ := hb.of_func heb hkb
    rw [h.compare_func hka' hkb']
    exact Cost.add_mono
      (ih (hboth _ (by simp [hka, TypeKind.parts]) _ (by simp [hkb, TypeKind.parts])) hx hy)
      (ih (hboth _ (by simp [hka, TypeKind.parts]) _ (by simp [hkb, TypeKind.parts])) hr hs)
  | invalid => exact Cost.le_invalid _
termination_by a.index + b.index
/-- Errors in a type make it no harder to use where another is wanted, and no harder to be
wanted. -/
theorem Built.compare_spoiled (h : t.Built) (ha : t.Spoiled a' a) (b : TypeId) :
    (t.compare a' b).le (t.compare a b) = true ∧ (t.compare b a').le (t.compare b a) = true :=
  ⟨h.settled.canonical.compare_mono ha (.same b), h.settled.canonical.compare_mono (.same b) ha⟩

/-- A pair of which the first argument went wrong, next to the pair as it was meant, and two
truth values. -/
def wrongPairTable : TypeTable :=
  let (_, t) := pairTable.makeNamed ⟨12⟩ "Pair" [⟨10⟩, ⟨11⟩] [.error, Primitive.bool.typeId]
  (t.makePlainTuple [Primitive.bool.typeId, Primitive.bool.typeId]).2

theorem built_wrongPairTable : wrongPairTable.Built := by
  have hpair := built_pairTable.request
    (.named ⟨12⟩ "Pair" [⟨10⟩, ⟨11⟩] [.error, Primitive.bool.typeId]) (by decide)
  exact hpair.request (.plainTuple [Primitive.bool.typeId, Primitive.bool.typeId]) (by decide)

theorem spoiled_wrongPairTable : wrongPairTable.Spoiled ⟨16⟩ ⟨14⟩ := by
  have hwrong : wrongPairTable.kind ⟨15⟩ =
      .tuple [⟨some "first", .error⟩, ⟨some "second", Primitive.bool.typeId⟩] := by decide
  have hmeant : wrongPairTable.kind ⟨13⟩ =
      .tuple [⟨some "first", Primitive.int32.typeId⟩, ⟨some "second", Primitive.bool.typeId⟩] := by
    decide
  have hfields : wrongPairTable.Spoiled ⟨15⟩ ⟨13⟩ := by
    refine .tuple hwrong hmeant rfl ?_
    simp only [List.zip_cons_cons, List.zip_nil_right, List.forall_mem_cons, List.not_mem_nil,
      false_implies, implies_true, and_true]
    exact ⟨.error (by decide), .same _⟩
  have hinstance : wrongPairTable.kind ⟨16⟩ =
      .named "Pair" [.error, Primitive.bool.typeId] ⟨15⟩ := by decide
  have hpair : wrongPairTable.kind ⟨14⟩ =
      .named "Pair" [Primitive.int32.typeId, Primitive.bool.typeId] ⟨13⟩ := by decide
  exact .named hinstance hpair hfields

/-- Two truth values are no pair of a number and a truth value, and the wrong pair has nothing
against them. -/
theorem compare_spoiled_wrongPairTable :
    (wrongPairTable.Built ∧ wrongPairTable.Spoiled ⟨16⟩ ⟨14⟩) ∧
    ((wrongPairTable.compare ⟨16⟩ ⟨17⟩).le (wrongPairTable.compare ⟨14⟩ ⟨17⟩) = true ∧
      (wrongPairTable.compare ⟨17⟩ ⟨16⟩).le (wrongPairTable.compare ⟨17⟩ ⟨14⟩) = true) ∧
    wrongPairTable.compare ⟨16⟩ ⟨17⟩ = .valid 1 ∧ wrongPairTable.compare ⟨14⟩ ⟨17⟩ = .invalid :=
  ⟨⟨built_wrongPairTable, spoiled_wrongPairTable⟩,
    built_wrongPairTable.compare_spoiled spoiled_wrongPairTable ⟨17⟩, by decide, by decide⟩

end

end TypeTable
end BlockLang
