import BlockLang.Proofs.Types.Cost
import BlockLang.Proofs.Types.Table
import BlockLang.Proofs.Typing.Step

/-!
# The cheapest of several functions

Every declaration that a name can stand for is looked at in turn, nearest first, and makes a
candidate if it can be called (`Offers`). Which of the candidates is meant depends on what they
cost only, and between those that cost the same on which was found first
(`resolveOverload_fits`). A priority queue of the candidates leads to the same choice
(`choose_eq_chooseFirst`).
-/

namespace BlockLang

namespace Typing

open Pass

-- ---------------------------------------------------------------------------
-- Candidates
-- ---------------------------------------------------------------------------

/-- What the cheapest candidates cost. -/
def Cheapest (candidates : List Candidate) (amount : Nat) : Prop :=
  (∃ c ∈ candidates, c.cost = .valid amount) ∧
    ∀ c ∈ candidates, ∀ n, c.cost = .valid n → amount ≤ n

/-- What a call means, by the candidates in the order in which they were found. -/
def Resolution.Fits (candidates : List Candidate) : Resolution → Prop
  | .notDefined => candidates = []
  | .noMatch => candidates ≠ [] ∧ ∀ c ∈ candidates, c.cost = .invalid
  | .resolved decl signature => ∃ amount, Cheapest candidates amount ∧
    candidates.filter (·.cost = .valid amount) = [⟨decl, signature, .valid amount⟩]
  | .ambiguous decl signature tied => ∃ amount others, others ≠ [] ∧ Cheapest candidates amount ∧
    candidates.filter (·.cost = .valid amount) = ⟨decl, signature, .valid amount⟩ :: others ∧
    tied = decl :: others.map (·.decl)

section
variable {candidates candidates' : List Candidate} {amount : Nat} {r : Resolution}

/-- The least cost is that of a candidate, and none costs less. -/
theorem foldl_least (candidates : List Candidate) (least : Cost) :
    let result := candidates.foldl
      (fun least c => if least.le c.cost then least else c.cost) least
    (result = least ∨ ∃ c ∈ candidates, c.cost = result) ∧ result.le least = true ∧
      ∀ c ∈ candidates, result.le c.cost = true := by
  induction candidates generalizing least with
  | nil => exact ⟨.inl rfl, least.le_refl, nofun⟩
  | cons c cs ih =>
    rw [List.foldl_cons]
    cases hle : least.le c.cost with
    | true =>
      obtain ⟨hfrom, hleast, hcs⟩ := ih least
      refine ⟨hfrom.imp_right fun ⟨c', hc', he⟩ => ⟨c', List.mem_cons_of_mem _ hc', he⟩, hleast, ?_⟩
      exact List.forall_mem_cons.mpr ⟨Cost.le_trans hleast hle, hcs⟩
    | false =>
      obtain ⟨hfrom, hleast, hcs⟩ := ih c.cost
      refine ⟨.inr ?_, Cost.le_trans hleast (Cost.le_total hle),
        List.forall_mem_cons.mpr ⟨hleast, hcs⟩⟩
      rcases hfrom with he | ⟨c', hc', he⟩
      · exact ⟨c, List.mem_cons_self, he.symm⟩
      · exact ⟨c', List.mem_cons_of_mem _ hc', he⟩

theorem leastCost_eq_invalid :
    leastCost candidates = .invalid ↔ ∀ c ∈ candidates, c.cost = .invalid := by
  obtain ⟨hfrom, -, hle⟩ := foldl_least candidates .invalid
  constructor
  · intro h c hc
    have hc' := hle c hc
    rw [← leastCost, h] at hc'
    cases hcost : c.cost with
    | invalid => rfl
    | valid n => simp [hcost] at hc'
  · intro h
    rcases hfrom with he | ⟨c, hc, he⟩
    · exact he
    · exact he.symm.trans (h c hc)

theorem leastCost_eq_valid : leastCost candidates = .valid amount ↔ Cheapest candidates amount := by
  obtain ⟨hfrom, -, hle⟩ := foldl_least candidates .invalid
  constructor
  · intro h
    rw [← leastCost, h] at hfrom hle
    refine ⟨hfrom.resolve_left nofun, fun c hc n hn => ?_⟩
    simpa [hn] using hle c hc
  · rintro ⟨⟨c, hc, hcost⟩, hleast⟩
    cases hl : leastCost candidates with
    | invalid =>
      rw [leastCost_eq_invalid.mp hl c hc] at hcost
      cases hcost
    | valid n =>
      rw [← leastCost, hl] at hfrom hle
      obtain ⟨c', hc', hcost'⟩ := hfrom.resolve_left nofun
      have hn : n ≤ amount := by simpa [hcost] using hle c hc
      rw [Nat.le_antisymm hn (hleast c' hc' n hcost')]

theorem Cheapest.ne_nil (h : Cheapest candidates amount) : candidates ≠ [] := by
  obtain ⟨⟨c, hc, -⟩, -⟩ := h
  exact List.ne_nil_of_mem hc

theorem Cheapest.filter_ne_nil (h : Cheapest candidates amount) :
    candidates.filter (·.cost = .valid amount) ≠ [] := by
  obtain ⟨⟨c, hc, hcost⟩, -⟩ := h
  exact List.ne_nil_of_mem (List.mem_filter.mpr ⟨hc, by simpa using hcost⟩)

/-- A list of candidates has a cheapest one, or none of them takes the arguments. -/
theorem cheapest_or_invalid (candidates : List Candidate) :
    (∃ amount, Cheapest candidates amount) ∨ ∀ c ∈ candidates, c.cost = .invalid := by
  cases h : leastCost candidates with
  | invalid => exact .inr (leastCost_eq_invalid.mp h)
  | valid amount => exact .inl ⟨amount, leastCost_eq_valid.mp h⟩

/-- With a cheapest candidate, only those that cost as little are looked at. -/
theorem Cheapest.choose_eq (h : Cheapest candidates amount) :
    choose candidates = match candidates.filter (·.cost = .valid amount) with
      | [] => .noMatch
      | [only] => .resolved only.decl only.signature
      | first :: others =>
        .ambiguous first.decl first.signature ((first :: others).map (·.decl)) := by
  have hempty : candidates.isEmpty = false := by simpa using h.ne_nil
  rw [choose, hempty, leastCost_eq_valid.mpr h]
  rfl

/-- Where two candidates are the cheapest, the first of the cheapest stands for all of them. -/
theorem Cheapest.exists_choose_eq_ambiguous (h : Cheapest candidates amount)
    (hc : c ∈ candidates) (hc' : c' ∈ candidates) (hcost : c.cost = .valid amount)
    (hcost' : c'.cost = .valid amount) (hne : c ≠ c') :
    ∃ first ∈ candidates, ∃ tied,
      choose candidates = .ambiguous first.decl first.signature tied := by
  have hmem : c ∈ candidates.filter (·.cost = .valid amount) :=
    List.mem_filter.mpr ⟨hc, decide_eq_true hcost⟩
  have hmem' : c' ∈ candidates.filter (·.cost = .valid amount) :=
    List.mem_filter.mpr ⟨hc', decide_eq_true hcost'⟩
  have hchoose := h.choose_eq
  cases hfilter : candidates.filter (·.cost = .valid amount) with
  | nil => exact absurd hfilter h.filter_ne_nil
  | cons first others =>
    rw [hfilter] at hmem hmem' hchoose
    cases others with
    | nil =>
      exact absurd ((List.mem_singleton.mp hmem).trans (List.mem_singleton.mp hmem').symm) hne
    | cons second others =>
      have hfirst : first ∈ candidates := (List.mem_filter.mp (hfilter ▸ List.mem_cons_self)).1
      exact ⟨first, hfirst, _, hchoose⟩

/-- The choice fits. -/
theorem fits_choose (candidates : List Candidate) : (choose candidates).Fits candidates := by
  rcases cheapest_or_invalid candidates with ⟨amount, h⟩ | h
  · have hcost : ∀ c ∈ candidates.filter (·.cost = .valid amount), c.cost = .valid amount :=
      fun c hc => by simpa using (List.mem_filter.mp hc).2
    have hchoose := h.choose_eq
    cases hfilter : candidates.filter (·.cost = .valid amount) with
    | nil => exact absurd hfilter h.filter_ne_nil
    | cons first others =>
      rw [hfilter] at hchoose hcost
      have hfirst : first = ⟨first.decl, first.signature, .valid amount⟩ := by
        rw [← hcost first List.mem_cons_self]
      cases others with
      | nil =>
        rw [hchoose]
        exact ⟨amount, h, hfilter.trans (congrArg (· :: []) hfirst)⟩
      | cons other others =>
        rw [hchoose]
        exact ⟨amount, other :: others, List.cons_ne_nil _ _, h,
          hfilter.trans (congrArg (· :: other :: others) hfirst), rfl⟩
  · cases candidates with
    | nil => rfl
    | cons c cs =>
      rw [choose, List.isEmpty_cons, leastCost_eq_invalid.mpr h]
      exact ⟨List.cons_ne_nil _ _, h⟩

/-- Nothing else fits. -/
theorem eq_choose_of_fits (h : r.Fits candidates) : r = choose candidates := by
  cases r with
  | notDefined =>
    obtain rfl : candidates = [] := h
    rfl
  | noMatch =>
    obtain ⟨hne, hinvalid⟩ := h
    have hempty : candidates.isEmpty = false := by simpa using hne
    rw [choose, hempty, leastCost_eq_invalid.mpr hinvalid]
    rfl
  | resolved decl signature =>
    obtain ⟨amount, hcheapest, hfilter⟩ := h
    rw [hcheapest.choose_eq, hfilter]
  | ambiguous decl signature tied =>
    obtain ⟨amount, others, hothers, hcheapest, hfilter, rfl⟩ := h
    obtain ⟨other, others, rfl⟩ := List.exists_cons_of_ne_nil hothers
    rw [hcheapest.choose_eq, hfilter]
    rfl

theorem eq_choose_iff : r = choose candidates ↔ r.Fits candidates := by
  refine ⟨fun h => ?_, eq_choose_of_fits⟩
  rw [h]
  exact fits_choose candidates

/-- Of the order in which the candidates were found, only that of the cheapest ones counts. -/
theorem choose_perm (hp : candidates'.Perm candidates)
    (h : ∀ amount, Cheapest candidates amount → candidates'.filter (·.cost = .valid amount) =
      candidates.filter (·.cost = .valid amount)) : choose candidates' = choose candidates := by
  have hmem : ∀ c, c ∈ candidates' ↔ c ∈ candidates := fun c => hp.mem_iff
  have hcheapest : ∀ amount, Cheapest candidates amount → Cheapest candidates' amount := by
    intro amount ⟨⟨c, hc, hcost⟩, hleast⟩
    exact ⟨⟨c, (hmem c).mpr hc, hcost⟩, fun c hc => hleast c ((hmem c).mp hc)⟩
  rcases cheapest_or_invalid candidates with ⟨amount, hc⟩ | hinvalid
  · rw [hc.choose_eq, (hcheapest amount hc).choose_eq, h amount hc]
  · by_cases hne : candidates = []
    · subst hne
      rw [List.perm_nil.mp hp]
    · have hfits : Resolution.noMatch.Fits candidates := ⟨hne, hinvalid⟩
      have hfits' : Resolution.noMatch.Fits candidates' :=
        ⟨fun h => hne (List.nil_perm.mp (h ▸ hp)), fun c hc => hinvalid c ((hmem c).mp hc)⟩
      rw [← eq_choose_of_fits hfits, ← eq_choose_of_fits hfits']

end

-- ---------------------------------------------------------------------------
-- Candidates in a queue
-- ---------------------------------------------------------------------------

/-- A candidate and where it was found come out before others. -/
def Before (x y : Candidate × Nat) : Prop :=
  x.1.cost.le y.1.cost = true ∧ (x.1.cost = y.1.cost → x.2 < y.2)

/-- What a priority queue gives back of the candidates that were `found`: cheaper ones first, and
of those that cost the same the one found first. -/
structure Popped (found popped : List (Candidate × Nat)) : Prop where
  perm : popped.Perm found
  sorted : popped.Pairwise Before

/-- The first candidate is meant, unless others after it cost the same. -/
def chooseFirst : List Candidate → Resolution
  | [] => .notDefined
  | best :: rest =>
    if best.cost = .invalid then .noMatch
    else
      match rest.takeWhile (·.cost = best.cost) with
      | [] => .resolved best.decl best.signature
      | tied => .ambiguous best.decl best.signature (best.decl :: tied.map (·.decl))

/-- Those that cost least stand in front. -/
theorem filter_eq_takeWhile {candidates : List Candidate} {cost : Cost}
    (hsorted : candidates.Pairwise (·.cost.le ·.cost = true))
    (hleast : ∀ c ∈ candidates, cost.le c.cost = true) :
    candidates.filter (·.cost = cost) = candidates.takeWhile (·.cost = cost) := by
  induction candidates with
  | nil => rfl
  | cons c cs ih =>
    obtain ⟨hc, hcs⟩ := List.pairwise_cons.mp hsorted
    by_cases heq : c.cost = cost
    · rw [List.filter_cons_of_pos (by simpa using heq),
        List.takeWhile_cons_of_pos (by simpa using heq),
        ih hcs fun d hd => hleast d (List.mem_cons_of_mem _ hd)]
    · -- `c` costs more already, and so does what comes after it
      have hmore : ∀ d ∈ c :: cs, d.cost ≠ cost := by
        refine List.forall_mem_cons.mpr ⟨heq, fun d hd hdc => heq ?_⟩
        exact Cost.le_antisymm (hdc ▸ hc d hd) (hleast c List.mem_cons_self)
      rw [List.takeWhile_cons_of_neg (by simpa using heq)]
      exact List.filter_eq_nil_iff.mpr fun d hd => by simpa using hmore d hd

theorem choose_of_sorted {candidates : List Candidate}
    (hsorted : candidates.Pairwise (·.cost.le ·.cost = true)) :
    choose candidates = chooseFirst candidates := by
  cases candidates with
  | nil => rfl
  | cons best rest =>
    obtain ⟨hbest, hrest⟩ := List.pairwise_cons.mp hsorted
    rw [chooseFirst]
    cases hcost : best.cost with
    | invalid =>
      have hinvalid : ∀ c ∈ best :: rest, c.cost = .invalid :=
        List.forall_mem_cons.mpr ⟨hcost, fun c hc => by
          cases hc' : c.cost with
          | invalid => rfl
          | valid n => simpa [hcost, hc'] using hbest c hc⟩
      exact (eq_choose_of_fits (r := .noMatch) ⟨List.cons_ne_nil _ _, hinvalid⟩).symm
    | valid amount =>
      rw [hcost] at hbest
      have hcheapest : Cheapest (best :: rest) amount := by
        refine ⟨⟨best, List.mem_cons_self, hcost⟩, List.forall_mem_cons.mpr ⟨?_, ?_⟩⟩
        · exact fun n hn => Nat.le_of_eq (Cost.valid.inj (hcost.symm.trans hn))
        · exact fun c hc n hn => by simpa [hn] using hbest c hc
      rw [hcheapest.choose_eq, List.filter_cons_of_pos (by simpa using hcost),
        filter_eq_takeWhile hrest hbest, if_neg nofun]
      cases rest.takeWhile (·.cost = .valid amount) <;> rfl

/-- Taking the minimum and all that cost as much comes to the same as taking candidates out of
a queue while they cost as little as the first one. -/
theorem choose_eq_chooseFirst {found popped : List (Candidate × Nat)} (h : Popped found popped)
    (horder : found.Pairwise (·.2 < ·.2)) :
    choose (found.map (·.1)) = chooseFirst (popped.map (·.1)) := by
  have hsorted : (popped.map (·.1)).Pairwise (·.cost.le ·.cost = true) :=
    List.pairwise_map.mpr (h.sorted.imp And.left)
  rw [← choose_of_sorted hsorted]
  refine (choose_perm (h.perm.map _) fun amount _ => ?_).symm
  rw [List.filter_map, List.filter_map]
  refine congrArg _ ?_
  -- both stand in the order in which they were found
  have hpopped : (popped.filter ((decide <| Candidate.cost · = .valid amount) ∘ (·.1))).Pairwise
      (·.2 < ·.2) := by
    refine List.Pairwise.imp_of_mem (fun hx hy hxy => hxy.2 ?_) (h.sorted.filter _)
    have hx' := (List.mem_filter.mp hx).2
    have hy' := (List.mem_filter.mp hy).2
    simp only [Function.comp_apply, decide_eq_true_eq] at hx' hy'
    rw [hx', hy']
  exact List.Perm.eq_of_pairwise (fun _ _ _ _ hxy hyx => absurd hxy (Nat.lt_asymm hyx)) hpopped
    (horder.filter _) (h.perm.filter _)

-- ---------------------------------------------------------------------------
-- What can be called
-- ---------------------------------------------------------------------------

/-- The type that a declaration has. While the signature of a function is being found out, its
type is the error type. -/
def typeSoFar? (s : Session) (id : DeclId) : Option TypeId :=
  match (s.decl id).type with
  | some type => some type
  | none => if (s.decl id).isFunction && (s.decl id).resolving then some .error else none

/-- What looking at a declaration in the session `s` yields, and the session after it. -/
inductive Offer (arguments : TypeId) (s : Session) (id : DeclId) :
    Option Candidate → Session → Prop
  /-- It has a function type. -/
  | typed (htype : typeSoFar? s id = some signature)
      (hfunc : s.types.func? signature = some (parameters, result)) :
      Offer arguments s id (some ⟨id, signature, s.types.compare arguments parameters⟩) s
  /-- It is a function that gets its signature now. -/
  | untyped (htype : typeSoFar? s id = none) (hfunction : (s.decl id).isFunction = true)
      (hrun : (functionSignature id).start s = (.ok signature, s'))
      (hfunc : s'.types.func? signature = some (parameters, result)) :
      Offer arguments s id (some ⟨id, signature, s'.types.compare arguments parameters⟩) s'
  /-- It has a type, which is no function type. -/
  | value (htype : typeSoFar? s id = some type) (hfunc : s.types.func? type = none) :
      Offer arguments s id none s
  /-- It has no type and is no function. -/
  | unknown (htype : typeSoFar? s id = none) (hfunction : (s.decl id).isFunction = false) :
      Offer arguments s id none s

/-- The candidates among declarations that are looked at one after the other. -/
inductive Offers (arguments : TypeId) :
    Session → List DeclId → List Candidate → Session → Prop
  | nil : Offers arguments s [] [] s
  | cons {decl : DeclId} {found : Option Candidate} (h : Offer arguments s decl found s')
      (hs : Offers arguments s' decls candidates s'') :
      Offers arguments s (decl :: decls) (found.toList ++ candidates) s''

section
variable {s : Session} {id : DeclId} {arguments : TypeId}

theorem func?_makeFunc (t : TypeTable) (parameters result : TypeId) :
    (t.makeFunc parameters result).2.func? (t.makeFunc parameters result).1 =
      some (parameters, result) := by
  have hkind : (t.makeFunc parameters result).2.kind (t.makeFunc parameters result).1 =
      .func parameters result := TypeTable.kind_intern t _
  rw [TypeTable.func?, TypeTable.stripNamed, TypeTable.stripNamedWithin, hkind]
  simp only [hkind]

/-- The signature that a function gets is a function type. -/
theorem ifReturns_functionSignature (htype : typeSoFar? s id = none)
    (hfunction : (s.decl id).isFunction = true) :
    IfReturns (functionSignature id) s fun signature s' =>
      ∃ parameters result, s'.types.func? signature = some (parameters, result) := by
  unfold typeSoFar? at htype
  unfold functionSignature
  simp only [IfReturns, triple_bind, triple_declOf]
  cases ht : (s.decl id).type with
  | some type => simp [ht] at htype
  | none =>
    have hresolving : (s.decl id).resolving = false := by simpa [ht, hfunction] using htype
    simp only [hresolving, Bool.false_eq_true, ↓reduceIte]
    cases hk : (s.decl id).kind with
    | function params result scope =>
      refine ifReturns_bind fun _ _ => ifReturns_bind fun arguments s₁ => ?_
      have hrest : ∀ result s₂, IfReturns (do
            let arguments ← makeType (·.makePlainTuple arguments)
            let signature ← makeType (·.makeFunc arguments result)
            modifyDecl id ({ · with resolving := false, type := some signature, ready := true })
            return signature) s₂ fun signature s' =>
          ∃ parameters result, s'.types.func? signature = some (parameters, result) := by
        intro result s₂
        simp only [IfReturns, triple_bind, triple_makeType, triple_modifyDecl, triple_pure]
        exact ⟨_, _, func?_makeFunc _ _ _⟩
      cases result with
      | some result => exact ifReturns_bind hrest
      | none => exact hrest .unit s₁
    | _ => simp [Decl.isFunction, hk] at hfunction

/-- A function that has a type keeps it. -/
theorem start_functionSignature (htype : typeSoFar? s id = some type)
    (hfunction : (s.decl id).isFunction = true) :
    (functionSignature id).start s = (.ok type, s) := by
  have hrun : Returns (functionSignature id) s fun a s' => a = type ∧ s' = s := by
    unfold typeSoFar? at htype
    unfold functionSignature
    simp only [Returns, triple_bind, triple_declOf]
    cases ht : (s.decl id).type with
    | some known => exact ⟨by simpa [ht] using htype, rfl⟩
    | none =>
      simp only [ht, hfunction, Bool.true_and] at htype
      cases hr : (s.decl id).resolving with
      | true => exact ⟨by simpa [hr] using htype, rfl⟩
      | false => simp [hr] at htype
  obtain ⟨_, _, hstart, rfl, rfl⟩ := hrun.exists
  exact hstart

theorem Offer.of_type (htype : typeSoFar? s id = some type) :
    Offer arguments s id ((s.types.func? type).map fun (parameters, _) =>
      ⟨id, type, s.types.compare arguments parameters⟩) s := by
  cases hfunc : s.types.func? type with
  | none => exact .value htype hfunc
  | some parts => exact .typed htype hfunc

/-- What is no function can be called through its type, unless that is no function type. -/
theorem returns_callableSignature? (hfunction : (s.decl id).isFunction = false) :
    Returns (callableSignature? id) s fun signature s' => s' = s ∧
      (signature = (s.decl id).type ∨
        signature = none ∧ ∀ type ∈ (s.decl id).type, s.types.func? type = none) := by
  have hfilter (type? : Option TypeId) : (type?.filter fun type => (s.types.func? type).isSome) =
        type? ∨ (type?.filter fun type => (s.types.func? type).isSome) = none ∧
      ∀ type ∈ type?, s.types.func? type = none := by
    cases type? with
    | none => exact .inl rfl
    | some type => cases h : s.types.func? type <;> simp [Option.filter, h]
  unfold callableSignature?
  simp only [Returns, triple_bind, triple_declOf]
  cases hk : (s.decl id).kind with
  | function params result scope => simp [Decl.isFunction, hk] at hfunction
  | builtin op => exact ⟨rfl, .inl rfl⟩
  | var isConst isRef => exact ⟨rfl, hfilter _⟩
  | parameter => exact ⟨rfl, hfilter _⟩

/-- Looking at a declaration is one of the four offers. -/
theorem ifReturns_offer (arguments : TypeId) (id : DeclId) (s : Session) :
    IfReturns (candidate? arguments id) s fun found s' => Offer arguments s id found s' := by
  unfold candidate?
  rw [IfReturns, triple_bind]
  cases hf : (s.decl id).isFunction with
  | true =>
    obtain ⟨params, result, scope, hk⟩ : ∃ params result scope,
        (s.decl id).kind = .function params result scope := by
      cases hk : (s.decl id).kind with
      | function params result scope => exact ⟨params, result, scope, rfl⟩
      | _ => simp [Decl.isFunction, hk] at hf
    unfold callableSignature?
    simp only [triple_bind, triple_declOf, hk, triple_pure, triple_types]
    cases hknown : typeSoFar? s id with
    | some type => exact .of_start (start_functionSignature hknown hf) (.of_type hknown)
    | none =>
      refine ((ifReturns_start _ s).and (ifReturns_functionSignature hknown hf)).imp ?_
      rintro signature s' ⟨hrun, parameters, result, hfunc⟩
      rw [hfunc]
      exact .untyped hknown hf hrun hfunc
  | false =>
    have hsame : typeSoFar? s id = (s.decl id).type := by
      rw [typeSoFar?, hf]
      cases (s.decl id).type <;> rfl
    refine (returns_callableSignature? hf).triple.imp ?_
    rintro signature s' ⟨hs, rfl | ⟨rfl, hnone⟩⟩ <;> rw [hs]
    · cases ht : (s.decl id).type with
      | none => exact .unknown (hsame.trans ht) hf
      | some type => exact .of_type (hsame.trans ht)
    · cases ht : (s.decl id).type with
      | none => exact .unknown (hsame.trans ht) hf
      | some type => exact .value (hsame.trans ht) (hnone type ht)

theorem ifReturns_offers (arguments : TypeId) (decls : List DeclId) (s : Session) :
    IfReturns (decls.mapM (candidate? arguments)) s fun found s' =>
      Offers arguments s decls (found.filterMap fun c => c) s' := by
  induction decls generalizing s with
  | nil => exact (triple_mapM_nil (E := fun _ _ => True)).mpr .nil
  | cons decl decls ih =>
    refine triple_mapM_cons.mpr ((ifReturns_offer arguments decl s).imp fun found s' hoffer =>
      (ih s').imp fun candidates s'' hoffers => ?_)
    have hcons : (found :: candidates).filterMap (fun c => c) =
        found.toList ++ candidates.filterMap (fun c => c) := by
      cases found <;> rfl
    exact hcons ▸ .cons hoffer hoffers

/-- What a call means is the one resolution that fits the candidates, which are made of the
declarations in sight. The order in which these were found shows only in that of the cheapest
ones. -/
theorem resolveOverload_fits {scope : ScopeId} (hs : s.Scoped) (hscope : s.scopes.Has scope)
    (name : String) (arguments : TypeId) :
    ∃ found candidates resolution s', s.scopes.findVars scope name = .ok found ∧
      Offers arguments s found candidates s' ∧
      (resolveOverload scope name arguments).start s = (.ok resolution, s') ∧
      (∀ r, resolution = r ↔ r.Fits candidates) ∧
      ∀ candidates', candidates'.Perm candidates →
        (∀ amount, Cheapest candidates amount → candidates'.filter (·.cost = .valid amount) =
          candidates.filter (·.cost = .valid amount)) →
        choose candidates' = resolution := by
  obtain ⟨found, hfound, -⟩ := ScopeTable.exists_findVars hs.closed hscope name
  have hreturns := learner_resolveOverload (N := fun _ => False) (G := (·.Has scope))
    (fun _ h => h) name arguments s hs hscope
  have hoffers : IfReturns (resolveOverload scope name arguments) s fun resolution s' =>
      ∃ candidates, resolution = choose candidates ∧ Offers arguments s found candidates s' := by
    unfold resolveOverload
    simp only [IfReturns, triple_bind, triple_lookUp, hfound]
    exact (ifReturns_offers arguments found s).imp fun _ _ h => ⟨_, rfl, h⟩
  obtain ⟨resolution, s', hrun, -, candidates, rfl, hcandidates⟩ :=
    Returns.exists (hreturns.and hoffers)
  refine ⟨found, candidates, _, s', hfound, hcandidates, hrun, fun r => ?_,
    fun _ hperm hties => choose_perm hperm hties⟩
  rw [eq_comm, eq_choose_iff]

/-- The session with one more function `f`, of one parameter. -/
def declareUnary (s : Session) (type : String) : Session :=
  let (param, s) := s.addDecl (.new "x" .parameter s.universal .null)
  let (id, s) := s.addDecl (.new "f"
    (.function [⟨"x", .name type [] .null, param⟩] none s.universal) s.universal .null)
  match s.scopes.addVar s.universal "f" id true with
  | .ok scopes => { s with scopes }
  | .error _ => s

theorem scoped_declareUnary (hs : s.Scoped) (type : String) : (declareUnary s type).Scoped := by
  have hparam := hs.addDecl (d := .new "x" .parameter s.universal .null) fun _ _ _ h => nomatch h
  have hfunction := hparam.addDecl (d := .new "f"
    (.function [⟨"x", .name type [] .null, ⟨s.decls.size⟩⟩] none s.universal) s.universal .null)
    fun _ _ _ h => by cases h; exact hs.universal
  unfold declareUnary
  dsimp only
  split
  · rename_i hadd
    exact hfunction.withScopes (hfunction.closed.addVar hadd) (ScopeTable.size_addVar hadd)
  · exact hfunction

/-- A session of a universal scope only. -/
def bare (types : TypeTable) : Session :=
  ⟨.empty, types, (ScopeTable.empty.addScope .universal none).2, #[], .empty, #[], [], #[], ⟨0⟩,
    "main"⟩

theorem scoped_bare (types : TypeTable) : (bare types).Scoped := by
  have hempty : ScopeTable.empty.Closed := ⟨nofun, nofun, nofun⟩
  exact .of_closed (hempty.addScope .universal nofun) Nat.zero_lt_one rfl rfl

theorem scoped_primitives {s : Session} (hs : s.Scoped) :
    (Primitive.all.foldl Session.definePrimitive s).Scoped :=
  List.foldlRecOn _ _ hs fun _ h p _ => h.definePrimitive p

/-- A session that knows the primitive types, with a function `f` for wider and one for
narrower integers. -/
def overloaded : Session :=
  let types := (TypeTable.initial.makePlainTuple [Primitive.int8.typeId]).2
  let known := Primitive.all.foldl Session.definePrimitive (bare types)
  declareUnary (declareUnary known "int16") "int8"

theorem scoped_overloaded : overloaded.Scoped := by
  unfold overloaded
  exact scoped_declareUnary (scoped_declareUnary (scoped_primitives (scoped_bare _)) _) _

/-- A tuple of one narrow integer. -/
def narrow : TypeId := (overloaded.types.makePlainTuple [Primitive.int8.typeId]).1

/-- The function for narrower integers is meant, though the other one is found before. -/
theorem resolveOverload_fits_overloaded :
    (overloaded.Scoped ∧ overloaded.scopes.Has overloaded.universal) ∧
    overloaded.scopes.findVars overloaded.universal "f" = .ok [⟨1⟩, ⟨3⟩] ∧
    ∃ candidates signature s', Offers narrow overloaded [⟨1⟩, ⟨3⟩] candidates s' ∧
      (Resolution.resolved ⟨3⟩ signature).Fits candidates := by
  have hfind : overloaded.scopes.findVars overloaded.universal "f" = .ok [⟨1⟩, ⟨3⟩] := by
    decide +kernel
  have hresult : ((resolveOverload overloaded.universal "f" narrow).start overloaded).1.toOption =
      some (.resolved ⟨3⟩ ⟨13⟩) := by decide +kernel
  obtain ⟨found, candidates, resolution, s', hfound, hoffers, hrun, hfits, -⟩ :=
    resolveOverload_fits scoped_overloaded scoped_overloaded.universal "f" narrow
  obtain rfl : found = [⟨1⟩, ⟨3⟩] := Except.ok.inj (hfound.symm.trans hfind)
  rw [hrun] at hresult
  obtain rfl : resolution = .resolved ⟨3⟩ ⟨13⟩ := Option.some.inj hresult
  exact ⟨⟨scoped_overloaded, scoped_overloaded.universal⟩, hfind, candidates, ⟨13⟩, s', hoffers,
    (hfits _).mp rfl⟩

end

end Typing
end BlockLang
