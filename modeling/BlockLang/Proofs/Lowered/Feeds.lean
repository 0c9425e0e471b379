import BlockLang.Proofs.Lowered.Fed

/-!
# Lowering sets its temporaries

A step is put behind the steps of its operands, so whatever a temporary stands for has been
computed before it is used. Besides, lowering only adds nodes of a few kinds.
-/

namespace BlockLang

open Lowers (Judgement)

variable {first : Nat} {temps : Array NodeId} {judgement : Judgement}

-- ---------------------------------------------------------------------------
-- Kinds of nodes
-- ---------------------------------------------------------------------------

/-- All nodes are of kinds that `K` holds of. -/
def Tree.Only (K : NodeKind → Prop) (t : Tree) : Prop := t.Every fun u => K u.kind

/-- `K` holds of what lowering adds. -/
structure Lowers.Adds (K : NodeKind → Prop) : Prop where
  basicBlock : K .basicBlock
  pair : K .pair
  nullValue : K .nullValue
  temp : ∀ τ, K (.temp τ)

section
variable {K : NodeKind → Prop} {t : Tree} {ts cs out : List Tree}

theorem Tree.only_node : (Tree.node i k cs).Only K ↔ (∀ c ∈ cs, c.Only K) ∧ K k := every_node

theorem Tree.only_leaf (h : K k) : (Tree.node i k []).Only K := only_node.mpr ⟨by simp, h⟩

theorem Packs.only (hK : Lowers.Adds K) (h : Packs first out t) (ho : ∀ s ∈ out, s.Only K) :
    t.Only K := by
  induction h with
  | run => exact Tree.only_node.mpr ⟨ho, hK.basicBlock⟩
  | single => exact ho _ (List.mem_singleton_self _)
  | pair _ _ _ iha ihb =>
    rw [List.forall_mem_append] at ho
    exact Tree.only_node.mpr ⟨by simpa using ⟨iha ho.1, ihb ho.2⟩, hK.pair⟩

/-- What lowering is to establish about kinds, case by case. -/
def Lowers.Narrows (K : NodeKind → Prop) : Judgement → Prop
  | .statement t t' => t.Only K → t'.Only K
  | .statements ts ts' => (∀ t ∈ ts, t.Only K) → ∀ t ∈ ts', t.Only K
  | .effects ts steps => (∀ t ∈ ts, t.Only K) → ∀ s ∈ steps, s.Only K
  | .value t steps _ => t.Only K → ∀ s ∈ steps, s.Only K
  | .values ts steps us => (∀ t ∈ ts, t.Only K) → ∀ s ∈ steps ++ us, s.Only K

theorem Lowers.narrows (hK : Adds K) (h : Lowers first temps judgement) :
    Narrows K judgement := by
  induction h with
  | pair _ _ iha ihb =>
    intro ht
    obtain ⟨hc, hk⟩ := Tree.only_node.mp ht
    exact Tree.only_node.mpr ⟨by simpa using ⟨iha (hc _ (by simp)), ihb (hc _ (by simp))⟩, hk⟩
  | emptyBlock => exact fun _ => Tree.only_leaf hK.basicBlock
  | block _ ih => exact fun ht => ih ((Tree.only_node.mp ht).1 _ (by simp))
  | funcDecl _ ih =>
    intro ht
    obtain ⟨hc, hk⟩ := Tree.only_node.mp ht
    exact Tree.only_node.mpr ⟨by simpa using ih (hc _ (by simp)), hk⟩
  | typeDecl => exact fun ht => ht
  | importDecl => exact fun ht => ht
  | packed _ packs ih => exact fun ht => packs.only hK (ih (by simpa using ht))
  | noStatements => exact fun _ => by simp
  | moreStatements _ _ ih ihs =>
    intro ht
    rw [List.forall_mem_cons] at ht
    exact List.forall_mem_cons.mpr ⟨ih ht.1, ihs ht.2⟩
  | noEffects => exact fun _ => by simp
  | moreEffects _ _ ih ihs =>
    intro ht
    rw [List.forall_mem_cons] at ht
    exact List.forall_mem_append.mpr ⟨ih (by simpa using ht.1), ihs ht.2⟩
  | group _ _ ih =>
    intro ht
    rw [List.forall_mem_singleton] at ht
    exact ih (Tree.only_node.mp ht).1
  | idle _ _ ih =>
    intro ht
    rw [List.forall_mem_singleton] at ht
    obtain ⟨hc, hk⟩ := Tree.only_node.mp ht
    obtain ⟨hsteps, htemps⟩ := List.forall_mem_append.mp (ih hc)
    exact List.forall_mem_append.mpr ⟨hsteps, by simpa using Tree.only_node.mpr ⟨htemps, hk⟩⟩
  | declaration _ _ _ ih => exact fun ht => by simpa using ih (ht _ (by simp))
  | drop _ ih => exact fun ht => ih (ht _ (by simp))
  | last _ _ _ ihe ihv =>
    intro ht
    obtain ⟨hc, -⟩ := Tree.only_node.mp ht
    rw [List.forall_mem_append] at hc
    exact List.forall_mem_append.mpr ⟨ihe hc.1, ihv (hc.2 _ (by simp))⟩
  | nothing => exact fun _ => by simpa using Tree.only_leaf hK.nullValue
  | branch _ _ packs _ ihc iha =>
    intro ht
    obtain ⟨hc, hk⟩ := Tree.only_node.mp ht
    rw [List.forall_mem_cons] at hc
    have hcs := List.forall_mem_cons.mpr ⟨packs.only hK (ihc hc.1), iha hc.2⟩
    simpa using Tree.only_node.mpr ⟨hcs, hk⟩
  | expression _ _ _ ih =>
    intro ht
    obtain ⟨hc, hk⟩ := Tree.only_node.mp ht
    obtain ⟨hsteps, htemps⟩ := List.forall_mem_append.mp (ih hc)
    exact List.forall_mem_append.mpr ⟨hsteps, by simpa using Tree.only_node.mpr ⟨htemps, hk⟩⟩
  | null _ _ _ ih =>
    intro ht
    exact List.forall_mem_append.mpr ⟨ih (by simpa using ht),
      by simpa using Tree.only_leaf hK.nullValue⟩
  | noValues => exact fun _ => by simp
  | moreValues _ _ _ _ ih ihs =>
    intro ht
    rw [List.forall_mem_cons] at ht
    obtain ⟨hsteps, htemps⟩ := List.forall_mem_append.mp (ihs ht.2)
    refine List.forall_mem_append.mpr ⟨List.forall_mem_append.mpr ⟨ih ht.1, hsteps⟩, ?_⟩
    exact List.forall_mem_cons.mpr ⟨Tree.only_leaf (hK.temp _), htemps⟩

end

-- ---------------------------------------------------------------------------
-- Temporaries
-- ---------------------------------------------------------------------------

section
variable {t : Tree} {ts us cs out : List Tree} {B : Set NodeId}

/-- What steps export is exported by the statement they are packed into. -/
theorem Packs.exports (h : Packs first out t) : exportsOf out ⊆ exportsOf [t] := by
  induction h with
  | run => exact exportsOf_subset_exports rfl
  | single => exact Set.Subset.rfl
  | pair _ _ _ iha ihb =>
    refine Set.Subset.trans ?_ (exportsOf_subset_exports rfl)
    rw [exportsOf_append, exportsOf_cons]
    exact Set.union_subset_union iha ihb

theorem Packs.fed (h : Packs first out t) (hs : FedSeq temps B out) : Fed temps B t := by
  induction h generalizing B with
  | run => exact .sequence rfl hs
  | single => exact fedSeq_singleton.mp hs
  | pair _ left _ iha ihb =>
    obtain ⟨hleft, hright⟩ := fedSeq_append.mp hs
    refine .sequence rfl (fedSeq_cons.mpr ⟨iha hleft, fedSeq_singleton.mpr (ihb ?_)⟩)
    exact hright.mono (Set.union_subset_union_right _ left.exports)

/-- The operands of a step are all that is below it. -/
theorem operands_of_isStep (h : k.isStep = true) : (Tree.node i k cs).operands = cs := by
  cases k <;> first | rfl | simp [NodeKind.isStep, NodeKind.isExpression] at h

theorem importFree_operands (hs : (Tree.node i k cs).Source) (hk : k.isStep = true) :
    ∀ c ∈ cs, c.ImportFree := by
  intro c hc
  exact (hs.shaped.operands c (by rwa [operands_of_isStep hk])).importFree

theorem Tree.ImportFree.leaf (h : k.isImport = false) : (Tree.node i k []).ImportFree :=
  importFree_node.mpr ⟨by simp, h⟩

theorem exports_null (j : NodeId) : (Tree.node j .nullValue []).Exports j := .whole (.leaf rfl)

theorem fed_null (j : NodeId) : Fed temps B (.node j .nullValue []) := .plain rfl (by simp)

theorem isImport_of_isStep {k : NodeKind} (h : k.isStep = true) : k.isImport = false := by
  cases k <;> first | rfl | simp [NodeKind.isStep, NodeKind.isExpression] at h

/-- Lowering adds no imports. -/
theorem adds_notImport : Lowers.Adds fun k => k.isImport = false := ⟨rfl, rfl, rfl, fun _ => rfl⟩

/-- What lowering is to establish about temporaries, case by case. -/
def Lowers.Feeds (temps : Array NodeId) : Judgement → Prop
  | .statement t t' => t.Source → Fed temps ∅ t'
  | .statements ts ts' => (∀ t ∈ ts, t.Source) → ∀ t' ∈ ts', Fed temps ∅ t'
  | .effects ts steps => (∀ t ∈ ts, t.Source) → FedSeq temps ∅ steps
  | .value t steps setter =>
    t.Source → FedSeq temps ∅ steps ∧ (t.ImportFree → setter ∈ exportsOf steps)
  | .values ts steps us => (∀ t ∈ ts, t.Source) → (∀ t ∈ ts, t.ImportFree) →
    FedSeq temps ∅ steps ∧ ∀ u ∈ us, Fed temps (exportsOf steps) u

theorem FedSeq.append_empty (h : FedSeq temps ∅ ts) (h' : FedSeq temps ∅ us) :
    FedSeq temps ∅ (ts ++ us) := fedSeq_append.mpr ⟨h, h'.mono (Set.empty_subset _)⟩

/-- A step comes after the steps of its operands. -/
theorem FedSeq.step (h : FedSeq temps ∅ out) (hk : k.isStep = true)
    (ht : ∀ t ∈ ts, Fed temps (exportsOf out) t) : FedSeq temps ∅ (out ++ [.node i k ts]) := by
  refine fedSeq_append.mpr ⟨h, fedSeq_singleton.mpr ?_⟩
  rw [Set.empty_union]
  exact .plain (NodeKind.isPlain_of_isStep hk) ht

theorem Lowers.feeds (h : Lowers first temps judgement) : Feeds temps judgement := by
  induction h with
  | pair _ _ iha ihb =>
    intro hs
    have ha := fedSeq_singleton.mpr (iha (hs.child (by simp)))
    exact .sequence rfl (ha.append_empty (fedSeq_singleton.mpr (ihb (hs.child (by simp)))))
  | emptyBlock => exact fun _ => .sequence rfl fedSeq_nil
  | block _ ih => exact fun hs => ih (hs.child (by simp))
  | funcDecl _ ih => exact fun hs => .function (by simpa using ih (hs.child (by simp)))
  | typeDecl => exact fun _ => .plain rfl (by simp)
  | importDecl => exact fun _ => .plain rfl (by simp)
  | packed _ packs ih => exact fun hs => packs.fed (ih (by simpa using hs))
  | noStatements => exact fun _ => by simp
  | moreStatements _ _ ih ihs =>
    intro hs
    rw [List.forall_mem_cons] at hs
    exact List.forall_mem_cons.mpr ⟨ih hs.1, ihs hs.2⟩
  | noEffects => exact fun _ => fedSeq_nil
  | moreEffects _ _ ih ihs =>
    intro hs
    rw [List.forall_mem_cons] at hs
    exact (ih (by simpa using hs.1)).append_empty (ihs hs.2)
  | group _ _ ih =>
    intro hs
    rw [List.forall_mem_singleton] at hs
    exact ih fun c hc => hs.child hc
  | idle kind _ ih =>
    intro hs
    rw [List.forall_mem_singleton] at hs
    obtain ⟨hout, htemps⟩ := ih (fun c hc => hs.child hc) (importFree_operands hs kind)
    exact hout.step kind htemps
  | declaration _ _ _ ih => exact fun hs => fedSeq_singleton.mpr (ih (by simpa using hs))
  | drop _ ih => exact fun hs => (ih (by simpa using hs)).1
  | last _ _ _ ihe ihv =>
    intro hs
    obtain ⟨hout, hsetter⟩ := ihv (hs.child (by simp))
    refine ⟨(ihe fun c hc => hs.child (by simp [hc])).append_empty hout, fun hf => ?_⟩
    rw [exportsOf_append]
    exact .inr (hsetter (hf.child (by simp)))
  | nothing =>
    exact fun _ => ⟨fedSeq_singleton.mpr (fed_null _), fun _ =>
      mem_exportsOf_singleton.mpr (exports_null _)⟩
  | branch kind condition packs arms ihc iha =>
    intro hs
    have hc := packs.fed (ihc (hs.child (by simp))).1
    have harms := iha fun a ha => hs.child (by simp [ha])
    refine ⟨fedSeq_singleton.mpr (.plain (NodeKind.isPlain_of_isControlFlow kind) ?_), fun hf => ?_⟩
    · exact List.forall_mem_cons.mpr ⟨hc, harms⟩
    · rw [mem_exportsOf_singleton]
      obtain ⟨hparts, hk⟩ := Tree.importFree_node.mp hf
      rw [List.forall_mem_cons] at hparts
      have hc' := packs.only adds_notImport (condition.narrows adds_notImport hparts.1)
      have has' := arms.narrows adds_notImport hparts.2
      exact .whole (Tree.importFree_node.mpr ⟨List.forall_mem_cons.mpr ⟨hc', has'⟩, hk⟩)
  | expression kind _ operands ih =>
    intro hs
    have hfree := importFree_operands hs kind
    obtain ⟨hout, htemps⟩ := ih (fun c hc => hs.child hc) hfree
    refine ⟨hout.step kind htemps, fun _ => ?_⟩
    rw [exportsOf_append]
    refine .inr (mem_exportsOf_singleton.mpr (.whole (Tree.importFree_node.mpr ⟨?_, ?_⟩)))
    · exact (List.forall_mem_append.mp (operands.narrows adds_notImport hfree)).2
    · exact isImport_of_isStep kind
  | null _ _ _ ih =>
    intro hs
    refine ⟨(ih (by simpa using hs)).append_empty (fedSeq_singleton.mpr (fed_null _)), fun _ => ?_⟩
    rw [exportsOf_append]
    exact .inr (mem_exportsOf_singleton.mpr (exports_null _))
  | noValues => exact fun _ _ => ⟨fedSeq_nil, by simp⟩
  | moreValues _ _ set _ ih ihs =>
    intro hs hf
    rw [List.forall_mem_cons] at hs hf
    obtain ⟨hout, hsetter⟩ := ih hs.1
    obtain ⟨houts, htemps⟩ := ihs hs.2 hf.2
    refine ⟨hout.append_empty houts, ?_⟩
    rw [exportsOf_append]
    refine List.forall_mem_cons.mpr ⟨.temp set (.inl (hsetter hf.1)), fun u hu => ?_⟩
    exact (htemps u hu).mono Set.subset_union_right

end
end BlockLang
