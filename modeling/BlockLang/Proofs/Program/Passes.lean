import BlockLang.Proofs.Lowered.Module
import BlockLang.Proofs.Typing.Statement

/-!
# The passes over a module

From a module as it was read, all three passes come to their end and leave it in lowered
form, with all its nodes taken note of. Nothing else in the session is touched.
-/

namespace BlockLang

open BlockLang.Tree (idsOf)

variable {s s' : Session} {ts us : List Tree} {root : NodeId} {name : String}

theorem Marks.proceeds {N : NodeId → Prop} (h : Marks s s')
    (hn : ∀ id, ¬ N id → s'.tree.label id = s.tree.label id) : Proceeds N s s' where
  names := by rw [h.rest]; rfl
  labels := fun id _ hid hl => (hn id hid).trans hl
  temps := fun _ _ hset _ _ => by rw [h.rest]; exact hset
  scopes := fun id => .inr ⟨id, Session.scope_marks h id⟩
  size := Nat.le_of_eq h.size.symm
  report := by
    obtain ⟨ds, hds⟩ := h.report
    rw [hds]
    exact List.prefix_append _ _

/-- No node below a root belongs to the other trees. -/
theorem not_mem_others {t : Tree} {a : Arena} (h : a.Forest (t :: us)) (hi : i ∈ t.ids) :
    i ∉ idsOf us := by
  have hn := h.2
  rw [Tree.idsOf_cons, List.nodup_append] at hn
  exact fun hu => hn.2.2 i hi i hu rfl

theorem Tree.Source.notInferred {t : Tree} (h : t.Source) :
    t.Only fun k => k.isInferred = false := by
  intro u hu
  have harity := (h u hu).arity
  cases hk : u.kind <;> first | rfl | simp [hk, NodeKind.Arity] at harity

/-- The passes bring a module that was read into lowered form, and inference settles it. It
never needs the type that is `missing`. -/
theorem returns_passes (normalizes : Bool) (hs : s.Scoped)
    (hf : s.tree.Forest (.node root (.moduleRoot name) ts :: us))
    (hw : ∀ t ∈ ts, t.Every (Written s)) (missing : Pass TypeId) :
    Returns (arrange normalizes root) s fun _ s₁ => Returns (lower root) s₁ fun _ s₂ =>
      Returns (inferWith missing root) s₂ fun _ s' => ∃ ts₂ ts',
        s₂.tree.Forest (.node root (.moduleRoot name) ts₂ :: us) ∧ (∀ t ∈ ts₂, Lowered t) ∧
        List.Forall₂ (Settles s₂.tree.size) ts₂ ts' ∧
        Reworks (· ∉ idsOf us) s (.node root (.moduleRoot name) ts' :: us) s' ∧ Done s' ∅ ts' := by
  have hbelow : ∀ {a : Arena} {vs : List Tree}, a.Forest (.node root (.moduleRoot name) vs :: us) →
      ∀ i ∈ idsOf vs, i ∉ idsOf us := fun h i hi => not_mem_others h (by simp [hi])
  refine (returns_arrange normalizes hf hw).imp ?_
  rintro - s₁ ⟨ts₁, hf₁, hsource, hmarks, hothers, -⟩
  have hp₁ : Proceeds (· ∉ idsOf us) s s₁ :=
    hmarks.proceeds fun id hid => hothers id fun hm => hid (hbelow hf id hm)
  have h₁ : Reworks (· ∉ idsOf us) s (.node root (.moduleRoot name) ts₁ :: us) s₁ :=
    ⟨hp₁.scoped hs, hf₁, hp₁⟩
  refine (returns_lower hf₁ hsource).imp ?_
  rintro - s₂ ⟨ts₂, hf₂, hbuilds, hlowers⟩
  have hlowered : ∀ t ∈ ts₂, Lowered t := (hlowers.forms hsource).2
  have hadds : Lowers.Adds fun k => k.isInferred = false := ⟨rfl, rfl, rfl, fun _ => rfl⟩
  have hbare : ∀ t ∈ ts₂, t.Only fun k => k.isInferred = false :=
    hlowers.narrows hadds fun t ht => (hsource t ht).notInferred
  have h₂ := h₁.builds hbuilds hf₂
  refine (Typing.returns_inferWith h₂.session hlowered hbare (hlowers.feeds hsource) hf₂
    missing).imp ?_
  rintro - s' ⟨ts', hsettles, h', hdone⟩
  exact ⟨ts₂, ts', hf₂, hlowered, hsettles,
    h₂.trans h' fun id hid => .inl (hbelow hf₂ id hid), hdone⟩

end BlockLang
