import BlockLang.Proofs.Program.Reached
import BlockLang.Proofs.Typing.Poisoned

/-!
# Errors that do not spread

In a module that has been loaded and lowered, a step with a wrong operand is wrong too and
adds no diagnostics of its own, at whatever point of inference its turn comes.
-/

namespace BlockLang

open BlockLang.Tree (idsOf subtreesOf)

variable {s s' : Session} {m : Module} {t u : Tree} {ts ts' us : List Tree}

/-- A lowered step has as many operands as it can be written with. -/
theorem Lowers.arity {first : Nat} {temps : Array NodeId}
    (h : Lowers first temps (.statements ts ts')) (hs : ∀ t ∈ ts, t.Source)
    (hu : u ∈ subtreesOf ts') (hk : u.kind.isStep = true) (hc : u.children ≠ []) :
    u.kind.Arity u.children.length := by
  rcases h.wires u hu hk with ⟨v, hv, -, hkind, hwired⟩ | ⟨j, rfl, -⟩
  · obtain ⟨t, ht, hv⟩ := Tree.mem_subtreesOf.mp hv
    rw [← hkind, ← hwired.length_eq]
    exact (hs t ht v hv).arity
  · exact absurd rfl hc

/-- What a module that has been loaded is lowered to. -/
theorem Reached.lowered (h : Reached s) {i : Nat} (hm : s.modules[i]? = some m)
    (hopen : m.analyzed = false) (normalizes : Bool) :
    Returns (arrange normalizes m.root) s fun _ s₁ => Returns (lower m.root) s₁ fun _ s₂ =>
      s₂.Scoped ∧ ∃ name us ts ts',
        s₂.tree.Forest (.node m.root (.moduleRoot name) ts' :: us) ∧ (∀ t ∈ ts, t.Source) ∧
        Lowers s₁.tree.size s₂.temps (.statements ts ts') := by
  obtain ⟨trees, name, cs, hf, -, hspells, ht⟩ := h.sound.exists_tree hm
  have hread : ∀ c ∈ cs, c.Every (Written s) := (hspells i m _ hm ht).read hopen
  refine (returns_arrange normalizes (hf.front ht) hread).imp ?_
  rintro - s₁ ⟨ts, hf₁, hsource, hmarks, -⟩
  have hp : Proceeds (fun _ => True) s s₁ := hmarks.proceeds fun _ hn => absurd trivial hn
  refine (returns_lower hf₁ hsource).imp ?_
  rintro - s₂ ⟨ts', hf₂, hbuilds, hlowers⟩
  exact ⟨(hbuilds.proceeds (N := fun _ => True)).scoped (hp.scoped h.sound.inScope), name, _, ts,
    ts', hf₂, hsource, hlowers⟩

end BlockLang
