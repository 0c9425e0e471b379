import BlockLang.Proofs.Grammar.Shape
import BlockLang.Proofs.Typing.Learns

/-!
# Taking note of a node

What inference finds out about every node it comes to: its type, and what the name it uses
is bound to. `Notes` says that a pass learns and leaves such facts about one node.
-/

namespace BlockLang

namespace NodeKind

/-- Whether a node uses a name. -/
def isUse : NodeKind → Bool
  | .symbol _ | .call _ | .builtinCall _ => true
  | _ => false

def isOperator : NodeKind → Bool
  | .binary _ | .unary _ => true
  | _ => false

end NodeKind

/-- What is known of a node of kind `k` once it has been analyzed. -/
structure Facts.Cover (f : Facts) (k : NodeKind) : Prop where
  type : k.isImport = false → f.type.isSome = true
  binding : k.isUse = true → f.type = some .error ∨ f.binding.isSome = true

namespace Facts.Cover

variable {f : Facts} {k : NodeKind}

/-- Most nodes only have a type. -/
theorem of_type (h : f.type.isSome = true) (hk : k.isUse = false) : f.Cover k :=
  ⟨fun _ => h, fun hu => by simp [hk] at hu⟩

theorem of_error (h : f.type = some .error) : f.Cover k := ⟨fun _ => by simp [h], fun _ => .inl h⟩

theorem of_binding (h : f.type.isSome = true) (hb : f.binding.isSome = true) : f.Cover k :=
  ⟨fun _ => h, fun _ => .inr hb⟩

/-- Nothing is known of an import. -/
theorem importDecl : f.Cover (.importDecl name isPublic) :=
  ⟨fun h => absurd h (by simp [NodeKind.isImport]), fun h => absurd h (by simp [NodeKind.isUse])⟩

end Facts.Cover

section
variable {N M : NodeId → Prop} {s s' : Session}

theorem Learns.mono (h : Learns N s s') (hm : ∀ id, N id → M id) : Learns M s s' :=
  ⟨h.names, h.links, fun id hid => h.labels id fun hn => hid (hm id hn), h.scopes, h.temps,
    h.report⟩

theorem Learns.size_le (h : Learns N s s') : s.tree.size ≤ s'.tree.size :=
  Arena.size_le_of_links h.links

theorem Learns.facts {id : NodeId} (h : Learns N s s') (hid : ¬ N id) :
    s'.tree.facts id = s.tree.facts id :=
  Arena.facts_congr (h.labels id hid)

end

/-- A learner that in the end knows of the node what `P` says. -/
def Notes (N : NodeId → Prop) (G : Names → Prop) (node : NodeId) (P : Facts → Prop)
    (p : Pass α) : Prop :=
  ∀ s : Session, s.Scoped → G s.names → Returns p s fun _ s' =>
    Learns N s s' ∧ (node.index < s.tree.size → P (s'.tree.facts node))

namespace Notes

variable {N : NodeId → Prop} {G : Names → Prop} {node : NodeId} {P Q : Facts → Prop} {p : Pass α}
  {f : α → Pass β}

theorem annotate (hn : N node) {f : Facts → Facts} (hf : ∀ facts, P (f facts)) :
    Notes N G node P (Pass.annotate node f) := by
  intro s _ _
  refine ⟨learns_annotate hn f, fun hlt => ?_⟩
  rw [Arena.facts_annotate_self hlt]
  exact hf _

/-- The facts are found at the end. -/
theorem after (hp : Learner N G p) (hf : ∀ a, Notes N G node P (f a)) :
    Notes N G node P (p >>= f) := by
  intro s hs hg
  refine triple_bind.mpr ((hp s hs hg).imp fun a s' h => ?_)
  refine (hf a s' (h.scoped hs) (h.names ▸ hg)).imp ?_
  rintro b s'' ⟨h', hP⟩
  exact ⟨h.trans h', fun hlt => hP (Nat.lt_of_lt_of_le hlt h.size_le)⟩

/-- What comes after them leaves the facts alone. -/
theorem before (hp : Notes N G node P p) (hf : ∀ a, Learner (fun _ => False) G (f a)) :
    Notes N G node P (p >>= f) := by
  intro s hs hg
  refine triple_bind.mpr ((hp s hs hg).imp ?_)
  rintro a s' ⟨h, hP⟩
  refine (hf a s' (h.scoped hs) (h.names ▸ hg)).imp fun b s'' h' => ?_
  refine ⟨h.trans (h'.mono fun _ => False.elim), fun hlt => ?_⟩
  rw [h'.facts not_false]
  exact hP hlt

theorem ite {c : Prop} [Decidable c] {p q : Pass α} (hp : Notes N G node P p)
    (hq : Notes N G node P q) : Notes N G node P (if c then p else q) := by
  split
  · exact hp
  · exact hq

theorem mono (hp : Notes N G node P p) (h : ∀ facts, P facts → Q facts) : Notes N G node Q p :=
  fun s hs hg => (hp s hs hg).imp fun _ _ h' => ⟨h'.1, fun hlt => h _ (h'.2 hlt)⟩

theorem scopeOf {f : ScopeId → Pass β} {place : NodeId}
    (h : ∀ scope, Notes N (fun n => n.Has scope ∧ G n) node P (f scope)) :
    Notes N G node P (Pass.scopeOf place >>= f) :=
  fun s hs hg => h (s.tree.scope place) s hs ⟨hs.nodes place, hg⟩

end Notes
end BlockLang
