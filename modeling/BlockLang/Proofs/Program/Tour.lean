import Mathlib.Data.List.Nodup
import Mathlib.Logic.Relation

/-!
# Depth-first tours

Names are visited in order, and those that a name imports between its begin and its end. A
name that has begun is passed over, so cycles come to an end. What is visited from a root ends
up as everything the root needs, each name once, and a name ends after all that it imports
except for what needs the name itself.
-/

namespace BlockLang

open Relation (ReflTransGen)

/-- `read name items` says that `name` imports `items`. Visiting `names` takes those that have
begun and those that have ended, in this order, to new ones. -/
inductive Tour (read : String → List String → Prop) :
    (begun ended names begun' ended' : List String) → Prop
  | nil {b e : List String} : Tour read b e [] b e
  | skip {b e ns b' e' : List String} {n : String} (known : n ∈ b)
    (rest : Tour read b e ns b' e') : Tour read b e (n :: ns) b' e'
  | enter {b e ns items b₁ e₁ b' e' : List String} {n : String} (fresh : n ∉ b)
    (imports : read n items) (below : Tour read (n :: b) e items b₁ e₁)
    (rest : Tour read b₁ (e₁ ++ [n]) ns b' e') : Tour read b e (n :: ns) b' e'

/-- One name imports the other. -/
def Imports (read : String → List String → Prop) (m n : String) : Prop :=
  ∃ items, read m items ∧ n ∈ items

/-- `n` comes before `m`. -/
def Before (names : List String) (n m : String) : Prop :=
  ∃ left right, names = left ++ m :: right ∧ n ∈ left

theorem Before.append {names : List String} (h : Before names n m) (more : List String) :
    Before (names ++ more) n m := by
  obtain ⟨left, right, rfl, hn⟩ := h
  exact ⟨left, right ++ more, by simp, hn⟩

namespace Tour

variable {read read' : String → List String → Prop} {b e ns b' e' : List String} {n m : String}

theorem mono (h : Tour read b e ns b' e') (hread : ∀ n items, read n items → read' n items) :
    Tour read' b e ns b' e' := by
  induction h with
  | nil => exact .nil
  | skip known _ ih => exact .skip known ih
  | enter fresh imports _ _ ihbelow ihrest => exact .enter fresh (hread _ _ imports) ihbelow ihrest

theorem cons {b₁ e₁ : List String} (h : Tour read b e [n] b₁ e₁)
    (h' : Tour read b₁ e₁ ns b' e') : Tour read b e (n :: ns) b' e' := by
  cases h with
  | skip known rest =>
    cases rest with
    | nil => exact .skip known h'
  | enter fresh imports below rest =>
    cases rest with
    | nil => exact .enter fresh imports below h'

theorem begun_subset (h : Tour read b e ns b' e') : b ⊆ b' := by
  induction h with
  | nil => exact List.Subset.refl _
  | skip _ _ ih => exact ih
  | enter _ _ _ _ ihbelow ihrest =>
    exact List.Subset.trans (List.subset_cons_self _ _) (List.Subset.trans ihbelow ihrest)

theorem length_le (h : Tour read b e ns b' e') : b.length ≤ b'.length := by
  induction h with
  | nil => exact Nat.le_refl _
  | skip _ _ ih => exact ih
  | enter _ _ _ _ ihbelow ihrest =>
    exact Nat.le_trans (Nat.le_succ _) (Nat.le_trans ihbelow ihrest)

/-- All that is asked for has begun. -/
theorem names_subset (h : Tour read b e ns b' e') : ns ⊆ b' := by
  induction h with
  | nil => exact List.nil_subset _
  | skip known rest ih => exact List.cons_subset.mpr ⟨rest.begun_subset known, ih⟩
  | enter _ _ below rest _ ih =>
    exact List.cons_subset.mpr ⟨rest.begun_subset (below.begun_subset List.mem_cons_self), ih⟩

/-- What is under way stays so, and nothing else is in the end. -/
theorem underway_iff (h : Tour read b e ns b' e') (x : String) :
    x ∈ b' ∧ x ∉ e' ↔ x ∈ b ∧ x ∉ e := by
  induction h with
  | nil => rfl
  | skip _ _ ih => exact ih
  | @enter b e ns items b₁ e₁ b' e' n fresh _ _ _ ihbelow ihrest =>
    rw [ihrest, List.mem_append, List.mem_singleton, not_or, ← and_assoc, ihbelow, List.mem_cons]
    constructor
    · rintro ⟨⟨hx, he⟩, hne⟩
      exact ⟨hx.resolve_left hne, he⟩
    · rintro ⟨hx, he⟩
      exact ⟨⟨.inr hx, he⟩, fun hne => fresh (hne ▸ hx)⟩

/-- Every name begins once and ends once. -/
theorem nodup (h : Tour read b e ns b' e') (hb : b.Nodup) (he : e.Nodup) (hsub : e ⊆ b) :
    b'.Nodup ∧ e'.Nodup ∧ e' ⊆ b' := by
  induction h with
  | nil => exact ⟨hb, he, hsub⟩
  | skip _ _ ih => exact ih hb he hsub
  | @enter b e ns items b₁ e₁ b' e' n fresh _ below _ ihbelow ihrest =>
    obtain ⟨hb₁, he₁, hsub₁⟩ := ihbelow (List.nodup_cons.mpr ⟨fresh, hb⟩) he
      (List.Subset.trans hsub (List.subset_cons_self _ _))
    -- `n` is still under way
    have hn := (below.underway_iff n).mpr ⟨List.mem_cons_self, fun hn => fresh (hsub hn)⟩
    refine ihrest hb₁ (List.nodup_append.mpr ⟨he₁, List.nodup_singleton n, ?_⟩) ?_
    · rintro x hx y hy rfl
      exact hn.2 (List.mem_singleton.mp hy ▸ hx)
    · exact List.append_subset.mpr ⟨hsub₁, by simpa using hn.1⟩

/-- Nothing begins that is not needed. -/
theorem needed (h : Tour read b e ns b' e') {x : String} (hx : x ∈ b') :
    x ∈ b ∨ ∃ n ∈ ns, ReflTransGen (Imports read) n x := by
  induction h with
  | nil => exact .inl hx
  | skip _ _ ih =>
    rcases ih hx with hx | ⟨n, hn, hreach⟩
    · exact .inl hx
    · exact .inr ⟨n, List.mem_cons_of_mem _ hn, hreach⟩
  | @enter b e ns items b₁ e₁ b' e' n fresh imports below rest ihbelow ihrest =>
    rcases ihrest hx with hx | ⟨k, hk, hreach⟩
    · rcases ihbelow hx with hx | ⟨k, hk, hreach⟩
      · rcases List.mem_cons.mp hx with rfl | hx
        · exact .inr ⟨x, List.mem_cons_self, .refl⟩
        · exact .inl hx
      · exact .inr ⟨n, List.mem_cons_self, .head ⟨items, imports, hk⟩ hreach⟩
    · exact .inr ⟨k, List.mem_cons_of_mem _ hk, hreach⟩

/-- What an ended name imports has begun, and it has ended before or needs the name itself. -/
def Settled (read : String → List String → Prop) (b e : List String) : Prop :=
  ∀ m ∈ e, ∀ n, Imports read m n →
    n ∈ b ∧ (Before e n m ∨ ReflTransGen (Imports read) n m)

/-- What is under way needs whatever is visited. -/
theorem settled (h : Tour read b e ns b' e')
    (hread : ∀ n items items', read n items → read n items' → items = items')
    (hneed : ∀ x ∈ b, x ∉ e → ∀ n ∈ ns, ReflTransGen (Imports read) x n)
    (hs : Settled read b e) : Settled read b' e' := by
  induction h with
  | nil => exact hs
  | skip _ _ ih => exact ih (fun x hx hxe n hn => hneed x hx hxe n (List.mem_cons_of_mem _ hn)) hs
  | @enter b e ns items b₁ e₁ b' e' n fresh imports below rest ihbelow ihrest =>
    have hreach : ∀ x ∈ n :: b, x ∉ e → ReflTransGen (Imports read) x n := by
      intro x hx hxe
      rcases List.mem_cons.mp hx with rfl | hx
      · exact .refl
      · exact hneed x hx hxe n List.mem_cons_self
    have hs' : Settled read (n :: b) e := fun m hm k hk =>
      ⟨List.mem_cons_of_mem _ (hs m hm k hk).1, (hs m hm k hk).2⟩
    have hs₁ : Settled read b₁ e₁ :=
      ihbelow (fun x hx hxe k hk => (hreach x hx hxe).tail ⟨items, imports, hk⟩) hs'
    refine ihrest (fun x hx hxe k hk => ?_) fun m hm k hk => ?_
    · obtain ⟨hxe, hxn⟩ := not_or.mp (mt List.mem_append.mpr hxe)
      obtain ⟨hxb, hxe⟩ := (below.underway_iff x).mp ⟨hx, hxe⟩
      have hxb : x ∈ b := (List.mem_cons.mp hxb).resolve_left (mt List.mem_singleton.mpr hxn)
      exact hneed x hxb hxe k (List.mem_cons_of_mem _ hk)
    · rcases List.mem_append.mp hm with hm | hm
      · obtain ⟨hkb, hk⟩ := hs₁ m hm k hk
        exact ⟨hkb, hk.imp_left (.append · [n])⟩
      · obtain rfl := List.mem_singleton.mp hm
        obtain ⟨items', himports, hk⟩ := hk
        obtain rfl := hread _ _ _ imports himports
        have hkb := below.names_subset hk
        refine ⟨hkb, ?_⟩
        by_cases hke : k ∈ e₁
        · exact .inl ⟨e₁, [], rfl, hke⟩
        · obtain ⟨hkb, hke⟩ := (below.underway_iff k).mp ⟨hkb, hke⟩
          exact .inr (hreach k hkb hke)

/-- Visits from a root end with everything the root needs. -/
theorem of_root {root : String} (h : Tour read [] [] [root] b e)
    (hread : ∀ n items items', read n items → read n items' → items = items') :
    e.Nodup ∧ (∀ n, n ∈ b ↔ n ∈ e) ∧
      (∀ n, n ∈ e ↔ ReflTransGen (Imports read) root n) ∧ Settled read b e := by
  obtain ⟨-, hnodup, hsub⟩ := h.nodup List.nodup_nil List.nodup_nil (List.Subset.refl _)
  have hsettled := h.settled hread (by simp) (by simp [Settled])
  have hended : ∀ n, n ∈ b ↔ n ∈ e := by
    refine fun n => ⟨fun hn => ?_, fun hn => hsub hn⟩
    by_contra hne
    simpa using (h.underway_iff n).mp ⟨hn, hne⟩
  refine ⟨hnodup, hended, fun n => ⟨fun hn => ?_, fun hn => ?_⟩, hsettled⟩
  · rcases h.needed (hsub hn) with hnil | ⟨k, hk, hreach⟩
    · simp at hnil
    · exact List.mem_singleton.mp hk ▸ hreach
  · induction hn with
    | refl => exact (hended root).mp (h.names_subset List.mem_cons_self)
    | tail _ hstep ih => exact (hended _).mp (hsettled _ ih _ hstep).1

end Tour
end BlockLang
