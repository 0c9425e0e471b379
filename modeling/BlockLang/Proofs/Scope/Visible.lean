import Mathlib.Data.List.Perm.Subperm
import BlockLang.Proofs.Scope.Look

/-!
# What can be seen from a scope

A scope sees those that parent and import edges lead to, where no universal scope is
entered once an import edge has been followed (`Reaches`). A lookup shows nothing else, and
if every parent comes before its child, it shows all of it.

The marks keep a lookup from entering an import twice on one path, so something may be
passed over on the way. What is finished has all its successors finished or being looked
through (`Explored`), and in the end nothing is being looked through.
-/

namespace BlockLang

namespace ScopeTable

variable {t : ScopeTable} {root start : ScopeId} {marks : Array Bool}

/-- Every edge between scopes ends in the table. -/
structure Linked (t : ScopeTable) : Prop where
  parent : ∀ {id p}, (t.get id).parent = some p → t.Has p
  imports : ∀ {id e}, e ∈ (t.get id).imports → t.Has e

theorem get_eq_default {id : ScopeId} (h : t.scopes[id.index]? = none) :
    t.get id = default := by
  rw [get, h]
  rfl

theorem get_eq {id : ScopeId} {scope : Scope} (h : t.scopes[id.index]? = some scope) :
    t.get id = scope := by
  rw [get, h]
  rfl

theorem Closed.linked (h : t.Closed) : t.Linked := by
  constructor
  · intro id p hp
    cases hscope : t.scopes[id.index]? with
    | some scope => exact h.parent _ scope hscope p (get_eq hscope ▸ hp)
    | none =>
      rw [get_eq_default hscope] at hp
      cases hp
  · intro id e he
    cases hscope : t.scopes[id.index]? with
    | some scope => exact h.imports _ scope hscope e (get_eq hscope ▸ he)
    | none =>
      rw [get_eq_default hscope] at he
      cases he

/-! ## Paths -/

/-- A path from `root` along parent and import edges; `below` says whether an import edge has
been followed, after which no universal scope is entered. -/
inductive Reaches (t : ScopeTable) (root : ScopeId) : (below : Bool) → ScopeId → Prop
  | here : Reaches t root false root
  | parent {below id p} (path : Reaches t root below id) (edge : (t.get id).parent = some p)
    (enters : below = true → (t.get p).kind ≠ .universal) : Reaches t root below p
  | imported {below id e} (path : Reaches t root below id) (edge : e ∈ (t.get id).imports)
    (enters : (t.get e).kind ≠ .universal) : Reaches t root true e

/-- `id` can be seen from `root`. -/
def Sees (t : ScopeTable) (root id : ScopeId) : Prop := ∃ below, t.Reaches root below id

/-- Whatever one may enter from a finished scope below an import is finished or is being
looked through. -/
def Explored (t : ScopeTable) (entered finished : List ScopeId) : Prop :=
  ∀ x ∈ finished, ∀ y, (t.get x).parent = some y ∨ y ∈ (t.get x).imports →
    (t.get y).kind ≠ .universal → y ∈ finished ∨ y ∈ entered

/-! ## Enough steps -/

/-- `depth` steps are enough from `start` on, where the scopes `entered` are being looked
through: each import that is entered from here is another one, and leads up through at most
all scopes. -/
structure Steps (t : ScopeTable) (entered : List ScopeId) (depth : Nat) (start : ScopeId) :
    Prop where
  parents : ∀ id p, (t.get id).parent = some p → p.index < id.index
  distinct : entered.Nodup
  inTable : ∀ e ∈ entered, t.Has e
  depth : (t.scopes.size - entered.length) * (t.scopes.size + 1) + start.index < depth

/-- The scopes `entered` are those that are marked. -/
structure Entered (t : ScopeTable) (marks : Array Bool) (entered : List ScopeId) : Prop where
  size : marks.size = t.scopes.size
  marked : ∀ id : ScopeId, marks[id.index]?.getD false = true ↔ id ∈ entered

/-- With these marks, `depth` steps are enough from `start` on. -/
structure Enough (t : ScopeTable) (marks : Array Bool) (entered : List ScopeId) (depth : Nat)
    (start : ScopeId) : Prop extends t.Steps entered depth start, t.Entered marks entered

variable {entered : List ScopeId} {depth : Nat}

theorem Steps.parent (h : t.Steps entered (depth + 1) start) {p : ScopeId}
    (hp : (t.get start).parent = some p) : t.Steps entered depth p := by
  have hlt := h.parents start p hp
  have hdepth := h.depth
  exact ⟨h.parents, h.distinct, h.inTable, by omega⟩

theorem length_le_size {ids : List ScopeId} (hdistinct : ids.Nodup) (hin : ∀ id ∈ ids, t.Has id) :
    ids.length ≤ t.scopes.size := by
  have hnodup : (ids.map (·.index)).Nodup :=
    List.Pairwise.map _ (fun a b hab hindex => hab (by cases a; cases b; simp_all)) hdistinct
  have hsubset : ids.map (·.index) ⊆ List.range t.scopes.size := by
    intro i hi
    obtain ⟨id, hid, rfl⟩ := List.mem_map.mp hi
    exact List.mem_range.mpr (hin id hid)
  simpa using (List.subperm_of_subset hnodup hsubset).length_le

theorem Steps.imported (h : t.Steps entered (depth + 1) start) {e : ScopeId} (he : t.Has e)
    (hnew : e ∉ entered) : t.Steps (e :: entered) depth e := by
  have hdistinct : (e :: entered).Nodup := List.nodup_cons.mpr ⟨hnew, h.distinct⟩
  have hin : ∀ id ∈ e :: entered, t.Has id := List.forall_mem_cons.mpr ⟨he, h.inTable⟩
  refine ⟨h.parents, hdistinct, hin, ?_⟩
  have hle := length_le_size hdistinct hin
  have hdepth := h.depth
  have hlt : e.index < t.scopes.size := he
  rw [List.length_cons] at hle ⊢
  obtain ⟨rest, hrest⟩ : ∃ rest, t.scopes.size - entered.length = rest + 1 :=
    ⟨t.scopes.size - entered.length - 1, by omega⟩
  have hfewer : t.scopes.size - (entered.length + 1) = rest := by omega
  rw [hrest, Nat.add_mul] at hdepth
  rw [hfewer]
  omega

theorem Entered.not_mem (h : t.Entered marks entered) {e : ScopeId}
    (hmark : marks[e.index]?.getD false = false) : e ∉ entered :=
  fun hmem => by simp [(h.marked e).mpr hmem] at hmark

theorem Entered.enter (h : t.Entered marks entered) {e : ScopeId} (he : t.Has e) :
    t.Entered (Look.marked marks e) (e :: entered) := by
  refine ⟨by simpa using h.size, fun id => ?_⟩
  by_cases hid : id = e
  · subst hid
    have hlt : id.index < marks.size := h.size ▸ he
    simp [hlt]
  · have hne : e.index ≠ id.index := fun hi => hid (by cases id; cases e; simp_all)
    simp [Array.getElem?_setIfInBounds_ne hne, h.marked id, hid]

theorem Enough.parent (h : t.Enough marks entered (depth + 1) start) {p : ScopeId}
    (hp : (t.get start).parent = some p) : t.Enough marks entered depth p :=
  ⟨h.toSteps.parent hp, h.toEntered⟩

theorem Enough.imported (h : t.Enough marks entered (depth + 1) start) {e : ScopeId}
    (he : t.Has e) (hmark : marks[e.index]?.getD false = false) :
    t.Enough (Look.marked marks e) (e :: entered) depth e :=
  ⟨h.toSteps.imported he (h.not_mem hmark), h.enter he⟩

/-! ## Parts of a lookup -/

/-- What every part of a lookup from `root` does: it shows only what can be seen, adds to the
finished scopes only what it shows, and leaves them explored if there are `enough` steps. -/
structure Covers (t : ScopeTable) (root : ScopeId) (entered : List ScopeId) (enough : Prop)
    (before seen after : List ScopeId) : Prop where
  grown : before ⊆ after
  new : ∀ id ∈ after, id ∈ before ∨ id ∈ seen
  sound : ∀ id ∈ seen, t.Sees root id
  explored : enough → t.Explored entered before → t.Explored entered after

variable {enough : Prop} {before seen seen' after after' : List ScopeId} {universal : Bool}

theorem Covers.refl : t.Covers root entered enough before [] before :=
  ⟨fun _ h => h, fun _ h => .inl h, by simp, fun _ h => h⟩

theorem Covers.trans (h : t.Covers root entered enough before seen after)
    (h' : t.Covers root entered enough after seen' after') :
    t.Covers root entered enough before (seen ++ seen') after' := by
  refine ⟨fun _ hid => h'.grown (h.grown hid), fun id hid => ?_, fun id hid => ?_,
    fun he hb => h'.explored he (h.explored he hb)⟩
  · rcases h'.new id hid with hid | hid
    · exact (h.new id hid).imp_right (List.mem_append_left _)
    · exact .inr (List.mem_append_right _ hid)
  · exact (List.mem_append.mp hid).elim (h.sound id) (h'.sound id)

/-- From `start` up, everything is shown and all its imports are finished. -/
structure Ascends (t : ScopeTable) (entered : List ScopeId) (start : ScopeId)
    (seen after chain : List ScopeId) : Prop where
  start : start ∈ chain
  parent : ∀ id ∈ chain, ∀ p, (t.get id).parent = some p → p ∈ chain
  seen : chain ⊆ seen
  imports : ∀ id ∈ chain, ∀ e ∈ (t.get id).imports, (t.get e).kind ≠ .universal →
    e ∈ after ∨ e ∈ entered

/-- What looking around from `start` does: below an import it finishes `start`. -/
structure Looked (t : ScopeTable) (root : ScopeId) (entered : List ScopeId) (enough : Prop)
    (universal : Bool) (start : ScopeId) (before seen after : List ScopeId) : Prop
    extends t.Covers root entered enough before seen after where
  finished : enough → universal = false → (t.get start).kind ≠ .universal → start ∈ after
  ascends : enough → universal = true → ∃ chain, t.Ascends entered start seen after chain

open Look (Does)

/-- `start` may be looked at in the course of a lookup from `root`. -/
def Comes (t : ScopeTable) (root : ScopeId) (universal : Bool) (start : ScopeId) : Prop :=
  (universal = false → (t.get start).kind ≠ .universal) → t.Reaches root (!universal) start

/-- An import of `start` is finished, unless it is being looked through. -/
theorem does_enter_import (ht : t.Linked) {below : Bool} (hreach : t.Reaches root below start)
    (ih : ∀ marks entered before universal start, t.Has start → t.Comes root universal start →
      Does t marks before (fun _ visit => Look.within visit depth universal start)
        (t.Looked root entered (t.Enough marks entered depth start) universal start before))
    {e : ScopeId} (he : e ∈ (t.get start).imports) (before : List ScopeId) :
    Does t marks before (fun _ visit => Look.enter (Look.within visit depth false) e)
      fun seen after =>
        t.Covers root entered (t.Enough marks entered (depth + 1) start) before seen after ∧
        (t.Enough marks entered (depth + 1) start → (t.get e).kind ≠ .universal →
          e ∈ after ∨ e ∈ entered) := by
  have hin := ht.imports he
  cases hmark : marks[e.index]?.getD false with
  | true =>
    exact Look.does_enter_marked hin hmark ⟨.refl, fun h _ => .inr ((h.marked e).mp hmark)⟩
  | false =>
    have hcomes : t.Comes root false e := fun hkind => hreach.imported he (hkind rfl)
    refine Look.does_enter hin hmark ((ih _ (e :: entered) before false e hin hcomes).imp ?_)
    intro seen after hlooked
    refine ⟨⟨hlooked.grown, hlooked.new, hlooked.sound, fun h hbefore => ?_⟩,
      fun h hkind => .inl (hlooked.finished (h.imported hin hmark) rfl hkind)⟩
    have henough := h.imported hin hmark
    have hafter := hlooked.explored henough fun x hx y hy hkind =>
      (hbefore x hx y hy hkind).imp_right (List.mem_cons_of_mem _)
    -- The import itself is finished now and need not be entered any more.
    intro x hx y hy hkind
    rcases hafter x hx y hy hkind with hy | hy
    · exact .inl hy
    · rcases List.mem_cons.mp hy with rfl | hy
      · exact .inl (hlooked.finished henough rfl hkind)
      · exact .inr hy

/-- The parent of `start` is looked at next. -/
theorem does_parent (ht : t.Linked) (hreach : t.Reaches root (!universal) start)
    (ih : ∀ start, t.Has start → t.Comes root universal start →
      Does t marks before (fun _ visit => Look.within visit depth universal start)
        (t.Looked root entered (t.Enough marks entered depth start) universal start before)) :
    Does t marks before
      (fun _ visit => (t.get start).parent.elim (pure false) (Look.within visit depth universal))
      fun seen after =>
        t.Covers root entered (t.Enough marks entered (depth + 1) start) before seen after ∧
        ∀ p, (t.get start).parent = some p →
          t.Looked root entered (t.Enough marks entered depth p) universal p before seen after := by
  cases hp : (t.get start).parent with
  | none => exact Look.does_nothing ⟨.refl, nofun⟩
  | some p =>
    have hcomes : t.Comes root universal p := fun hkind =>
      hreach.parent hp fun hbelow => hkind (by simpa using hbelow)
    refine (ih p (ht.parent hp) hcomes).imp fun seen after hlooked => ⟨?_, ?_⟩
    · exact ⟨hlooked.grown, hlooked.new, hlooked.sound, fun h => hlooked.explored (h.parent hp)⟩
    · rintro q ⟨⟩
      exact hlooked

/-- What the parts of looking around from `start` do before it is finished itself: `imported`
is shown through its imports, `upper` from its parent on. -/
structure Parts (t : ScopeTable) (root : ScopeId) (marks : Array Bool) (entered : List ScopeId)
    (depth : Nat) (universal : Bool) (start : ScopeId)
    (before imported between upper after : List ScopeId) : Prop where
  imports : t.Covers root entered (t.Enough marks entered (depth + 1) start) before imported between
  edges : ∀ e ∈ (t.get start).imports, t.Enough marks entered (depth + 1) start →
    (t.get e).kind ≠ .universal → e ∈ between ∨ e ∈ entered
  ascent : t.Covers root entered (t.Enough marks entered (depth + 1) start) between upper after
  parent : ∀ p, (t.get start).parent = some p →
    t.Looked root entered (t.Enough marks entered depth p) universal p between upper after

namespace Parts

variable {imported between upper : List ScopeId}

theorem covers (h : t.Parts root marks entered depth universal start before imported between upper
      after) (hreach : t.Reaches root (!universal) start) :
    t.Covers root entered (t.Enough marks entered (depth + 1) start) before
      (start :: (imported ++ upper)) after := by
  have hoffer : t.Covers root entered (t.Enough marks entered (depth + 1) start) before [start]
      before := by
    refine ⟨fun _ h => h, fun _ h => .inl h, fun id hid => ?_, fun _ h => h⟩
    exact List.mem_singleton.mp hid ▸ ⟨_, hreach⟩
  exact hoffer.trans (h.imports.trans h.ascent)

/-- With the universal scope in sight, `start` and what is above it have been shown. -/
theorem looked_top (h : t.Parts root marks entered depth true start before imported between upper
      after) (hreach : t.Reaches root false start) :
    t.Looked root entered (t.Enough marks entered (depth + 1) start) true start before
      (start :: (imported ++ upper)) after := by
  refine ⟨h.covers hreach, fun _ => nofun, fun henough _ => ?_⟩
  have hedges : ∀ e ∈ (t.get start).imports, (t.get e).kind ≠ .universal →
      e ∈ after ∨ e ∈ entered := fun e he hkind =>
    (h.edges e he henough hkind).imp_left fun he => h.ascent.grown he
  cases hp : (t.get start).parent with
  | none =>
    refine ⟨[start], List.mem_cons_self, fun id hid p hparent => ?_, by simp, fun id hid => ?_⟩
    · rw [List.mem_singleton.mp hid, hp] at hparent
      cases hparent
    · exact List.mem_singleton.mp hid ▸ hedges
  | some p =>
    obtain ⟨chain, hchain⟩ := (h.parent p hp).ascends (henough.parent hp) rfl
    refine ⟨start :: chain, List.mem_cons_self, fun id hid q hq => ?_, fun id hid => ?_,
      fun id hid => ?_⟩
    · rcases List.mem_cons.mp hid with rfl | hid
      · rw [hp] at hq
        cases hq
        exact List.mem_cons_of_mem _ hchain.start
      · exact List.mem_cons_of_mem _ (hchain.parent id hid q hq)
    · rcases List.mem_cons.mp hid with rfl | hid
      · exact List.mem_cons_self
      · exact List.mem_cons_of_mem _ (List.mem_append_right _ (hchain.seen hid))
    · rcases List.mem_cons.mp hid with rfl | hid
      · exact hedges
      · exact hchain.imports id hid

/-- Below an import, `start` is finished once its parts are. -/
theorem looked_below (h : t.Parts root marks entered depth false start before imported between
      upper after) (hreach : t.Reaches root true start) :
    t.Looked root entered (t.Enough marks entered (depth + 1) start) false start before
      (start :: (imported ++ upper)) (start :: after) := by
  have hall := h.covers hreach
  refine ⟨⟨fun id hid => List.mem_cons_of_mem _ (hall.grown hid), fun id hid => ?_, hall.sound,
    fun henough hbefore => ?_⟩, fun _ _ _ => List.mem_cons_self, fun _ => nofun⟩
  · rcases List.mem_cons.mp hid with rfl | hid
    · exact .inr List.mem_cons_self
    · exact hall.new id hid
  · have hafter := hall.explored henough hbefore
    intro x hx y hy hkind
    rcases List.mem_cons.mp hx with rfl | hx
    · rcases hy with hp | he
      · exact .inl (List.mem_cons_of_mem _
          ((h.parent y hp).finished (henough.parent hp) rfl hkind))
      · exact (h.edges y he henough hkind).imp_left fun hy =>
          List.mem_cons_of_mem _ (h.ascent.grown hy)
    · exact (hafter x hx y hy hkind).imp_left (List.mem_cons_of_mem _)

end Parts

/-- A lookup shows what can be seen, and all of it if it has enough steps. -/
theorem Linked.does_within (ht : t.Linked) (depth : Nat) (marks : Array Bool)
    (entered before : List ScopeId) (universal : Bool) (start : ScopeId) (hs : t.Has start)
    (hcomes : t.Comes root universal start) :
    Does t marks before (fun _ visit => Look.within visit depth universal start)
      (t.Looked root entered (t.Enough marks entered depth start) universal start before) := by
  induction depth generalizing marks entered before universal start with
  | zero =>
    have hnever : ¬ t.Enough marks entered 0 start := fun h => Nat.not_lt_zero _ h.depth
    exact Look.does_nothing ⟨.refl, fun h => absurd h hnever, fun h => absurd h hnever⟩
  | succ depth ih =>
    by_cases hopen : universal = true ∨ (t.get start).kind ≠ .universal ∧ start ∉ before
    · have hreach : t.Reaches root (!universal) start :=
        hcomes fun huniversal => (hopen.resolve_left (by simp [huniversal])).1
      refine Look.does_within hs hopen
        ((Look.does_offer (Q := fun seen after => seen = [start] ∧ after = before)
          ⟨rfl, rfl⟩).orElse ?_)
      rintro _ _ ⟨rfl, rfl⟩
      refine (Does.anyM (fun _ => .refl) Covers.trans
        (D := fun e after => t.Enough marks entered (depth + 1) start →
          (t.get e).kind ≠ .universal → e ∈ after ∨ e ∈ entered)
        (fun hcovers hd h hkind => (hd h hkind).imp_left fun he => hcovers.grown he) _
        fun e he before => does_enter_import ht hreach ih he before).orElse ?_
      rintro imported between ⟨himports, hedges⟩
      refine (does_parent ht hreach (ih _ entered _ _)).orElse ?_
      rintro upper after ⟨hupper, hparent⟩
      cases universal with
      | true =>
        refine Look.does_nothing ?_
        simpa using Parts.looked_top ⟨himports, hedges, hupper, hparent⟩ hreach
      | false =>
        refine Look.does_finish ?_
        simpa using Parts.looked_below ⟨himports, hedges, hupper, hparent⟩ hreach
    · obtain ⟨huniversal, hpassed⟩ := not_or.mp hopen
      rw [Bool.not_eq_true] at huniversal
      subst huniversal
      rw [not_and_or, not_not, not_not] at hpassed
      refine Look.does_within_passed hs hpassed ⟨.refl, fun _ _ hkind => ?_, fun _ => nofun⟩
      exact hpassed.resolve_left hkind

/-! ## Whole lookups -/

/-- A lookup from `start` shows the scopes `seen` in this order, and leaves the table as it
was. -/
def Shown (t : ScopeTable) (start : ScopeId) (seen : List ScopeId) : Prop :=
  ∀ (β : Type) (visit : Visit β) (found : β),
    t.look visit start found = .ok ((offerAll visit (seen.map t.get) found).1, t)

theorem Linked.exists_shown (ht : t.Linked) (hs : t.Has start) :
    ∃ seen after, t.Shown start seen ∧
      t.Looked start [] (t.Enough t.visiting [] t.depth start) true start [] seen after := by
  obtain ⟨seen, after, hshows, hlooked⟩ :=
    ht.does_within t.depth t.visiting [] [] true start hs fun _ => Reaches.here
  refine ⟨seen, after, fun β visit found => ?_, hlooked⟩
  obtain ⟨finished, hrun, -⟩ := hshows β visit found
  have hrun : (Look.within visit t.depth true start).run ⟨t, [], found⟩ = _ := hrun
  simp only [look, hrun]
  rfl

/-- Parents come before their children, and nothing is being looked through. -/
structure Ordered (t : ScopeTable) : Prop where
  parents : ∀ id p, (t.get id).parent = some p → p.index < id.index
  size : t.visiting.size = t.scopes.size
  idle : ∀ id, t.isVisiting id = false

theorem Ordered.steps (h : t.Ordered) (hs : t.Has start) (hdepth : t.depth ≤ depth) :
    t.Steps [] depth start := by
  refine ⟨h.parents, .nil, by simp, Nat.lt_of_lt_of_le ?_ hdepth⟩
  have hlt : start.index < t.scopes.size := hs
  rw [ScopeTable.depth, List.length_nil, Nat.sub_zero, Nat.add_mul]
  omega

theorem Ordered.entered_nil (h : t.Ordered) : t.Entered t.visiting [] := by
  refine ⟨h.size, fun id => ?_⟩
  have hidle := h.idle id
  rw [isVisiting] at hidle
  simp [hidle]

/-- In an ordered table a lookup shows exactly what can be seen. -/
theorem Ordered.exists_shown (h : t.Ordered) (ht : t.Linked) (hs : t.Has start) :
    ∃ seen, t.Shown start seen ∧ ∀ id, id ∈ seen ↔ t.Sees start id := by
  obtain ⟨seen, after, hshown, hlooked⟩ := ht.exists_shown hs
  have henough : t.Enough t.visiting [] t.depth start := ⟨h.steps hs (Nat.le_refl _), h.entered_nil⟩
  obtain ⟨chain, hchain⟩ := hlooked.ascends henough rfl
  have hexplored := hlooked.explored henough (by simp [Explored])
  -- Above the start a path stays on the chain, and below an import on finished scopes.
  have hreached : ∀ {below id}, t.Reaches start below id →
      if below then id ∈ after else id ∈ chain := by
    intro below id hreach
    induction hreach with
    | here => exact hchain.start
    | @parent below id p path edge enters ih =>
      cases below with
      | false => exact hchain.parent id ih p edge
      | true => simpa using hexplored id ih p (.inl edge) (enters rfl)
    | @imported below id e path edge enters ih =>
      cases below with
      | false => simpa using hchain.imports id ih e edge enters
      | true => simpa using hexplored id ih e (.inr edge) enters
  refine ⟨seen, hshown, fun id => ⟨hlooked.sound id, ?_⟩⟩
  rintro ⟨_ | _, hreach⟩
  · exact hchain.seen (hreached hreach)
  · simpa using hlooked.new id (hreached hreach)

end ScopeTable
end BlockLang
