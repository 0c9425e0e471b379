import BlockLang.Proofs.Scope.Closed
import BlockLang.Scope.Lookup

/-!
# Looking around

What a lookup does is said by the scopes it shows, in order: it offers them to the visitor
until that has enough, and however it ends, it leaves the marks of the scopes as they were
(`Shows`). Every part of a lookup has a rule for the scopes it shows and for those it has
looked through. No part of it looks at type definitions (`Blind`).
-/

namespace BlockLang

/-- Offers `scopes` one after the other until that is enough. -/
def offerAll (visit : Visit β) : List Scope → β → β × Bool
  | [], found => (found, false)
  | scope :: scopes, found =>
    match visit scope found with
    | (found, true) => (found, true)
    | (found, false) => offerAll visit scopes found

theorem offerAll_append (visit : Visit β) (xs ys : List Scope) (found : β) :
    offerAll visit (xs ++ ys) found =
      match offerAll visit xs found with
      | (found, true) => (found, true)
      | (found, false) => offerAll visit ys found := by
  induction xs generalizing found with
  | nil => rfl
  | cons x xs ih =>
    simp only [List.cons_append, offerAll]
    rcases visit x found with ⟨found', _ | _⟩
    · exact ih found'
    · rfl

namespace Look

variable {t : ScopeTable} {marks : Array Bool} {before : List ScopeId}
  {P Q : List ScopeId → List ScopeId → Prop}

theorem run_bind_ok {m : Look β α} {f : α → Look β γ} {sight sight' : Sight β} {a : α}
    (h : m.run sight = .ok (a, sight')) : (m >>= f).run sight = (f a).run sight' := by
  rw [StateT.run_bind, h]
  rfl

/-- A part of a lookup, for any visitor. -/
abbrev Part := (β : Type) → Visit β → Look β Bool

/-- Where the scopes are marked with `marks` and `before` have been looked through, `part`
offers the scopes `seen` until that is enough. It leaves the marks as they were, and unless
it stopped, `after` have been looked through then. -/
def Shows (t : ScopeTable) (marks : Array Bool) (before : List ScopeId) (part : Part)
    (seen after : List ScopeId) : Prop :=
  ∀ (β : Type) (visit : Visit β) (found : β), ∃ finished,
    (part β visit).run ⟨{ t with visiting := marks }, before, found⟩ =
      .ok ((offerAll visit (seen.map t.get) found).2,
        ⟨{ t with visiting := marks }, finished, (offerAll visit (seen.map t.get) found).1⟩) ∧
    ((offerAll visit (seen.map t.get) found).2 = false → finished = after)

/-- `part` shows some scopes, of which `Q` holds with those looked through in the end. -/
def Does (t : ScopeTable) (marks : Array Bool) (before : List ScopeId) (part : Part)
    (Q : List ScopeId → List ScopeId → Prop) : Prop :=
  ∃ seen after, Shows t marks before part seen after ∧ Q seen after

theorem Does.imp {part : Part} (h : Does t marks before part P)
    (hq : ∀ seen after, P seen after → Q seen after) : Does t marks before part Q := by
  obtain ⟨seen, after, hs, hp⟩ := h
  exact ⟨seen, after, hs, hq seen after hp⟩

theorem does_nothing (h : Q [] before) : Does t marks before (fun _ _ => pure false) Q :=
  ⟨[], before, fun _ _ _ => ⟨before, rfl, fun _ => rfl⟩, h⟩

theorem does_finish {start : ScopeId} (h : Q [] (start :: before)) :
    Does t marks before (fun _ _ => finish start) Q :=
  ⟨[], start :: before, fun _ _ _ => ⟨start :: before, rfl, fun _ => rfl⟩, h⟩

theorem does_offer {start : ScopeId} (h : Q [start] before) :
    Does t marks before (fun _ visit => offer visit (t.get start)) Q := by
  refine ⟨[start], before, fun β visit found => ⟨before, ?_, fun _ => rfl⟩, h⟩
  rcases hv : visit (t.get start) found with ⟨found', _ | _⟩ <;>
    simp only [offerAll, List.map_cons, List.map_nil, hv] <;>
    simp [offer, hv] <;> rfl

/-- The second part is for when the first one did not find enough. -/
theorem Does.orElse {first second : Part} (h : Does t marks before first P)
    (h' : ∀ seen after, P seen after →
      Does t marks after second fun seen' after' => Q (seen ++ seen') after') :
    Does t marks before (fun β visit => first β visit <||> second β visit) Q := by
  obtain ⟨seen, after, hs, hp⟩ := h
  obtain ⟨seen', after', hs', hq⟩ := h' seen after hp
  refine ⟨seen ++ seen', after', fun β visit found => ?_, hq⟩
  obtain ⟨finished, hrun, hfinished⟩ := hs β visit found
  rw [List.map_append, offerAll_append]
  rcases ho : offerAll visit (seen.map t.get) found with ⟨found', _ | _⟩
  · rw [ho] at hrun hfinished
    obtain ⟨finished', hrun', hfinished'⟩ := hs' β visit found'
    obtain rfl := hfinished rfl
    refine ⟨finished', ?_, hfinished'⟩
    unfold orM
    rw [run_bind_ok hrun]
    exact hrun'
  · rw [ho] at hrun
    refine ⟨finished, ?_, fun h => by cases h⟩
    unfold orM
    rw [run_bind_ok hrun]
    rfl

theorem anyM_cons {f : α → Look β Bool} (x : α) (xs : List α) :
    (x :: xs).anyM f = (f x <||> xs.anyM f) := by
  refine bind_congr fun b => ?_
  cases b <;> rfl

/-- The parts of a list are tried one after the other. What holds of each, and is kept by the
later ones, holds of all in the end. -/
theorem Does.anyM {part : ScopeId → Part} {R : List ScopeId → List ScopeId → List ScopeId → Prop}
    {D : ScopeId → List ScopeId → Prop} (hnil : ∀ before, R before [] before)
    (htrans : ∀ {before seen after seen' after'}, R before seen after → R after seen' after' →
      R before (seen ++ seen') after')
    (hkeep : ∀ {id before seen after}, R before seen after → D id before → D id after)
    (ids : List ScopeId)
    (h : ∀ id ∈ ids, ∀ before, Does t marks before (part id) fun seen after =>
      R before seen after ∧ D id after) :
    Does t marks before (fun β visit => ids.anyM fun id => part id β visit) fun seen after =>
      R before seen after ∧ ∀ id ∈ ids, D id after := by
  induction ids generalizing before with
  | nil => exact does_nothing ⟨hnil before, by simp⟩
  | cons id ids ih =>
    simp only [anyM_cons]
    refine (h id List.mem_cons_self before).orElse fun seen after ⟨hr, hd⟩ => ?_
    refine (ih fun id hid => h id (List.mem_cons_of_mem _ hid)).imp fun _ _ ⟨hr', hds⟩ => ?_
    exact ⟨htrans hr hr', List.forall_mem_cons.mpr ⟨hkeep hr' hd, hds⟩⟩

/-! ## Imports -/

/-- The marks with that of `id` set. -/
abbrev marked (marks : Array Bool) (id : ScopeId) : Array Bool :=
  marks.setIfInBounds id.index true

theorem scopeOf_run {id : ScopeId} (h : t.Has id) (found : β) :
    (scopeOf id).run ⟨{ t with visiting := marks }, before, found⟩ =
      .ok (t.get id, ⟨{ t with visiting := marks }, before, found⟩) := by
  obtain ⟨scope, hscope, hfind⟩ := ScopeTable.find_eq_ok h
  have hget : t.get id = scope := by simp [ScopeTable.get, hscope]
  have hfind : ({ t with visiting := marks } : ScopeTable).find id = .ok scope := hfind
  simp only [scopeOf, StateT.run_bind, StateT.run_get, pure_bind, hfind, hget]
  rfl

theorem mark_run (id : ScopeId) (visiting : Bool) (found : β) :
    (mark id visiting).run ⟨{ t with visiting := marks }, before, found⟩ =
      .ok ((), ⟨{ t with visiting := marks.setIfInBounds id.index visiting }, before, found⟩) :=
  rfl

/-- An import that is being looked through is not entered. -/
theorem does_enter_marked {id : ScopeId} {part : ScopeId → Part} (hid : t.Has id)
    (hmark : marks[id.index]?.getD false = true) (h : Q [] before) :
    Does t marks before (fun β visit => enter (fun id => part id β visit) id) Q := by
  refine ⟨[], before, fun β visit found => ⟨before, ?_, fun _ => rfl⟩, h⟩
  unfold enter
  rw [run_bind_ok (scopeOf_run hid found)]
  simp [ScopeTable.isVisiting, hmark, offerAll]
  rfl

/-- Setting a mark that was clear and clearing it again changes nothing. -/
theorem set_set_marks {i : Nat} (hmark : marks[i]?.getD false = false) :
    (marks.setIfInBounds i true).setIfInBounds i false = marks := by
  refine Array.ext_getElem? fun j => ?_
  by_cases hij : i = j
  · subst hij
    by_cases hi : i < marks.size
    · simp_all
    · simp [hi]
  · simp [Array.getElem?_setIfInBounds_ne hij]

/-- Any other import is looked through with its mark set. -/
theorem does_enter {id : ScopeId} {part : ScopeId → Part} (hid : t.Has id)
    (hmark : marks[id.index]?.getD false = false)
    (h : Does t (marked marks id) before (part id) Q) :
    Does t marks before (fun β visit => enter (fun id => part id β visit) id) Q := by
  obtain ⟨seen, after, hs, hq⟩ := h
  refine ⟨seen, after, fun β visit found => ?_, hq⟩
  obtain ⟨finished, hrun, hfinished⟩ := hs β visit found
  refine ⟨finished, ?_, hfinished⟩
  unfold enter
  rw [run_bind_ok (scopeOf_run hid found), run_bind_ok (StateT.run_get _)]
  simp only [ScopeTable.isVisiting, hmark, Bool.false_eq_true, if_false]
  rw [run_bind_ok (mark_run id true found), run_bind_ok hrun, run_bind_ok (mark_run id false _),
    set_set_marks hmark]
  rfl

/-! ## Scopes -/

variable {start : ScopeId}

/-- A scope that is left out below an import. -/
theorem does_within_passed {depth : Nat} (hs : t.Has start)
    (hpassed : (t.get start).kind = .universal ∨ start ∈ before) (h : Q [] before) :
    Does t marks before (fun _ visit => within visit (depth + 1) false start) Q := by
  refine ⟨[], before, fun β visit found => ⟨before, ?_, fun _ => rfl⟩, h⟩
  unfold within
  rw [run_bind_ok (scopeOf_run hs found)]
  simp [isPassed, hpassed, offerAll]
  rfl

/-- Any other scope is offered, then its imports and its parent are looked through. -/
theorem does_within {depth : Nat} {universal : Bool} (hs : t.Has start)
    (hopen : universal = true ∨ (t.get start).kind ≠ .universal ∧ start ∉ before)
    (h : Does t marks before (fun _ visit => offer visit (t.get start)
        <||> (t.get start).imports.anyM (enter (within visit depth false))
        <||> (t.get start).parent.elim (pure false) (within visit depth universal)
        <||> if universal then pure false else finish start) Q) :
    Does t marks before (fun _ visit => within visit (depth + 1) universal start) Q := by
  obtain ⟨seen, after, hshows, hq⟩ := h
  refine ⟨seen, after, fun β visit found => ?_, hq⟩
  obtain ⟨finished, hrun, hfinished⟩ := hshows β visit found
  refine ⟨finished, ?_, hfinished⟩
  rw [← hrun]
  unfold within
  rw [run_bind_ok (scopeOf_run hs found)]
  cases universal with
  | true => rfl
  | false =>
    have hopen : ¬((t.get start).kind = .universal ∨ start ∈ before) := by simpa using hopen
    simp [isPassed, hopen]

end Look

/-! ## Type definitions -/

/-- The table with other type definitions. -/
def ScopeTable.withDefs (t : ScopeTable) (typeDefs : Array TypeDef) : ScopeTable :=
  { t with typeDefs }

def Sight.withDefs (sight : Sight β) (typeDefs : Array TypeDef) : Sight β :=
  { sight with table := sight.table.withDefs typeDefs }

namespace Look

/-- `m` does the same whatever the type definitions are, and keeps them. -/
def Blind (m : Look β α) : Prop :=
  ∀ sight typeDefs, m.run (sight.withDefs typeDefs) =
    (m.run sight).map fun r => (r.1, r.2.withDefs typeDefs)

theorem Blind.pure (a : α) : Blind (Pure.pure a : Look β α) := fun _ _ => rfl

theorem Blind.bind {m : Look β α} {f : α → Look β γ} (h : Blind m) (hf : ∀ a, Blind (f a)) :
    Blind (m >>= f) := by
  intro sight typeDefs
  rw [StateT.run_bind, StateT.run_bind, h sight typeDefs]
  cases m.run sight with
  | error fault => rfl
  | ok r => exact hf r.1 r.2 typeDefs

theorem Blind.reads {f : Sight β → Look β α} (h : ∀ sight, Blind (f sight))
    (hf : ∀ sight typeDefs, f (sight.withDefs typeDefs) = f sight) : Blind (get >>= f) := by
  intro sight typeDefs
  rw [StateT.run_bind, StateT.run_get, pure_bind, StateT.run_bind, StateT.run_get, pure_bind]
  show (f (sight.withDefs typeDefs)).run (sight.withDefs typeDefs) = _
  rw [hf]
  exact h sight sight typeDefs

theorem Blind.orElse {m m' : Look β Bool} (h : Blind m) (h' : Blind m') :
    Blind (m <||> m') := by
  refine h.bind fun enough => ?_
  cases enough with
  | true => exact .pure true
  | false => exact h'

theorem Blind.anyM {f : α → Look β Bool} (h : ∀ a, Blind (f a)) (as : List α) :
    Blind (as.anyM f) := by
  induction as with
  | nil => exact .pure false
  | cons a as ih =>
    rw [anyM_cons]
    exact (h a).orElse ih

theorem blind_scopeOf (id : ScopeId) : Blind (scopeOf id : Look β Scope) := by
  refine .reads (fun sight => ?_) fun _ _ => rfl
  intro sight' typeDefs
  cases sight.table.find id <;> rfl

theorem blind_enter {look : ScopeId → Look β Bool} (h : ∀ id, Blind (look id)) (id : ScopeId) :
    Blind (enter look id) := by
  have hmark : ∀ visiting, Blind (mark id visiting : Look β Unit) := fun _ _ _ => rfl
  refine (blind_scopeOf id).bind fun _ => .reads (fun sight => ?_) fun _ _ => rfl
  split
  · exact .pure false
  · exact (hmark true).bind fun _ => (h id).bind fun enough =>
      (hmark false).bind fun _ => .pure enough

theorem blind_within (visit : Visit β) (depth : Nat) (universal : Bool) (start : ScopeId) :
    Blind (within visit depth universal start) := by
  induction depth generalizing universal start with
  | zero => exact .pure false
  | succ depth ih =>
    have hoffer : ∀ scope, Blind (offer visit scope) := fun _ _ _ => rfl
    have hfinish : Blind (finish start : Look β Bool) := fun _ _ => rfl
    have hpassed : ∀ scope, Blind (isPassed scope start : Look β Bool) := fun _ _ _ => rfl
    refine (blind_scopeOf start).bind fun scope => ?_
    have hlook : Blind (offer visit scope
        <||> scope.imports.anyM (enter (within visit depth false))
        <||> scope.parent.elim (Pure.pure false) (within visit depth universal)
        <||> if universal then Pure.pure false else finish start) := by
      refine (hoffer scope).orElse ((Blind.anyM (blind_enter (ih false)) _).orElse
        (Blind.orElse ?_ ?_))
      · cases scope.parent with
        | none => exact .pure false
        | some parent => exact ih universal parent
      · cases universal with
        | true => exact .pure false
        | false => exact hfinish
    cases universal with
    | true => exact hlook
    | false =>
      refine (hpassed scope).bind fun passed => ?_
      cases passed with
      | true => exact .pure false
      | false => exact hlook

end Look

/-- Names of types are found whatever the definitions are. -/
theorem ScopeTable.findType?_withDefs (t : ScopeTable) (typeDefs : Array TypeDef)
    (start : ScopeId) (name : String) :
    (t.withDefs typeDefs).findType? start name = t.findType? start name := by
  let visit : Visit (Option TypeDefId) := takeFirst (·.types.lookup name)
  have hlook : (Look.within visit (t.withDefs typeDefs).depth true start).run
      ⟨t.withDefs typeDefs, [], none⟩ = _ :=
    Look.blind_within visit t.depth true start ⟨t, [], none⟩ typeDefs
  unfold findType? first? look
  rw [hlook]
  cases (Look.within visit t.depth true start).run ⟨t, [], none⟩ <;> rfl

end BlockLang
