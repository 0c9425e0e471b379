import BlockLang.Program.Compile

/-!
# Running tasks

`Triple task s Q E` says what a task does from the session `s`: if it returns,
`Q` holds of the result and the session it leaves; if it stops, `E` holds of the
reason and that session. `Returns` is the case in which it does not stop.

Every basic pass has a rule here, so that proofs about larger ones never look into
the monad.
-/

namespace BlockLang

def Triple (task : Task ε α) (s : Session) (Q : α → Session → Prop) (E : ε → Session → Prop) :
    Prop :=
  match task.start s with
  | (.ok a, s') => Q a s'
  | (.error e, s') => E e s'

/-- The task returns, and `Q` holds then. -/
abbrev Returns (task : Task ε α) (s : Session) (Q : α → Session → Prop) : Prop :=
  Triple task s Q fun _ _ => False

/-- `Q` holds if the task returns. -/
abbrev IfReturns (task : Task ε α) (s : Session) (Q : α → Session → Prop) : Prop :=
  Triple task s Q fun _ _ => True

section
variable {ε α β : Type} {s : Session} {E : ε → Session → Prop}

theorem start_bind (task : Task ε α) (f : α → Task ε β) (s : Session) :
    (task >>= f).start s =
      match task.start s with
      | (.ok a, s') => (f a).start s'
      | (.error e, s') => (.error e, s') := by
  show StateT.run (ExceptT.run (task >>= f)) s = _
  simp only [ExceptT.run_bind, StateT.run_bind, Task.start]
  rcases StateT.run (ExceptT.run task) s with ⟨_ | _, _⟩ <;> rfl

@[simp] theorem triple_bind {task : Task ε α} {f : α → Task ε β} {Q : β → Session → Prop} :
    Triple (task >>= f) s Q E ↔ Triple task s (fun a s' => Triple (f a) s' Q E) E := by
  unfold Triple
  rw [start_bind]
  rcases task.start s with ⟨_ | _, _⟩ <;> rfl

@[simp] theorem triple_pure {a : α} {Q : α → Session → Prop} :
    Triple (pure a : Task ε α) s Q E ↔ Q a s := Iff.rfl

@[simp] theorem triple_throw {e : ε} {Q : α → Session → Prop} :
    Triple (throw e : Task ε α) s Q E ↔ E e s := Iff.rfl

@[simp] theorem triple_map {task : Task ε α} {f : α → β} {Q : β → Session → Prop} :
    Triple (f <$> task) s Q E ↔ Triple task s (fun a s' => Q (f a) s') E := by
  rw [← bind_pure_comp]
  simp only [triple_bind, triple_pure]

@[simp] theorem triple_get {Q : Session → Session → Prop} :
    Triple (get : Task ε Session) s Q E ↔ Q s s := Iff.rfl

@[simp] theorem triple_set {s' : Session} {Q : PUnit → Session → Prop} :
    Triple (set s' : Task ε PUnit) s Q E ↔ Q () s' := Iff.rfl

@[simp] theorem triple_modify {f : Session → Session} {Q : PUnit → Session → Prop} :
    Triple (modify f : Task ε PUnit) s Q E ↔ Q () (f s) := Iff.rfl

@[simp] theorem triple_forM_nil {f : β → Task ε PUnit} {Q : PUnit → Session → Prop} :
    Triple (([] : List β).forM f) s Q E ↔ Q () s := Iff.rfl

@[simp] theorem triple_forM_cons {f : β → Task ε PUnit} {Q : PUnit → Session → Prop}
    {x : β} {xs : List β} :
    Triple ((x :: xs).forM f) s Q E ↔ Triple (f x) s (fun _ s' => Triple (xs.forM f) s' Q E) E :=
  triple_bind

@[simp] theorem triple_mapM_nil {f : β → Task ε α} {Q : List α → Session → Prop} :
    Triple (([] : List β).mapM f) s Q E ↔ Q [] s := Iff.rfl

@[simp] theorem triple_mapM_cons {f : β → Task ε α} {Q : List α → Session → Prop}
    {x : β} {xs : List β} :
    Triple ((x :: xs).mapM f) s Q E ↔
      Triple (f x) s (fun a s' => Triple (xs.mapM f) s' (fun as s'' => Q (a :: as) s'') E) E := by
  simp only [List.mapM_cons, triple_bind, triple_pure]

/-- A task for each element that only looks something up. -/
theorem triple_mapM_reads {f : β → Task ε α} {g : β → α} {Q : List α → Session → Prop}
    (bs : List β) (hf : ∀ b ∈ bs, ∀ Q : α → Session → Prop, Triple (f b) s Q E ↔ Q (g b) s) :
    Triple (bs.mapM f) s Q E ↔ Q (bs.map g) s := by
  induction bs generalizing Q with
  | nil => exact triple_mapM_nil
  | cons b bs ih =>
    rw [List.forall_mem_cons] at hf
    rw [triple_mapM_cons, hf.1, ih hf.2, List.map_cons]

/-- The reason for stopping is said in other words. -/
theorem triple_adapt {task : Task ε α} {f : ε → ε'} {Q : α → Session → Prop}
    {D : ε' → Session → Prop} :
    Triple (ExceptT.adapt f task) s Q D ↔ Triple task s Q fun e s' => D (f e) s' := by
  have hstart : Task.start (ExceptT.adapt f task) s =
      ((task.start s).1.mapError f, (task.start s).2) := rfl
  unfold Triple
  rw [hstart]
  rcases task.start s with ⟨_ | _, _⟩ <;> rfl

theorem Triple.mono {task : Task ε α} {P Q : α → Session → Prop} {D : ε → Session → Prop}
    (h : Triple task s P D) (hq : ∀ a s', P a s' → Q a s') (he : ∀ e s', D e s' → E e s') :
    Triple task s Q E := by
  unfold Triple at *
  cases hr : task.start s with
  | mk result s' =>
    rw [hr] at h
    cases result with
    | error e => exact he e s' h
    | ok a => exact hq a s' h

/-- Weakens only what holds of the result. -/
theorem Triple.imp {task : Task ε α} {P Q : α → Session → Prop}
    (h : Triple task s P E) (hq : ∀ a s', P a s' → Q a s') : Triple task s Q E :=
  h.mono hq fun _ _ he => he

/-- Two things hold of a result, of which one also says when there is none. -/
theorem Triple.and {task : Task ε α} {P Q : α → Session → Prop} (h : Triple task s P E)
    (h' : IfReturns task s Q) : Triple task s (fun a s' => P a s' ∧ Q a s') E := by
  unfold IfReturns Triple at *
  rcases hr : task.start s with ⟨_ | a, s'⟩ <;> rw [hr] at h h'
  · exact h
  · exact ⟨h, h'⟩

theorem ifReturns_start (task : Task ε α) (s : Session) :
    IfReturns task s fun a s' => task.start s = (.ok a, s') := by
  unfold IfReturns Triple
  rcases task.start s with ⟨_ | a, s'⟩
  · trivial
  · rfl

theorem ifReturns_bind {task : Task ε α} {f : α → Task ε β} {Q : β → Session → Prop}
    (h : ∀ a s', IfReturns (f a) s' Q) : IfReturns (task >>= f) s Q := by
  unfold IfReturns
  rw [triple_bind]
  unfold Triple
  rcases task.start s with ⟨_ | a, s'⟩
  · trivial
  · exact h a s'

/-- Every result belongs to one of the list. -/
theorem ifReturns_mapM {f : β → Task ε α} {P : β → α → Prop}
    (h : ∀ b s, IfReturns (f b) s fun a _ => P b a) (bs : List β) (s : Session) :
    IfReturns (bs.mapM f) s fun as _ => ∀ a ∈ as, ∃ b ∈ bs, P b a := by
  induction bs generalizing s with
  | nil => exact (triple_mapM_nil (E := fun _ _ => True)).mpr (by simp)
  | cons b bs ih =>
    refine triple_mapM_cons.mpr ((h b s).imp fun a s' ha => (ih s').imp fun as _ has => ?_)
    refine List.forall_mem_cons.mpr ⟨⟨b, List.mem_cons_self, ha⟩, fun a' ha' => ?_⟩
    obtain ⟨b', hb', hp⟩ := has a' ha'
    exact ⟨b', List.mem_cons_of_mem _ hb', hp⟩

/-- Whatever the task does before, `a` is what it returns. -/
def Gives (task : Task ε α) (a : α) : Prop := ∀ s, IfReturns task s fun b _ => b = a

theorem Gives.pure (a : α) : Gives (Pure.pure a : Task ε α) a := fun _ => rfl

theorem Gives.bind {task : Task ε α} {f : α → Task ε β} {b : β} (h : ∀ a, Gives (f a) b) :
    Gives (task >>= f) b := fun _ => ifReturns_bind fun a s' => h a s'

theorem Gives.ite {c : Prop} [Decidable c] {p q : Task ε α} {a : α} (hp : Gives p a)
    (hq : Gives q a) : Gives (if c then p else q) a := by
  split
  · exact hp
  · exact hq

/-- A task that never stops may be used wherever stopping has a meaning. -/
theorem Returns.triple {task : Task ε α} {Q : α → Session → Prop} (h : Returns task s Q) :
    Triple task s Q E :=
  h.mono (fun _ _ hq => hq) fun _ _ he => he.elim

theorem Triple.of_start {task : Task ε α} {Q : α → Session → Prop} {a : α} {s' : Session}
    (h : task.start s = (.ok a, s')) (hq : Q a s') : Triple task s Q E := by
  unfold Triple
  rw [h]
  exact hq

/-- What holds however a task ends holds of the session it leaves. -/
theorem Triple.left {task : Task ε α} {P : Session → Prop}
    (h : Triple task s (fun _ => P) fun _ => P) : P (task.start s).2 := by
  unfold Triple at h
  rcases hr : task.start s with ⟨_ | _, s'⟩ <;> rw [hr] at h <;> exact h

theorem Returns.exists {task : Task ε α} {Q : α → Session → Prop} (h : Returns task s Q) :
    ∃ a s', task.start s = (.ok a, s') ∧ Q a s' := by
  unfold Returns Triple at h
  rcases hr : task.start s with ⟨_ | a, s'⟩
  · rw [hr] at h
    exact h.elim
  · rw [hr] at h
    exact ⟨a, s', rfl, h⟩

end

-- ---------------------------------------------------------------------------
-- Hard diagnostics
-- ---------------------------------------------------------------------------

/-- Something has been reported that makes the program unusable. -/
def Session.Hurt (s : Session) : Prop := ∃ d ∈ s.report, d.severity.isHard = true

-- ---------------------------------------------------------------------------
-- Basic passes
-- ---------------------------------------------------------------------------

namespace Pass

variable {s : Session} {E : Fault → Session → Prop}

@[simp] theorem triple_tree {Q : Arena → Session → Prop} :
    Triple tree s Q E ↔ Q s.tree s := Iff.rfl

@[simp] theorem triple_types {Q : TypeTable → Session → Prop} :
    Triple types s Q E ↔ Q s.types s := Iff.rfl

@[simp] theorem triple_scopes {Q : ScopeTable → Session → Prop} :
    Triple scopes s Q E ↔ Q s.scopes s := Iff.rfl

@[simp] theorem triple_kindOf {id : NodeId} {Q : NodeKind → Session → Prop} :
    Triple (kindOf id) s Q E ↔ Q (s.tree.kind id) s := Iff.rfl

@[simp] theorem triple_spanOf {id : NodeId} {Q : Span → Session → Prop} :
    Triple (spanOf id) s Q E ↔ Q (s.tree.span id) s := Iff.rfl

@[simp] theorem triple_startOf {id : NodeId} {Q : Position → Session → Prop} :
    Triple (startOf id) s Q E ↔ Q (s.tree.span id).start s := Iff.rfl

@[simp] theorem triple_scopeOf {id : NodeId} {Q : ScopeId → Session → Prop} :
    Triple (scopeOf id) s Q E ↔ Q (s.tree.scope id) s := Iff.rfl

@[simp] theorem triple_childrenOf {id : NodeId} {Q : List NodeId → Session → Prop} :
    Triple (childrenOf id) s Q E ↔ Q (s.tree.children id) s := Iff.rfl

@[simp] theorem triple_child? {id : NodeId} {i : Nat} {Q : Option NodeId → Session → Prop} :
    Triple (child? id i) s Q E ↔ Q (s.tree.child? id i) s := Iff.rfl

@[simp] theorem triple_factsOf {id : NodeId} {Q : Facts → Session → Prop} :
    Triple (factsOf id) s Q E ↔ Q (s.tree.facts id) s := Iff.rfl

@[simp] theorem triple_declOf {id : DeclId} {Q : Decl → Session → Prop} :
    Triple (declOf id) s Q E ↔ Q (s.decl id) s := Iff.rfl

@[simp] theorem triple_modifyDecl {id : DeclId} {f : Decl → Decl} {Q : PUnit → Session → Prop} :
    Triple (modifyDecl id f) s Q E ↔ Q () (s.modifyDecl id f) := Iff.rfl

@[simp] theorem triple_editTree {f : Arena → Arena} {Q : PUnit → Session → Prop} :
    Triple (editTree f) s Q E ↔ Q () { s with tree := f s.tree } := Iff.rfl

@[simp] theorem triple_annotate {id : NodeId} {f : Facts → Facts} {Q : PUnit → Session → Prop} :
    Triple (annotate id f) s Q E ↔ Q () { s with tree := s.tree.annotate id f } := Iff.rfl

@[simp] theorem triple_takeChildren {id : NodeId} {Q : List NodeId → Session → Prop} :
    Triple (takeChildren id) s Q E ↔
      Q (s.tree.takeChildren id).1 { s with tree := (s.tree.takeChildren id).2 } := Iff.rfl

@[simp] theorem triple_report {d : Diagnostic} {Q : PUnit → Session → Prop} :
    Triple (report d) s Q E ↔ Q () { s with report := s.report ++ [d] } := Iff.rfl

@[simp] theorem triple_reportAt {id : NodeId} {p : Problem} {Q : PUnit → Session → Prop} :
    Triple (reportAt id p) s Q E ↔
      Q () { s with report := s.report ++ [.error p (s.tree.span id).start] } := Iff.rfl

@[simp] theorem triple_makeType {f : TypeTable → TypeId × TypeTable} {Q : TypeId → Session → Prop} :
    Triple (makeType f) s Q E ↔ Q (f s.types).1 { s with types := (f s.types).2 } := Iff.rfl

@[simp] theorem triple_onValues {f : Heap → α × Heap} {Q : α → Session → Prop} :
    Triple (onValues f) s Q E ↔ Q (f s.values).1 { s with values := (f s.values).2 } := Iff.rfl

@[simp] theorem triple_newTemp {id : NodeId} {Q : TempId → Session → Prop} :
    Triple (newTemp id) s Q E ↔ Q ⟨s.temps.size⟩ { s with temps := s.temps.push id } := Iff.rfl

theorem triple_tryTree {f : Arena → Except Fault Arena} {Q : PUnit → Session → Prop} :
    Triple (tryTree f) s Q E ↔
      match f s.tree with
      | .ok tree => Q () { s with tree }
      | .error fault => E fault s := by
  unfold tryTree
  simp only [triple_bind, triple_get]
  cases f s.tree <;> rfl

theorem triple_onValues? {f : Heap → Option (α × Heap)} {Q : Option α → Session → Prop} :
    Triple (onValues? f) s Q E ↔
      match f s.values with
      | none => Q none s
      | some (a, values) => Q (some a) { s with values } := by
  unfold onValues?
  simp only [triple_bind, triple_get]
  rcases f s.values with _ | ⟨a, values⟩ <;> rfl

theorem triple_lookUp {f : ScopeTable → Except Fault α} {Q : α → Session → Prop} :
    Triple (lookUp f) s Q E ↔
      match f s.scopes with
      | .ok a => Q a s
      | .error fault => E fault s := by
  unfold lookUp
  simp only [triple_bind, triple_get]
  cases f s.scopes <;> rfl

end Pass
end BlockLang
