import BlockLang.Proofs.Scope.Found

/-!
# What a lookup leaves out

A lookup passes over what it has looked through below an import. What it shows (`sweep`) is
compared here with the scopes that a traversal without such a memory comes to (`tour`): one
that enters an import again whenever it is not being looked through, and comes to many scopes
more than once.

Nothing can be entered from a finished scope but finished scopes, unless it is an import that
is being looked through (`Swept`). So what is passed over would show nothing new, and the
scopes are shown for the first time in the same order (`Ordered.exists_shown_tour`). Neither
the one nor the other gets anywhere new with more steps than `depth`.
-/

namespace BlockLang

namespace ScopeTable

open Look (Does)

variable {t : ScopeTable} {start : ScopeId} {marks : Array Bool} {depth depth' : Nat}
  {universal : Bool} {entered before : List ScopeId}

-- ---------------------------------------------------------------------------
-- Without a memory
-- ---------------------------------------------------------------------------

/-- The scopes that are come to from `start`, again and again, where the scopes `entered` are
being looked through. -/
def tour (t : ScopeTable) : Nat → List ScopeId → Bool → ScopeId → List ScopeId
  | 0, _, _, _ => []
  | depth + 1, entered, universal, start =>
    if universal = false ∧ (t.get start).kind = .universal then []
    else
      start :: ((t.get start).imports.flatMap fun e =>
          if e ∈ entered then [] else t.tour depth (e :: entered) false e) ++
        (t.get start).parent.elim [] (t.tour depth entered universal)

/-- A tour with enough steps goes on as far as it can. -/
theorem Linked.tour_eq (ht : t.Linked) (h : t.Steps entered depth start)
    (h' : t.Steps entered depth' start) (universal : Bool) :
    t.tour depth entered universal start = t.tour depth' entered universal start := by
  induction depth generalizing depth' entered universal start with
  | zero => exact absurd h.depth (Nat.not_lt_zero _)
  | succ depth ih =>
    cases depth' with
    | zero => exact absurd h'.depth (Nat.not_lt_zero _)
    | succ depth' =>
      have himports : ∀ e ∈ (t.get start).imports,
          (if e ∈ entered then [] else t.tour depth (e :: entered) false e) =
            if e ∈ entered then [] else t.tour depth' (e :: entered) false e := by
        intro e he
        have hin := ht.imports he
        split
        · rfl
        · next hnew => exact ih (h.imported hin hnew) (h'.imported hin hnew) _
      have hparent : (t.get start).parent.elim [] (t.tour depth entered universal) =
          (t.get start).parent.elim [] (t.tour depth' entered universal) := by
        cases hp : (t.get start).parent with
        | none => rfl
        | some p => exact ih (h.parent hp) (h'.parent hp) _
      rw [tour, tour, List.flatMap_congr himports, hparent]

-- ---------------------------------------------------------------------------
-- With a memory
-- ---------------------------------------------------------------------------

/-- What a part of a lookup shows where some scopes have been looked through, and which ones
have been then. -/
abbrev Sweep := List ScopeId → List ScopeId × List ScopeId

namespace Sweep

def nothing : Sweep := fun before => ([], before)

def shows (id : ScopeId) : Sweep := fun before => ([id], before)

def finishes (id : ScopeId) : Sweep := fun before => ([], id :: before)

def andThen (f g : Sweep) : Sweep := fun before =>
  ((f before).1 ++ (g (f before).2).1, (g (f before).2).2)

def inTurn (f : ScopeId → Sweep) : List ScopeId → Sweep
  | [] => nothing
  | id :: ids => (f id).andThen (inTurn f ids)

theorem andThen_assoc (f g h : Sweep) :
    (f.andThen g).andThen h = f.andThen (g.andThen h) := by
  funext before
  simp only [andThen, List.append_assoc]

theorem andThen_nothing (f : Sweep) : f.andThen nothing = f := by
  funext before
  simp only [andThen, nothing, List.append_nil]

theorem inTurn_congr {f g : ScopeId → Sweep} {ids : List ScopeId} (h : ∀ id ∈ ids, f id = g id) :
    inTurn f ids = inTurn g ids := by
  induction ids with
  | nil => rfl
  | cons id ids ih =>
    rw [inTurn, inTurn, h id List.mem_cons_self, ih fun e he => h e (List.mem_cons_of_mem _ he)]

end Sweep

open Sweep (nothing shows finishes inTurn)

/-- What a lookup shows from `start`, where the scopes `entered` are being looked through. -/
def sweep (t : ScopeTable) : Nat → List ScopeId → Bool → ScopeId → Sweep
  | 0, _, _, _ => nothing
  | depth + 1, entered, universal, start => fun before =>
    if universal = false ∧ ((t.get start).kind = .universal ∨ start ∈ before) then ([], before)
    else
      ((shows start).andThen <|
        (inTurn (fun e => if e ∈ entered then nothing else t.sweep depth (e :: entered) false e)
          (t.get start).imports).andThen <|
        ((t.get start).parent.elim nothing (t.sweep depth entered universal)).andThen <|
        if universal then nothing else finishes start) before

/-- A sweep with enough steps goes on as far as it can. -/
theorem Linked.sweep_eq (ht : t.Linked) (h : t.Steps entered depth start)
    (h' : t.Steps entered depth' start) (universal : Bool) :
    t.sweep depth entered universal start = t.sweep depth' entered universal start := by
  induction depth generalizing depth' entered universal start with
  | zero => exact absurd h.depth (Nat.not_lt_zero _)
  | succ depth ih =>
    cases depth' with
    | zero => exact absurd h'.depth (Nat.not_lt_zero _)
    | succ depth' =>
      have himports : ∀ e ∈ (t.get start).imports,
          (if e ∈ entered then nothing else t.sweep depth (e :: entered) false e) =
            if e ∈ entered then nothing else t.sweep depth' (e :: entered) false e := by
        intro e he
        have hin := ht.imports he
        split
        · rfl
        · next hnew => exact ih (h.imported hin hnew) (h'.imported hin hnew) _
      have hparent : (t.get start).parent.elim nothing (t.sweep depth entered universal) =
          (t.get start).parent.elim nothing (t.sweep depth' entered universal) := by
        cases hp : (t.get start).parent with
        | none => rfl
        | some p => exact ih (h.parent hp) (h'.parent hp) _
      rw [sweep, sweep, Sweep.inTurn_congr himports, hparent]

/-- The scopes shown by a part of a lookup are those of a sweep. -/
def Sweeps (t : ScopeTable) (marks : Array Bool) (part : Look.Part) (f : Sweep) : Prop :=
  ∀ before, Does t marks before part fun seen after => (seen, after) = f before

theorem Sweeps.andThen {first second : Look.Part} {f g : Sweep} (h : t.Sweeps marks first f)
    (h' : t.Sweeps marks second g) :
    t.Sweeps marks (fun β visit => first β visit <||> second β visit) (f.andThen g) := by
  refine fun before => (h before).orElse fun seen after hf => (h' after).imp ?_
  intro seen' after' hg
  rw [Sweep.andThen, ← hf, ← hg]

theorem sweeps_nothing : t.Sweeps marks (fun _ _ => pure false) nothing :=
  fun _ => Look.does_nothing rfl

theorem sweeps_inTurn {part : ScopeId → Look.Part} {f : ScopeId → Sweep} {ids : List ScopeId}
    (h : ∀ id ∈ ids, t.Sweeps marks (part id) (f id)) :
    t.Sweeps marks (fun β visit => ids.anyM fun id => part id β visit) (inTurn f ids) := by
  induction ids with
  | nil => exact sweeps_nothing
  | cons id ids ih =>
    simp only [Look.anyM_cons]
    exact (h id List.mem_cons_self).andThen (ih fun e he => h e (List.mem_cons_of_mem _ he))

/-- A lookup shows the scopes of the sweep. -/
theorem Linked.sweeps_within (ht : t.Linked) (hmarks : t.Entered marks entered) (depth : Nat)
    (universal : Bool) (hs : t.Has start) :
    t.Sweeps marks (fun _ visit => Look.within visit depth universal start)
      (t.sweep depth entered universal start) := by
  induction depth generalizing marks entered universal start with
  | zero => exact sweeps_nothing
  | succ depth ih =>
    intro before
    by_cases hpassed : universal = false ∧ ((t.get start).kind = .universal ∨ start ∈ before)
    · simp only [sweep, if_pos hpassed]
      obtain ⟨rfl, hpassed⟩ := hpassed
      exact Look.does_within_passed hs hpassed rfl
    · simp only [sweep, if_neg hpassed]
      rw [not_and_or, Bool.not_eq_false, not_or] at hpassed
      have himports : t.Sweeps marks
          (fun _ visit => (t.get start).imports.anyM (Look.enter (Look.within visit depth false)))
          (inTurn (fun e => if e ∈ entered then nothing else t.sweep depth (e :: entered) false e)
            (t.get start).imports) := by
        refine sweeps_inTurn fun e he before => ?_
        have hin := ht.imports he
        cases hmark : marks[e.index]?.getD false with
        | true =>
          exact Look.does_enter_marked hin hmark (by rw [if_pos ((hmarks.marked e).mp hmark)]; rfl)
        | false =>
          rw [if_neg (hmarks.not_mem hmark)]
          exact Look.does_enter hin hmark (ih (hmarks.enter hin) false hin before)
      have hparent : t.Sweeps marks
          (fun _ visit =>
            (t.get start).parent.elim (pure false) (Look.within visit depth universal))
          ((t.get start).parent.elim nothing (t.sweep depth entered universal)) := by
        cases hp : (t.get start).parent with
        | none => exact sweeps_nothing
        | some p => exact ih hmarks universal (ht.parent hp)
      have hend : t.Sweeps marks
          (fun _ _ => if universal then pure false else Look.finish start)
          (if universal then nothing else finishes start) := by
        cases universal with
        | true => exact sweeps_nothing
        | false => exact fun _ => Look.does_finish rfl
      have hoffer : t.Sweeps marks (fun _ visit => Look.offer visit (t.get start)) (shows start) :=
        fun _ => Look.does_offer rfl
      exact Look.does_within hs hpassed
        (hoffer.andThen (himports.andThen (hparent.andThen hend)) before)

-- ---------------------------------------------------------------------------
-- The same order
-- ---------------------------------------------------------------------------

/-- What one may enter from a finished scope is finished, unless it is an import that is being
looked through. -/
def Swept (t : ScopeTable) (entered finished : List ScopeId) : Prop :=
  ∀ x ∈ finished,
    (∀ p, (t.get x).parent = some p → (t.get p).kind ≠ .universal → p ∈ finished) ∧
    ∀ e ∈ (t.get x).imports, (t.get e).kind ≠ .universal → e ∈ finished ∨ e ∈ entered

variable {finished : List ScopeId}

/-- From a finished scope a tour comes to finished scopes only. -/
theorem Swept.tour_subset (h : t.Swept entered finished) (depth : Nat) {entered' : List ScopeId}
    (hentered : entered ⊆ entered') (hs : (t.get start).kind ≠ .universal → start ∈ finished) :
    t.tour depth entered' false start ⊆ finished := by
  induction depth generalizing entered' start with
  | zero => exact List.nil_subset _
  | succ depth ih =>
    rw [tour]
    split
    · exact List.nil_subset _
    · next hopen =>
      have hstart : start ∈ finished := hs fun hkind => hopen ⟨rfl, hkind⟩
      obtain ⟨hparent, himports⟩ := h start hstart
      refine List.append_subset.mpr ⟨List.cons_subset.mpr ⟨hstart, fun id hid => ?_⟩, ?_⟩
      · obtain ⟨e, he, hid⟩ := List.mem_flatMap.mp hid
        split at hid
        · cases hid
        · next hnew =>
          refine ih (fun x hx => List.mem_cons_of_mem _ (hentered hx)) (fun hkind => ?_) hid
          exact (himports e he hkind).resolve_right fun hmem => hnew (hentered hmem)
      · cases hp : (t.get start).parent with
        | none => exact List.nil_subset _
        | some p => exact ih hentered (hparent p hp)

/-- A part of a lookup, where `before` have been looked through, comes to the scopes of `tour`
for the first time in the order of the tour. -/
structure Follows (t : ScopeTable) (entered before : List ScopeId)
    (shown : List ScopeId × List ScopeId) (tour : List ScopeId) : Prop where
  grown : before ⊆ shown.2
  new : ∀ id ∈ shown.2, id ∈ before ∨ id ∈ shown.1
  swept : t.Swept entered before → t.Swept entered shown.2
  order : t.Swept entered before → ∀ known, before ⊆ known →
    distinct known shown.1 = distinct known tour

section
variable {f g : Sweep} {τ σ : List ScopeId} {shown : List ScopeId × List ScopeId} {e : ScopeId}

theorem follows_nothing : t.Follows entered before (nothing before) [] :=
  ⟨List.Subset.refl _, fun _ => .inl, id, fun _ _ _ => rfl⟩

theorem follows_shows (start : ScopeId) : t.Follows entered before (shows start before) [start] :=
  ⟨List.Subset.refl _, fun _ => .inl, id, fun _ _ _ => rfl⟩

theorem Follows.andThen (h : t.Follows entered before (f before) τ)
    (h' : t.Follows entered (f before).2 (g (f before).2) σ) :
    t.Follows entered before (f.andThen g before) (τ ++ σ) := by
  refine ⟨List.Subset.trans h.grown h'.grown, fun id hid => ?_, h'.swept ∘ h.swept,
    fun hs known hknown => ?_⟩
  · rcases h'.new id hid with hid | hid
    · exact (h.new id hid).imp_right (List.mem_append_left _)
    · exact .inr (List.mem_append_right _ hid)
  · have hmiddle : (f before).2 ⊆ known ++ distinct known (f before).1 := by
      intro id hid
      rcases h.new id hid with hid | hid
      · exact List.mem_append_left _ (hknown hid)
      · by_cases hold : id ∈ known
        · exact List.mem_append_left _ hold
        · exact List.mem_append_right _ (mem_distinct.mpr ⟨hid, hold⟩)
    rw [Sweep.andThen, distinct_append, distinct_append, h'.order (h.swept hs) _ hmiddle,
      h.order hs known hknown]

theorem follows_inTurn {f : ScopeId → Sweep} {tours : ScopeId → List ScopeId} {ids : List ScopeId}
    (before : List ScopeId)
    (h : ∀ id ∈ ids, ∀ before, t.Follows entered before (f id before) (tours id) ∧
      ((t.get id).kind ≠ .universal → id ∈ (f id before).2 ∨ id ∈ entered)) :
    t.Follows entered before (inTurn f ids before) (ids.flatMap tours) ∧
      ∀ id ∈ ids, (t.get id).kind ≠ .universal → id ∈ (inTurn f ids before).2 ∨ id ∈ entered := by
  induction ids generalizing before with
  | nil => exact ⟨follows_nothing, by simp⟩
  | cons id ids ih =>
    obtain ⟨hfirst, hid⟩ := h id List.mem_cons_self before
    obtain ⟨hrest, hids⟩ :=
      ih (f id before).2 fun other hother => h other (List.mem_cons_of_mem _ hother)
    refine ⟨hfirst.andThen hrest, List.forall_mem_cons.mpr ⟨fun hkind => ?_, hids⟩⟩
    exact (hid hkind).imp_left fun hmem => hrest.grown hmem

/-- An import that has been looked through is finished. -/
theorem Follows.leave (h : t.Follows (e :: entered) before shown τ)
    (he : (t.get e).kind ≠ .universal → e ∈ shown.2) : t.Follows entered before shown τ := by
  have henter : t.Swept entered before → t.Swept (e :: entered) before := fun hs x hx =>
    ⟨(hs x hx).1, fun y hy hkind => ((hs x hx).2 y hy hkind).imp_right (List.mem_cons_of_mem _)⟩
  refine ⟨h.grown, h.new, fun hs x hx => ?_, fun hs => h.order (henter hs)⟩
  obtain ⟨hparent, himports⟩ := h.swept (henter hs) x hx
  refine ⟨hparent, fun y hy hkind => ?_⟩
  rcases himports y hy hkind with hmem | hmem
  · exact .inl hmem
  · rcases List.mem_cons.mp hmem with rfl | hmem
    · exact .inl (he hkind)
    · exact .inr hmem

/-- A scope is finished after its imports and its parent. -/
theorem Follows.finish (h : t.Follows entered before (f before) τ) (hs : start ∈ (f before).1)
    (hparent : ∀ p, (t.get start).parent = some p → (t.get p).kind ≠ .universal →
      p ∈ (f before).2)
    (himports : ∀ e ∈ (t.get start).imports, (t.get e).kind ≠ .universal →
      e ∈ (f before).2 ∨ e ∈ entered) :
    t.Follows entered before (f.andThen (finishes start) before) τ := by
  rw [Sweep.andThen, finishes, List.append_nil]
  refine ⟨fun x hx => List.mem_cons_of_mem _ (h.grown hx),
    List.forall_mem_cons.mpr ⟨.inr hs, h.new⟩, fun hswept => ?_, h.order⟩
  refine List.forall_mem_cons.mpr ⟨⟨?_, ?_⟩, fun x hx => ⟨?_, ?_⟩⟩
  · exact fun p hp hkind => List.mem_cons_of_mem _ (hparent p hp hkind)
  · exact fun e he hkind => (himports e he hkind).imp_left (List.mem_cons_of_mem _)
  · exact fun p hp hkind => List.mem_cons_of_mem _ ((h.swept hswept x hx).1 p hp hkind)
  · exact fun e he hkind =>
      ((h.swept hswept x hx).2 e he hkind).imp_left (List.mem_cons_of_mem _)

/-- A scope is shown, then its imports are looked through, then its parent. -/
theorem follows_parts (hf : t.Follows entered before (f before) τ)
    (hg : t.Follows entered (f before).2 (g (f before).2) σ)
    (himports : ∀ e ∈ (t.get start).imports, (t.get e).kind ≠ .universal →
      e ∈ (f before).2 ∨ e ∈ entered)
    (hparent : ∀ p, (t.get start).parent = some p → universal = false →
      (t.get p).kind ≠ .universal → p ∈ (g (f before).2).2) :
    let all := (shows start).andThen <| f.andThen <| g.andThen <|
      if universal then nothing else finishes start
    t.Follows entered before (all before) (start :: τ ++ σ) ∧
      (universal = false → start ∈ (all before).2) := by
  have hall : t.Follows entered before (((shows start).andThen (f.andThen g)) before)
      ([start] ++ (τ ++ σ)) := (follows_shows start).andThen (hf.andThen hg)
  cases universal with
  | true => exact ⟨by simpa [Sweep.andThen_nothing] using hall, nofun⟩
  | false =>
    have hend := hall.finish List.mem_cons_self (fun p hp => hparent p hp rfl)
      fun e he hkind => (himports e he hkind).imp_left fun hmem => hg.grown hmem
    rw [Sweep.andThen_assoc, Sweep.andThen_assoc] at hend
    exact ⟨by simpa using hend, fun _ => List.mem_cons_self⟩

end

/-- With enough steps a sweep follows the tour, and below an import its start is finished. -/
theorem Linked.follows_sweep (ht : t.Linked) (hsteps : t.Steps entered depth start)
    (universal : Bool) (before : List ScopeId) :
    t.Follows entered before (t.sweep depth entered universal start before)
        (t.tour depth entered universal start) ∧
      (universal = false → (t.get start).kind ≠ .universal →
        start ∈ (t.sweep depth entered universal start before).2) := by
  induction depth generalizing entered universal start before with
  | zero => exact absurd hsteps.depth (Nat.not_lt_zero _)
  | succ depth ih =>
    by_cases hpassed : universal = false ∧ ((t.get start).kind = .universal ∨ start ∈ before)
    · simp only [sweep, if_pos hpassed]
      obtain ⟨rfl, hpassed⟩ := hpassed
      have hfinished := fun hkind => hpassed.resolve_left hkind
      refine ⟨⟨List.Subset.refl _, fun _ => .inl, id, fun hswept known hknown => ?_⟩,
        fun _ => hfinished⟩
      have hsubset := List.Subset.trans
        (hswept.tour_subset (depth + 1) (List.Subset.refl _) hfinished) hknown
      refine (List.eq_nil_iff_forall_not_mem.mpr fun id hid => ?_).symm
      exact (mem_distinct.mp hid).2 (hsubset (mem_distinct.mp hid).1)
    · have hopen : ¬(universal = false ∧ (t.get start).kind = .universal) :=
        fun h => hpassed ⟨h.1, .inl h.2⟩
      have himports : t.Follows entered before
            (inTurn (fun e => if e ∈ entered then nothing
              else t.sweep depth (e :: entered) false e) (t.get start).imports before)
            ((t.get start).imports.flatMap fun e =>
              if e ∈ entered then [] else t.tour depth (e :: entered) false e) ∧
          ∀ e ∈ (t.get start).imports, (t.get e).kind ≠ .universal →
            e ∈ (inTurn (fun e => if e ∈ entered then nothing
              else t.sweep depth (e :: entered) false e) (t.get start).imports before).2 ∨
            e ∈ entered := by
        refine follows_inTurn before fun e he before => ?_
        split
        · next hmem => exact ⟨follows_nothing, fun _ => .inr hmem⟩
        · next hnew =>
          obtain ⟨hfollows, hfinished⟩ := ih (hsteps.imported (ht.imports he) hnew) false before
          exact ⟨hfollows.leave (hfinished rfl), fun hkind => .inl (hfinished rfl hkind)⟩
      have hparent : ∀ before, t.Follows entered before
            ((t.get start).parent.elim nothing (t.sweep depth entered universal) before)
            ((t.get start).parent.elim [] (t.tour depth entered universal)) ∧
          ∀ p, (t.get start).parent = some p → universal = false → (t.get p).kind ≠ .universal →
            p ∈ ((t.get start).parent.elim nothing (t.sweep depth entered universal) before).2 := by
        intro before
        cases hp : (t.get start).parent with
        | none => exact ⟨follows_nothing, nofun⟩
        | some p =>
          obtain ⟨hfollows, hfinished⟩ := ih (hsteps.parent hp) universal before
          refine ⟨hfollows, ?_⟩
          rintro _ ⟨⟩
          exact hfinished
      obtain ⟨himports, hedges⟩ := himports
      obtain ⟨hparent, hascent⟩ := hparent _
      simp only [sweep, if_neg hpassed]
      rw [tour, if_neg hopen]
      exact (follows_parts himports hparent hedges hascent).imp_right fun h huniversal _ =>
        h huniversal

-- ---------------------------------------------------------------------------
-- Whole lookups
-- ---------------------------------------------------------------------------

/-- Whatever a lookup is for, in any number of steps it shows the scopes of the sweep. -/
theorem Ordered.look_sweep (h : t.Ordered) (ht : t.Linked) (hs : t.Has start) (depth : Nat)
    (visit : Visit β) (found : β) :
    ((Look.within visit depth true start).run ⟨t, [], found⟩).map
        (fun r => (r.2.found, r.2.table)) =
      .ok ((offerAll visit ((t.sweep depth [] true start []).1.map t.get) found).1, t) := by
  obtain ⟨seen, after, hshows, hsweep⟩ := ht.sweeps_within h.entered_nil depth true hs []
  obtain ⟨finished, hrun, -⟩ := hshows β visit found
  have hrun : (Look.within visit depth true start).run ⟨t, [], found⟩ = _ := hrun
  rw [hrun, ← hsweep]
  rfl

theorem look_eq (visit : Visit β) (found : β) :
    t.look visit start found = ((Look.within visit t.depth true start).run ⟨t, [], found⟩).map
      fun r => (r.2.found, r.2.table) := by
  unfold look
  cases (Look.within visit t.depth true start).run ⟨t, [], found⟩ <;> rfl

/-- More steps than `depth` find the same. -/
theorem Ordered.look_within (h : t.Ordered) (ht : t.Linked) (hs : t.Has start)
    (hdepth : t.depth ≤ depth) (visit : Visit β) (found : β) :
    ((Look.within visit depth true start).run ⟨t, [], found⟩).map
        (fun r => (r.2.found, r.2.table)) =
      t.look visit start found := by
  rw [look_eq, h.look_sweep ht hs, h.look_sweep ht hs,
    ht.sweep_eq (h.steps hs hdepth) (h.steps hs (Nat.le_refl _))]

/-- A lookup comes to the scopes that a tour comes to, for the first time in the same order,
however many steps the tour has beyond `depth`. -/
theorem Ordered.exists_shown_tour (h : t.Ordered) (ht : t.Linked) (hs : t.Has start)
    (hdepth : t.depth ≤ depth) :
    ∃ seen, t.Shown start seen ∧ distinct [] seen = distinct [] (t.tour depth [] true start) := by
  have hsteps := h.steps hs (Nat.le_refl t.depth)
  refine ⟨_, fun β visit found => (look_eq visit found).trans (h.look_sweep ht hs _ visit found),
    ?_⟩
  have hfollows := (ht.follows_sweep hsteps true []).1
  rw [hfollows.order (by simp [Swept]) [] (List.Subset.refl _),
    ht.tour_eq hsteps (h.steps hs hdepth)]

section
variable {α γ : Type} [DecidableEq α] [DecidableEq γ]

/-- What comes up again adds nothing. -/
theorem distinct_flatMap {known : List γ} {before xs : List α} {f : α → List γ}
    (hknown : ∀ x ∈ before, f x ⊆ known) :
    distinct known ((distinct before xs).flatMap f) = distinct known (xs.flatMap f) := by
  induction xs generalizing before known with
  | nil => rfl
  | cons x xs ih =>
    rw [List.flatMap_cons, distinct_append]
    by_cases hx : x ∈ before
    · have hnone : distinct known (f x) = [] :=
        List.eq_nil_iff_forall_not_mem.mpr fun y hy =>
          (mem_distinct.mp hy).2 (hknown x hx (mem_distinct.mp hy).1)
      rw [distinct_cons_of_mem hx, hnone, List.nil_append, List.append_nil, ih hknown]
    · rw [distinct_cons_of_not_mem hx, List.flatMap_cons, distinct_append]
      refine congrArg _ (ih (List.forall_mem_cons.mpr ⟨fun y hy => ?_, fun z hz y hy => ?_⟩))
      · by_cases hold : y ∈ known
        · exact List.mem_append_left _ hold
        · exact List.mem_append_right _ (mem_distinct.mpr ⟨hy, hold⟩)
      · exact List.mem_append_left _ (hknown z hz hy)

theorem findSome?_distinct {before xs : List α} {f : α → Option β}
    (hnone : ∀ x ∈ before, f x = none) :
    (distinct before xs).findSome? f = xs.findSome? f := by
  induction xs generalizing before with
  | nil => rfl
  | cons x xs ih =>
    by_cases hx : x ∈ before
    · rw [distinct_cons_of_mem hx, ih hnone, List.findSome?_cons, hnone x hx]
    · rw [distinct_cons_of_not_mem hx, List.findSome?_cons, List.findSome?_cons]
      cases hf : f x with
      | some y => rfl
      | none => exact ih (List.forall_mem_cons.mpr ⟨hf, hnone⟩)

end

/-- Both kinds of lookup find in a built table what they would find on a tour. -/
theorem Built.find_tour (h : t.Built) (hs : t.Has start) (hdepth : t.depth ≤ depth) :
    (∀ name, t.findVars start name =
      .ok (distinct [] ((t.tour depth [] true start).flatMap fun id => (t.get id).declsOf name))) ∧
    ∀ {α : Type} (f : Scope → Option α), t.first? f start =
      .ok ((t.tour depth [] true start).findSome? fun id => f (t.get id)) := by
  have hsound := h.sound
  obtain ⟨seen, hshown, htour⟩ := hsound.ordered.exists_shown_tour hsound.linked hs hdepth
  refine ⟨fun name => ?_, fun f => ?_⟩
  · have hnothing : ∀ id ∈ ([] : List ScopeId), (t.get id).declsOf name ⊆ [] := nofun
    rw [hshown.findVars, ← distinct_flatMap hnothing, htour, distinct_flatMap hnothing]
  · have hnothing : ∀ id ∈ ([] : List ScopeId), f (t.get id) = none := nofun
    rw [hshown.first?, ← findSome?_distinct hnothing, htour, findSome?_distinct hnothing]

end ScopeTable
end BlockLang
