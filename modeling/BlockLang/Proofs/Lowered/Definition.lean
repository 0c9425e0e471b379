import BlockLang.Proofs.Grammar.Precedence
import BlockLang.Proofs.Lowered.Build
import BlockLang.Proofs.Lowered.Normalize

/-!
# Lowering the definition of a number

The definition of a constant by a number behind minus signs has normal form. It is lowered to one
basic block with a step for the number, one for each sign and one for the definition, each of
which takes the value of the step before (`returns_lower_definition`).
-/

namespace BlockLang

open BlockLang.Frame (plug)

/-- The tree is the literal `l` behind `count` minus signs. -/
inductive Negates (l : NodeId) : Nat → Tree → Prop
  | literal : Negates l 0 (.node l .literal [])
  | neg (h : Negates l count t) : Negates l (count + 1) (.node i (.unary .neg) [t])

/-- The steps take the value of the node `p`, negate it `count` times and define `decl` by it. -/
inductive Carries (temps : Array NodeId) (decl : DeclId) : NodeId → Nat → List Tree → Prop
  | define (set : temps[temp.index]? = some p) :
    Carries temps decl p 0 [.node i (.varDecl decl none false) [.node j (.temp temp) []]]
  | neg (set : temps[temp.index]? = some p) (h : Carries temps decl i count ts) :
    Carries temps decl p (count + 1) (.node i (.unary .neg) [.node j (.temp temp) []] :: ts)

variable {s : Session} {t : Tree} {l i root : NodeId} {decl : DeclId} {count : Nat}
  {us : List Tree} {temps : Array NodeId} {E : Fault → Session → Prop}

theorem Grammar.SpellsFactor.negates {atom : Token} {marks : List UnaryMark}
    (h : SpellsFactor s atom marks t) (hatom : atom.kind = .number)
    (hmarks : ∀ mark ∈ marks, mark.op = .neg) :
    ∃ l, Negates l marks.length t ∧ SpellsAtom s atom (.node l .literal []) := by
  induction h with
  | atom h =>
    cases h with
    | name hk => simp [hatom] at hk
    | literal hd hl hv => exact ⟨_, .literal, .literal hd hl hv⟩
  | mark _ ih =>
    rw [List.forall_mem_cons] at hmarks
    obtain ⟨l, ht, hl⟩ := ih hmarks.2
    exact ⟨l, hmarks.1 ▸ .neg ht, hl⟩

-- ---------------------------------------------------------------------------
-- Normal form
-- ---------------------------------------------------------------------------

theorem Negates.normalized (h : Negates l count t) : t.normalized = t := by
  induction h with
  | literal => rfl
  | neg _ ih => simp [Tree.normalized, Tree.normalizedAll, Tree.collapse, ih]

theorem Negates.complaints (h : Negates l count t) (a : Arena) :
    Normalize.complaints a [t] = [] := by
  induction h with
  | literal => rfl
  | neg _ ih =>
    rw [Normalize.complaints_node, ih]
    rfl

/-- Nothing is to do about a definition that is no reference. -/
theorem returns_normalize_definition (ht : Negates l count t)
    (h : s.tree.Forest
      (.node root (.moduleRoot name) [.node i (.varDecl decl none false) [t]] :: us))
    (hu : Normalize.Unmarked s (.node i (.varDecl decl none false) [t]))
    (hs : (Tree.node i (.varDecl decl none false) [t]).Source) :
    Returns (normalize root) s fun _ s' => s'.report = s.report ∧ Marks s s' ∧ s'.tree.Forest
      (.node root (.moduleRoot name) [.node i (.varDecl decl none false) [t]] :: us) := by
  have hnormal : (Tree.node i (.varDecl decl none false) [t]).normalized =
      .node i (.varDecl decl none false) [t] := by
    simp [Tree.normalized, Tree.normalizedAll, Tree.collapse, ht.normalized]
  refine (returns_normalize h (by simpa using hu) (by simpa using hs)).imp ?_
  rintro - s' ⟨hf, hn⟩
  rw [List.map_singleton, hnormal] at hf
  refine ⟨?_, hn.marks, hf⟩
  rw [hn.report, List.map_singleton, hnormal, Normalize.complaints_node, ht.complaints]
  exact List.append_nil _

-- ---------------------------------------------------------------------------
-- Steps
-- ---------------------------------------------------------------------------

/-- How the value of an operation comes about. -/
theorem Lowers.operation {first : Nat} {k : NodeKind} {cs out : List Tree} {setter : NodeId}
    (h : Lowers first temps (.value (.node i k cs) out setter)) (hgroup : k.isGroup = false)
    (hflow : k.isControlFlow = false) (hidle : k.isIdle = false) :
    setter = i ∧ ∃ steps ts, out = steps ++ [.node i k ts] ∧
      Lowers first temps (.values cs steps ts) := by
  generalize hj : Judgement.value (.node i k cs) out setter = judgement at h
  cases h with
  | expression kind value operands =>
    cases hj
    exact ⟨rfl, _, _, rfl, operands⟩
  | last kind =>
    cases hj
    simp [hgroup] at kind
  | nothing kind =>
    cases hj
    simp [hgroup] at kind
  | branch kind =>
    cases hj
    simp [hflow] at kind
  | null kind =>
    cases hj
    simp [hidle] at kind
  | _ => cases hj

/-- A single operand gives way to a temporary. -/
theorem Lowers.operand {first : Nat} {out ts : List Tree}
    (h : Lowers first temps (.values [t] out ts)) :
    ∃ j temp setter, ts = [.node j (.temp temp) []] ∧ temps[temp.index]? = some setter ∧
      Lowers first temps (.value t out setter) := by
  generalize hj : Judgement.values [t] out ts = judgement at h
  cases h with
  | moreValues head fresh set tail =>
    cases hj
    cases tail
    exact ⟨_, _, _, rfl, set, by simpa using head⟩
  | _ => cases hj

/-- The number comes first, and each sign takes the value of the step before. -/
theorem Negates.carries {first : Nat} {out : List Tree} {setter : NodeId} (decl : DeclId)
    (ht : Negates l count t) (h : Lowers first temps (.value t out setter)) :
    ∃ negs, out = .node l .literal [] :: negs ∧ ∀ n ts, Carries temps decl setter n ts →
      Carries temps decl l (count + n) (negs ++ ts) := by
  induction ht generalizing out setter with
  | literal =>
    obtain ⟨rfl, steps, ts, rfl, hoperands⟩ := h.operation rfl rfl rfl
    cases hoperands
    exact ⟨[], rfl, fun n ts hts => by simpa using hts⟩
  | neg _ ih =>
    obtain ⟨rfl, steps, ts, rfl, hoperands⟩ := h.operation rfl rfl rfl
    obtain ⟨j, temp, setter', rfl, hset, hvalue⟩ := hoperands.operand
    obtain ⟨negs, rfl, hnegs⟩ := ih hvalue
    refine ⟨_, rfl, fun n ts hts => ?_⟩
    have hmore := hnegs (n + 1) _ (.neg (j := j) hset hts)
    simpa [Nat.add_assoc, Nat.add_comm 1 n] using hmore

theorem Carries.plain {p : NodeId} {ts : List Tree} (h : Carries temps decl p count ts) :
    ∀ step ∈ ts, step.kind.splitsBlock = false := by
  induction h with
  | define => exact List.forall_mem_singleton.mpr rfl
  | neg _ _ ih => exact List.forall_mem_cons.mpr ⟨rfl, ih⟩

theorem Carries.mono {temps' : Array NodeId} {p : NodeId} {ts : List Tree}
    (h : Carries temps decl p count ts)
    (ht : ∀ (i : Nat) n, temps[i]? = some n → temps'[i]? = some n) :
    Carries temps' decl p count ts := by
  induction h with
  | define set => exact .define (ht _ _ set)
  | neg set _ ih => exact .neg (ht _ _ set) ih

namespace Lower

/-- Plain steps make one segment. -/
theorem triple_segments_plain (run : List Tree) {steps : List Tree}
    (h : s.tree.Forest (run ++ (steps ++ us)))
    (hsteps : ∀ step ∈ steps, step.kind.splitsBlock = false) (hne : run ++ steps ≠ []) :
    Triple (segments (run.map Tree.handle) (steps.map Tree.handle)) s (fun ids s' => ∃ b,
      ids = [b] ∧ s'.tree.Forest (.node b .basicBlock (run ++ steps) :: us) ∧ Builds s s') E := by
  induction steps generalizing run with
  | nil =>
    have hrun : (run.map Tree.handle).isEmpty = false := by simpa using hne
    rw [List.map_nil, segments, hrun]
    simp only [Bool.false_eq_true, ↓reduceIte, triple_bind, triple_pure]
    refine (triple_basicBlock h).imp ?_
    rintro b s' ⟨hf, -, hb⟩
    exact ⟨b, rfl, by simpa using hf, hb⟩
  | cons step steps ih =>
    rw [List.forall_mem_cons] at hsteps
    have hkind : s.tree.kind step.handle = step.kind :=
      (Arena.holdsAll_iff.mp h.1 step (by simp)).kind
    rw [List.map_cons, segments]
    simp only [triple_bind, Pass.triple_kindOf, hkind, hsteps.1, Bool.false_eq_true, ↓reduceIte]
    simpa using ih (run ++ [step]) (by simpa using h) hsteps.2 (by simp)

theorem triple_pack_plain {origin : NodeId} {steps : List Tree} (h : s.tree.Forest (steps ++ us))
    (hsteps : ∀ step ∈ steps, step.kind.splitsBlock = false) (hne : steps ≠ []) :
    Triple (pack origin (steps.map Tree.handle)) s (fun b s' =>
      s'.tree.Forest (.node b .basicBlock steps :: us) ∧ Builds s s') E := by
  unfold pack
  simp only [triple_bind]
  refine (triple_segments_plain [] h hsteps hne).imp ?_
  rintro _ s' ⟨b, rfl, hf, hb⟩
  exact ⟨hf, hb⟩

theorem returns_statement_definition {fuel : Nat} (ht : Negates l count t)
    (hs : (Tree.node i (.varDecl decl none false) [t]).Source)
    (hfuel : 4 * (Tree.node i (.varDecl decl none false) [t]).height ≤ fuel + 3)
    (h : s.tree.Forest (.node i (.varDecl decl none false) [t] :: us)) :
    Returns (statement (fuel + 2) i) s fun b s' => ∃ ts, Carries s'.temps decl l count ts ∧
      s'.tree.Forest (.node b .basicBlock (.node l .literal [] :: ts) :: us) ∧ Builds s s' := by
  have hkind : s.tree.kind i = .varDecl decl none false := h.head.1.kind
  rw [statement, statementSteps]
  simp only [Returns, triple_bind, Pass.triple_kindOf, hkind, triple_pure]
  refine ((works fuel).operands i _ [t] hs hfuel s us h).imp ?_
  rintro _ s₁ ⟨out, ts, rfl, h₁, hb, hl⟩
  obtain ⟨j, temp, setter, rfl, hset, hvalue⟩ := hl.operand
  obtain ⟨negs, rfl, hnegs⟩ := ht.carries decl hvalue
  let define : Tree := .node i (.varDecl decl none false) [.node j (.temp temp) []]
  have hcarries : Carries s₁.temps decl l count (negs ++ [define]) := hnegs 0 _ (.define hset)
  have hsteps : s₁.tree.Forest ((.node l .literal [] :: (negs ++ [define])) ++ us) := by
    have hlast : (define :: (.node l .literal [] :: negs ++ us)).Perm
        (.node l .literal [] :: negs ++ define :: us) := List.perm_middle.symm
    exact h₁.perm (by simpa using hlast)
  have hids : (Tree.node l .literal [] :: negs).map Tree.handle ++ [i] =
      (Tree.node l .literal [] :: (negs ++ [define])).map Tree.handle := by simp [define]
  rw [hids]
  refine (triple_pack_plain hsteps (List.forall_mem_cons.mpr ⟨rfl, hcarries.plain⟩)
    (by simp)).imp ?_
  rintro b s₂ ⟨h₂, hb₂⟩
  exact ⟨negs ++ [define], hcarries.mono hb₂.temps, h₂, hb.trans hb₂⟩

end Lower

/-- The definition of a number becomes one basic block. -/
theorem returns_lower_definition (ht : Negates l count t)
    (hs : (Tree.node i (.varDecl decl none false) [t]).Source)
    (h : s.tree.Forest
      (.node root (.moduleRoot name) [.node i (.varDecl decl none false) [t]] :: us)) :
    Returns (lower root) s fun _ s' => ∃ b ts, Carries s'.temps decl l count ts ∧ Builds s s' ∧
      s'.tree.Forest
        (.node root (.moduleRoot name) [.node b .basicBlock (.node l .literal [] :: ts)] ::
          us) := by
  have hheight := h.head.1.height_le h.head.2
  simp only [Tree.height_node, Tree.heightOf] at hheight
  have hfuel : 4 * (s.tree.size + 1) = 4 * s.tree.size + 2 + 2 := by omega
  have h' : s.tree.Forest (plug []
    [.node root (.moduleRoot name) [.node i (.varDecl decl none false) [t]]] ++ us) := h
  unfold lower Lower.replaceChildren
  simp only [Returns, triple_bind, Pass.triple_tree]
  refine (Pass.triple_take h').imp ?_
  rintro - s₁ ⟨rfl, h₁, hr⟩
  rw [List.map_singleton, triple_forM_cons, triple_bind, hfuel]
  refine (Lower.returns_statement_definition ht hs ?_ (h₁.perm (.swap _ _ _))).imp ?_
  · simp only [Tree.height_node, Tree.heightOf]
    omega
  rintro b s₂ ⟨ts, hcarries, h₂, hb₂⟩
  have h₂' : s₂.tree.Forest (plug [] [.node root (.moduleRoot name) []] ++
    .node b .basicBlock (.node l .literal [] :: ts) :: us) := h₂.perm (.swap _ _ _)
  refine (Pass.triple_pushChild h₂').imp ?_
  rintro - s₃ ⟨h₃, hr₃⟩
  exact ⟨b, ts, hcarries.mono hr₃.builds.temps, (hr.builds.trans hb₂).trans hr₃.builds, h₃⟩

end BlockLang
