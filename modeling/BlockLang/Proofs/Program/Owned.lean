import BlockLang.Proofs.Program.Clean
import BlockLang.Proofs.Program.Reached
import BlockLang.Proofs.Typing.Owning

/-!
# A program owns up to what is wrong

Loading and analyzing modules reports something that makes the program unusable, or no type
known of any node contains the error type, unless some module on the way is mute. So a
program without such a report is only ever wrong where `Mute` says so.
-/

namespace BlockLang

open BlockLang.Tree (idsOf subtreesOf)
open Relation (ReflTransGen)

variable {s s₁ s₂ s' : Session} {cs ts ts' us : List Tree} {root : NodeId} {name : String}
  {m : Module} {v : Tree}

-- ---------------------------------------------------------------------------
-- Modules
-- ---------------------------------------------------------------------------

/-- Every node that is left in normal form was read. -/
theorem Marks.exists_written (h : Marks s s₁)
    (hf : s.tree.Forest (.node root (.moduleRoot name) cs :: us))
    (hw : ∀ c ∈ cs, c.Every (Written s))
    (hf₁ : s₁.tree.Forest (.node root (.moduleRoot name) ts :: us))
    (hids : ∀ id ∈ idsOf ts, id ∈ idsOf cs) (hv : v ∈ subtreesOf ts) :
    ∃ w, Written s w ∧ w.kind = v.kind ∧ (s₁.tree.facts v.handle).type =
      (s.tree.facts w.handle).type ∧ v.handle.index < s₁.tree.size := by
  have hid : v.handle ∈ idsOf cs := by
    obtain ⟨t, ht, hv⟩ := Tree.mem_subtreesOf.mp hv
    exact hids _ (Tree.mem_idsOf.mpr ⟨t, ht, Tree.mem_ids.mpr ⟨v, hv, rfl⟩⟩)
  obtain ⟨c, hc, hid⟩ := Tree.mem_idsOf.mp hid
  obtain ⟨w, hw', hhandle⟩ := Tree.mem_ids.mp hid
  obtain ⟨q, hholds⟩ := hf.head.1.subtree (u := w) (by
    simpa using .inl (Tree.mem_subtreesOf.mpr ⟨c, hc, hw'⟩))
  obtain ⟨q₁, hholds₁⟩ := hf₁.head.1.subtree (u := v) (by simpa using .inl hv)
  obtain ⟨l, hl⟩ := Arena.exists_label (hholds.lt_size _ w.handle_mem_ids)
  obtain ⟨lvalue, hl₁⟩ := h.labels _ l hl
  have hkind : s₁.tree.kind w.handle = s.tree.kind w.handle := by
    rw [Arena.kind_of_label hl₁, Arena.kind_of_label hl]
  refine ⟨w, hw c hc w hw', ?_, ?_, hholds₁.lt_size _ v.handle_mem_ids⟩
  · rw [← hholds.kind, ← hkind, hhandle, hholds₁.kind]
  · rw [← hhandle, Arena.facts_of_label hl₁, Arena.facts_of_label hl]

/-- Only functions are declared as such. -/
def NodeKind.NamesFunction (s : Session) (k : NodeKind) : Prop :=
  ∀ d, k = .funcDecl d → (s.decl d).isFunction = true

/-- In a module that was read and lowered, all is as inference needs it. -/
theorem fit_of_lowered (hmarks : Marks s s₁)
    (hf : s.tree.Forest (.node root (.moduleRoot name) cs :: us))
    (hw : ∀ c ∈ cs, c.Every (Written s))
    (hf₁ : s₁.tree.Forest (.node root (.moduleRoot name) ts :: us))
    (hids : ∀ id ∈ idsOf ts, id ∈ idsOf cs) (hsource : ∀ t ∈ ts, t.Source)
    (hbuilds : Builds s₁ s₂)
    (hlowers : Lowers s₁.tree.size s₂.temps (.statements ts ts')) :
    ∀ t ∈ ts', t.Every (Fit s₂) := by
  have hwritten {v : Tree} := hmarks.exists_written (v := v) hf hw hf₁ hids
  have hdecls : s₂.decls = s.decls := by
    rw [hbuilds.rest, hmarks.rest]
  have hfunctions : ∀ t ∈ ts, t.Only (NodeKind.NamesFunction s₂) := by
    intro t ht v hv d hd
    obtain ⟨w, hw, hkind, -⟩ := hwritten (Tree.mem_subtreesOf.mpr ⟨t, ht, hv⟩)
    obtain ⟨decl, hdecl, hfunction⟩ := hw.function d (hkind.trans hd)
    rw [Session.decl, hdecls, hdecl]
    exact hfunction
  have hadds : Lowers.Adds (NodeKind.NamesFunction s₂) := by
    constructor <;> simp [NodeKind.NamesFunction]
  have hlowered := hlowers.narrows hadds hfunctions
  intro t ht u hu
  have hu' : u ∈ subtreesOf ts' := Tree.mem_subtreesOf.mpr ⟨t, ht, hu⟩
  refine ⟨fun hk => ?_, fun hk => ?_, hlowered t ht u hu⟩
  · rcases hlowers.wires u hu' hk with ⟨v, hv, -, hkind, hwired⟩ | ⟨j, rfl, -⟩
    · obtain ⟨t, ht, hv⟩ := Tree.mem_subtreesOf.mp hv
      rw [← hkind, ← hwired.length_eq]
      exact .inr (hsource t ht v hv).arity
    · exact .inl rfl
  · rcases hlowers.wires u hu' (by rw [hk]; rfl) with ⟨v, hv, hhandle, hkind, -⟩ | ⟨j, rfl, -⟩
    · obtain ⟨w, hw, hkind', htype, hlt⟩ := hwritten hv
      obtain ⟨type, value, hfacts⟩ := hw.literal (hkind'.trans (hkind.trans hk))
      rw [Session.Typed, ← hhandle, hbuilds.tree.labels.facts hlt, htype, hfacts]
      rfl
    · cases hk

/-- The passes own up to what is wrong in a module that was read. -/
theorem owned_passes (normalizes : Bool) (hs : s.Scoped) (hc : s.Clean Typing.nobody)
    (hf : s.tree.Forest (.node root (.moduleRoot name) cs :: us))
    (hw : ∀ c ∈ cs, c.Every (Written s)) :
    IfReturns (arrange normalizes root) s fun _ s₁ => IfReturns (lower root) s₁ fun _ s₂ =>
      IfReturns (infer root) s₂ fun _ s' => ∃ ts,
        s₂.tree.Holds none (.node root (.moduleRoot name) ts) ∧ Owned ts s' := by
  refine (returns_arrange normalizes hf hw).triple.imp ?_
  rintro - s₁ ⟨ts, hf₁, hsource, hmarks, -, hids⟩
  have hs₁ : s₁.Scoped :=
    (hmarks.proceeds (N := fun _ => True) fun _ hn => absurd trivial hn).scoped hs
  refine (returns_lower hf₁ hsource).triple.imp ?_
  rintro - s₂ ⟨ts', hf₂, hbuilds, hlowers⟩
  have hs₂ : s₂.Scoped := (hbuilds.proceeds (N := fun _ => True)).scoped hs₁
  have hadds : Lowers.Adds fun k => k.isInferred = false := ⟨rfl, rfl, rfl, fun _ => rfl⟩
  have hbare : ∀ t ∈ ts', t.Only fun k => k.isInferred = false :=
    hlowers.narrows hadds fun t ht => (hsource t ht).notInferred
  have hfit := fit_of_lowered hmarks hf hw hf₁ hids hsource hbuilds hlowers
  refine (Typing.owned_infer hs₂ (hlowers.forms hsource).2 hbare (hlowers.feeds hsource) hf₂
    (hbuilds.untouched.clean (hmarks.clean hc)) hfit).imp ?_
  exact fun _ _ howned => ⟨ts', hf₂.head.1, howned⟩

-- ---------------------------------------------------------------------------
-- Programs
-- ---------------------------------------------------------------------------

namespace Session

/-- A node of the module is mute once the module has been analyzed. -/
def Mutes (s : Session) (root : NodeId) : Prop :=
  ∃ s₁ s₂ s' name ts, (normalize root).start s = (.ok (), s₁) ∧
    (lower root).start s₁ = (.ok (), s₂) ∧ (infer root).start s₂ = (.ok (), s') ∧
    s₂.tree.Holds none (.node root (.moduleRoot name) ts) ∧ ∃ u ∈ subtreesOf ts, Mute s' u

/-- The tree of a module is analyzed. -/
inductive Analyzes (s : Session) (m : Module) : Session → Prop
  | intro (module : ModuleId) (found : s.modules[module.index]? = some m)
    (started : m.started = true) (isOpen : m.analyzed = false) :
    Analyzes s m (((analyzeTree m.root).start s).2.modifyModule module
      ({ · with analyzed := true }))

/-- One step on the way through a program. -/
inductive StepsTo (s : Session) : Session → Prop
  | load (library : Library) (name : String) (position : Position) :
    StepsTo s ((loadModule library name position).start s).2
  | begin (module : ModuleId) : StepsTo s (s.modifyModule module ({ · with started := true }))
  | connect (module : ModuleId) (i : Import) (imported : ModuleId) :
    StepsTo s ((BlockLang.connect module i imported).start s).2
  | analyze {m : Module} {t : Session} (analyzes : s.Analyzes m t) : StepsTo s t

/-- Something has been reported that makes the program unusable, or nothing is wrong. -/
def Owns (s : Session) : Prop := s.Hurt ∨ s.Clean Typing.nobody

/-- On the way to the session, something in a module was mute. -/
def Muted (s : Session) : Prop :=
  ∃ s₁ m s₂, Reached s₁ ∧ s₁.Analyzes m s₂ ∧ s₁.Mutes m.root ∧ ReflTransGen StepsTo s₂ s

theorem Muted.tail (h : s.Muted) (hs : s.StepsTo s') : s'.Muted := by
  obtain ⟨s₁, m, s₂, hr, ha, hm, hto⟩ := h
  exact ⟨s₁, m, s₂, hr, ha, hm, hto.tail hs⟩

theorem Owns.congr (h : s.Owns) (hu : s.Untouched s') : s'.Owns := h.imp hu.hurt hu.clean

theorem untouched_modifyModule (s : Session) (module : ModuleId) (f : Module → Module) :
    s.Untouched (s.modifyModule module f) := ⟨rfl, .refl _, rfl, rfl, rfl⟩

end Session

theorem HasRead.hurt {path text : String}
    (h : HasRead s name path text us s') (hs : s.Hurt) :
    s'.Hurt := by
  obtain ⟨_, _, _, -, -, -, ha⟩ := h
  have hreport : s'.report = s.report := by
    rw [ha.rest]
    rfl
  rwa [Session.Hurt, hreport]

/-- However loading a module ends, what was reported stays. -/
theorem Session.Hurt.loadModule (hs : s.Hurt) (h : s.Sound) (library : Library)
    (name : String) (position : Position) :
    Triple (BlockLang.loadModule library name position) s (fun _ s' => s'.Hurt)
      fun _ s' => s'.Hurt := by
  obtain ⟨us, hf, -, -⟩ := h.trees
  unfold BlockLang.loadModule
  refine triple_bind.mpr (triple_get.mpr ?_)
  split
  · exact hs
  · split
    · exact (h.hasRead hf name _ _).mono (fun _ _ h => h.2.hurt hs) fun _ _ h => h.hurt hs
    · exact hs
    · exact hs

theorem Session.Hurt.connect (hs : s.Hurt) (module : ModuleId) (i : Import) (imported : ModuleId) :
    IfReturns (BlockLang.connect module i imported) s fun _ s' => s'.Hurt := by
  unfold BlockLang.connect Pass.editScopes IfReturns
  simp only [triple_bind, triple_get, Pass.triple_lookUp]
  split
  · exact hs
  · trivial

/-- Analyzing a module owns up to what is wrong in it, unless something in it is mute. -/
theorem Session.Analyzes.owns (h : s.Analyzes m s') (hr : Reached s) (ho : s.Owns) :
    s'.Owns ∨ s.Mutes m.root := by
  obtain ⟨module, found, started, isOpen⟩ := h
  obtain ⟨ts, name, cs, hf, -, hspells, ht⟩ := hr.sound.exists_tree found
  have hread : ∀ c ∈ cs, c.Every (Written s) := (hspells module.index m _ found ht).read isOpen
  have hpasses := returns_passes true hr.sound.inScope (hf.front ht) hread (pure .error)
  obtain ⟨⟨⟩, s₁, h₁, hpasses⟩ := hpasses.exists
  obtain ⟨⟨⟩, s₂, h₂, hpasses⟩ := hpasses.exists
  obtain ⟨⟨⟩, s₃, h₃, _, _, -, -, -, hreworks, -⟩ := hpasses.exists
  have hstart : ((analyzeTree m.root).start s).2 = s₃ := by
    have hrun : Returns (analyzeTree m.root) s fun _ s' => s' = s₃ := by
      unfold analyzeTree
      simp only [Returns, triple_bind]
      exact .of_start h₁ (.of_start h₂ (.of_start h₃ rfl))
    obtain ⟨_, _, hs, rfl⟩ := hrun.exists
    rw [hs]
  rw [hstart]
  have hclosed := s₃.untouched_modifyModule module ({ · with analyzed := true })
  rcases ho with hurt | hclean
  · exact .inl (.inl (hclosed.hurt (hreworks.proceeds.hurt hurt)))
  · have howned := owned_passes true hr.sound.inScope hclean (hf.front ht) hread
    simp only [IfReturns, Triple, h₁, h₂] at howned
    have h₃' : (infer m.root).start s₂ = (.ok (), s₃) := h₃
    rw [h₃'] at howned
    obtain ⟨ts, hholds, howned | howned | hmute⟩ := howned
    · exact .inl (.inl (hclosed.hurt howned))
    · exact .inl (.inr (hclosed.clean howned))
    · exact .inr ⟨s₁, s₂, s₃, name, ts, h₁, h₂, h₃', hholds, hmute⟩

theorem Session.StepsTo.owns (h : s.StepsTo s') (hr : Reached s) (ho : s.Owns) :
    s'.Owns ∨ s'.Muted := by
  cases h with
  | load library name position =>
    refine .inl (ho.imp (fun hurt => ?_) fun hclean => ?_)
    · exact Triple.left (hurt.loadModule hr.sound library name position)
    · exact Triple.left (hclean.loadModule hr.sound library name position)
  | begin => exact .inl (ho.congr (s.untouched_modifyModule _ _))
  | connect module i imported =>
    have hconnect := hr.sound.connect module i imported
    refine .inl (ho.imp (fun hurt => ?_) fun hclean => ?_)
    · exact Triple.left ((hconnect.triple.and (hurt.connect module i imported)).imp
        fun _ _ h => h.2)
    · exact Triple.left ((hconnect.triple.and (hclean.connect module i imported)).imp
        fun _ _ h => h.2)
  | analyze analyzes =>
    exact (analyzes.owns hr ho).imp_right fun hmutes => ⟨s, _, s', hr, analyzes, hmutes, .refl⟩

/-- A program reports something that makes it unusable, or no type in it contains the error
type, unless something in one of its modules was mute. -/
theorem owns_of_reached (h : Reached s) : s.Owns ∨ s.Muted := by
  have hend : ∀ {s s'}, Reached s → s.StepsTo s' → s.Owns ∨ s.Muted → s'.Owns ∨ s'.Muted :=
    fun hr hs ih => ih.elim (hs.owns hr) fun hmuted => .inr (hmuted.tail hs)
  induction h with
  | new entrySymbol => exact .inl (.inr (Session.clean_new entrySymbol))
  | load library name position hr ih => exact hend hr (.load library name position) ih
  | begin module hr ih => exact hend hr (.begin module) ih
  | connect module i imported hr ih => exact hend hr (.connect module i imported) ih
  | analyze module found started isOpen hr ih =>
    exact hend hr (.analyze ⟨module, found, started, isOpen⟩) ih

/-- Where nothing hard has been reported and nothing was mute, no node is wrong. -/
theorem containsError_eq_false (h : Reached s) (hsoft : s.report.errorCount = 0)
    (hmuted : ¬ s.Muted) {id : NodeId} {type : TypeId} (ht : (s.tree.facts id).type = some type) :
    s.types.containsError type = false := by
  have hhurt : ¬ s.Hurt := by
    rintro ⟨d, hd, hhard⟩
    exact absurd hhard (List.filter_eq_nil_iff.mp (List.length_eq_zero_iff.mp hsoft) d hd)
  have hclean := ((owns_of_reached h).resolve_right hmuted).resolve_left hhurt
  exact (hclean.nodes id type ht).containsError

/-- A function is no place, and its module stores to it. -/
def functionLibrary : Library := .ofTexts [("main", "fn f() \x7b\x7d f = f;")]

-- such a store is wrong without a word
example : (match (do
      let module ← loadModule functionLibrary "main" .null
      analyze functionLibrary module : Task Stop Unit).start (.new "main") with
    | (.ok _, s) => s.report.isEmpty &&
      (List.range s.tree.size).any fun i => (s.tree.facts ⟨i⟩).type == some .error
    | (.error _, _) => false) = true := by
  decide +kernel

end BlockLang
