/-
  CodeReach.Proofs.Explore.Coverage

  Soundness of whole explorations.  When a run over the edges of a program completes
  and every goto was resolved, each machine configuration that any execution of the
  program gets to is described by a reached state at its label.

  The argument is an induction on the execution.  A machine step has an edge among
  those the source told (`Resolver.exists_edge_of_step`), the state that was expanded
  there has a successor along it that describes the machine afterwards
  (`Analysis.describes_post`), and that successor is covered because the exploration
  came to a fixpoint.
-/
import CodeReach.Machine.Step
import CodeReach.Proofs.Explore.Fixpoint
import CodeReach.Proofs.Explore.Resolver

namespace CodeReach

namespace Program

/-- Every goto of the program asks for a condition that is zero or one. -/
def BooleanGotos (p : Program) : Prop :=
  ∀ entry ∈ p.statements.toList, ∀ g ∈ entry.2.stmt.goto?, g.condition.isBoolean = true

instance (p : Program) : Decidable p.BooleanGotos :=
  inferInstanceAs (Decidable (∀ entry ∈ p.statements.toList, ∀ g ∈ entry.2.stmt.goto?,
    g.condition.isBoolean = true))

theorem BooleanGotos.isBoolean {p : Program} (h : p.BooleanGotos) {l : Label} {site : PlacedStmt}
    {g : Goto} (hsite : p.statement? l = some site) (hg : site.stmt = .goto g) :
    g.condition.isBoolean = true := by
  refine h (l, site) (Std.TreeMap.mem_toList_iff_getElem?_eq_some.2 hsite) g ?_
  rw [hg]
  rfl

end Program

/-! ## Machine steps have edges -/

theorem PlacedStmt.must_mem_straightEdges {l next : Label} {stmt : Stmt} (h : stmt ≠ .halt) :
    Edge.must l next stmt ∈ (⟨l, some next, stmt⟩ : PlacedStmt).straightEdges := by
  rw [straightEdges, if_neg h]
  exact List.mem_singleton_self _

namespace Resolver

variable {r : Resolver} {n : Node} {es : List Edge} {c c' : Config}

/-- A statement that is no goto can be followed along its one edge. -/
theorem exists_edge_of_straight {next : Label} {stmt : Stmt} {ρ : RegFile}
    (hlabel : n.location.label = c.label) (hes : (r.edges n).2 = .ok es)
    (hsite : r.program.statement? c.label = some ⟨c.label, some next, stmt⟩)
    (hgoto : stmt.goto? = none) (hhalt : stmt ≠ .halt) (heff : stmt.Effect c.memory c.regs ρ) :
    ∃ e ∈ es, e.target.label = next ∧ e.stmt.Effect c.memory c.regs ρ := by
  rw [← hlabel] at hsite
  obtain rfl := Except.ok.inj (hes.symm.trans (answer_of_straight hsite hgoto))
  exact ⟨_, PlacedStmt.must_mem_straightEdges hhalt, rfl, heff⟩

/-- A goto that was resolved can be followed along an edge whose assumption holds. -/
theorem exists_edge_of_goto {g : Goto} {next : Option Label} {l : Label}
    (hboolean : r.program.BooleanGotos) (hlabel : n.location.label = c.label)
    (hd : n.state.Describes c.regs) (hμ : c.memory.Agrees r.program)
    (hes : (r.edges n).2 = .ok es) (hres : r.resolves n.state = true)
    (hsite : r.program.statement? c.label = some ⟨c.label, next, .goto g⟩)
    (hl : g.successor? next c.regs c.memory = some l) :
    ∃ e ∈ es, e.target.label = l ∧ e.stmt.Effect c.memory c.regs c.regs := by
  rw [← hlabel] at hsite
  have hvalue := Expr.value_of_isBoolean (ρ := c.regs) (μ := c.memory)
    (hboolean.isBoolean hsite rfl)
  have hcase := exists_case_of_described hsite rfl hd hμ hres fun _ _ _ _ => hvalue
  obtain ⟨e, he, htarget, assumption, origin, hstmt, hholds⟩ :=
    (exists_admitting_edge_iff_case hsite rfl hes hres hl).2 hcase
  refine ⟨e, he, congrArg Location.label htarget, ?_⟩
  rw [hstmt]
  exact .assume hholds origin

/-- Whatever a machine described by a node does next, one of the node's edges follows it. -/
theorem exists_edge_of_step (hboolean : r.program.BooleanGotos)
    (hlabel : n.location.label = c.label) (hd : n.state.Describes c.regs)
    (hμ : c.memory.Agrees r.program) (hes : (r.edges n).2 = .ok es)
    (hres : r.resolves n.state = true) (hstep : r.program.Step c c') :
    ∃ e ∈ es, e.target.label = c'.label ∧ e.stmt.Effect c.memory c.regs c'.regs := by
  cases hstep with
  | assign site => exact exists_edge_of_straight hlabel hes site rfl (by simp) (.assign _ _)
  | havoc w site => exact exists_edge_of_straight hlabel hes site rfl (by simp) (.havoc _ w)
  | store μ site agrees =>
      exact exists_edge_of_straight hlabel hes site rfl (by simp) (.store _ _ _)
  | assume site holds =>
      exact exists_edge_of_straight hlabel hes site rfl (by simp) (.assume holds _)
  | skip site => exact exists_edge_of_straight hlabel hes site rfl (by simp) .skip
  | taken site holds =>
      exact exists_edge_of_goto hboolean hlabel hd hμ hes hres site (if_neg holds)
  | notTaken site fails =>
      exact exists_edge_of_goto hboolean hlabel hd hμ hes hres site (if_pos fails)

end Resolver

/-- A step leaves memory in agreement with read-only data. -/
theorem Program.Step.agrees {p : Program} {c c' : Config} (h : p.Step c c')
    (hμ : c.memory.Agrees p) : c'.memory.Agrees p := by
  cases h with
  | store μ site agrees => exact agrees
  | assign site => exact hμ
  | havoc w site => exact hμ
  | assume site holds => exact hμ
  | skip site => exact hμ
  | taken site holds => exact hμ
  | notTaken site fails => exact hμ

/-! ## What the source was asked -/

/-- The source resolves the gotos of `p`; it gave the answers of a fresh resolver, and as long as it
    is sound, it could resolve whatever it was asked. -/
def EdgeSource.Resolves (source : EdgeSource) (p : Program) (options : Settings)
    (asked : List Query) : Prop :=
  ∃ r, source = .resolving r ∧ r.program = p ∧ r.settings = options ∧
    ∀ q ∈ asked, q.answer = ((Resolver.fresh p options).edges q.node).2 ∧
      (r.sound = true → (Resolver.fresh p options).resolves q.node.state = true)

/-- One more question. -/
theorem EdgeSource.Resolves.ask {source : EdgeSource} {p : Program} {options : Settings}
    {asked : List Query} (h : source.Resolves p options asked) (m : Node) :
    (source.edges m).1.Resolves p options (asked ++ [⟨m, (source.edges m).2⟩]) := by
  obtain ⟨r, rfl, hp, hs, hasked⟩ := h
  refine ⟨(r.edges m).1, rfl, ?_, ?_, fun q hq => ?_⟩
  · rw [Resolver.program_edges, hp]
  · rw [Resolver.settings_edges, hs]
  · rw [Resolver.sound_edges, Bool.and_eq_true]
    rcases List.mem_append.1 hq with hq | hq
    · exact ⟨(hasked q hq).1, fun hsound => (hasked q hq).2 hsound.1⟩
    · obtain rfl := List.mem_singleton.1 hq
      refine ⟨Resolver.answer_congr (q := .fresh p options) hp hs m, fun hsound => ?_⟩
      rw [← Resolver.resolves_congr (r := r) (q := .fresh p options) hp hs]
      exact hsound.2

namespace Exploration

variable {w : Surroundings} {x y : Exploration}

theorem Picks.covers {n : Node} {s : State} (h : x.Picks n y) (hs : x.engine.Covers s) :
    y.engine.Covers s := by
  obtain ⟨t, ht, hle⟩ := hs
  exact ⟨t, by rwa [Engine.IsReached, h.reached], h.analysis ▸ hle⟩

/-- What is covered stays covered in a round after which the loop goes on. -/
theorem covers_of_step_next {s : State} (hx : x.engine.Coherent) (hs : x.engine.Covers s)
    (h : step w x = .next y) : y.engine.Covers s := by
  obtain ⟨n, x₁, hpicks, hvisits⟩ := visits_of_step_next hx h
  exact (hpicks.coherent_visits hx hvisits).2.covers (hpicks.covers hs)

/-- What is covered stays covered in a last round. -/
theorem covers_of_step_done {s : State} {r : Except Failure Unit} (hx : x.engine.Coherent)
    (hs : x.engine.Covers s) (h : step w x = .done (y, r)) : y.engine.Covers s := by
  rcases visits_of_step_done hx h with ⟨-, rfl, -⟩ | ⟨n, x₁, f, -, hpicks, hvisits, -⟩
  · exact hs
  · exact (hpicks.coherent_visits hx hvisits).2.covers (hpicks.covers hs)

end Exploration

namespace Engine

variable {e : Engine} {p : Program} {v : ValueAnalysis} {options : Settings} {asked : List Query}
  {vpc : Option Reg} {policy : Policy} {settings : Settings} {c c' : Config} {s : State}

theorem History.resolves {a : Analysis} {failed : List State}
    (h : History a (.resolving (.fresh p options)) policy settings e asked failed) :
    e.source.Resolves p options asked :=
  h.source_invariant (motive := fun source asked => source.Resolves p options asked)
    (fun _ _ m hsource => hsource.ask m)
    ⟨_, rfl, rfl, rfl, fun _ hq => absurd hq List.not_mem_nil⟩

/-! ## Executions -/

/-- Some reached state stands at the label of the configuration and describes its registers. -/
def Describes (e : Engine) (c : Config) : Prop :=
  ∃ s, e.IsReached s ∧ s.location.label = c.label ∧ s.Describes c.regs

/-- What describes a configuration and is covered need not be reached itself. -/
theorem describes_of_covers (hs : e.analysis.Fits s) (hcovers : e.Covers s)
    (hlabel : s.location.label = c.label) (hd : s.Describes c.regs) : e.Describes c := by
  obtain ⟨t, ht, hle⟩ := hcovers
  refine ⟨t, ht, ?_, Analysis.describes_of_le hs hle hd⟩
  rw [← Analysis.location_eq_of_le hle]
  exact hlabel

/-- One machine step, where every reached state is expanded and every goto was resolved. -/
theorem describes_step (he : e.Coherent)
    (ha : e.analysis = ⟨⟨.forward, vpc⟩, [.values v]⟩) (hv : v.program = p)
    (hboolean : p.BooleanGotos) (hexpanded : ∀ s, e.IsReached s → e.Expanded asked s)
    (hsource : e.source.Resolves p options asked) (hsound : e.isSound = true)
    (hμ : c.memory.Agrees p) (hc : e.Describes c) (hstep : p.Step c c') : e.Describes c' := by
  obtain ⟨s, hs, hlabel, hd⟩ := hc
  -- The questions were asked about a state above the one that describes the machine.
  obtain ⟨u, es, hquery, hloc, hle, hfollows⟩ := hexpanded s hs
  have hu : e.analysis.Fits u.state := Analysis.fits_of_le (he.fits s hs) hle
  have hud : u.state.Describes c.regs := Analysis.describes_of_le (he.fits s hs) hle hd
  have hulabel : u.location.label = c.label := by rw [hloc, hlabel]
  obtain ⟨r, hr, -, -, hasked⟩ := hsource
  obtain ⟨hanswer, hresolves⟩ := hasked _ hquery
  have hrsound : r.sound = true := by
    rw [isSound, hr] at hsound
    exact hsound
  obtain ⟨edge, hedge, htarget, heff⟩ :=
    Resolver.exists_edge_of_step (r := .fresh p options) hboolean hulabel hud hμ hanswer.symm
      (hresolves hrsound) hstep
  -- The edge leads to a state that describes the machine after the step.
  obtain ⟨o, hpost, hcovers⟩ := hfollows edge hedge
  obtain ⟨t, rfl, htlabel, htd⟩ := Analysis.describes_post (congrArg Analysis.components ha)
    (congrArg (·.placement.direction) ha) hu (hv ▸ hμ) hud heff hpost
  exact describes_of_covers (Analysis.fits_post hu hpost) (hcovers t rfl)
    (htlabel.trans htarget) htd

/-- The start state of a run is covered when the loop is over. -/
theorem Coherent.covers_start {w : Surroundings} {k : Nat} {x y : Exploration}
    {r : Except Failure Unit} (h : e.Coherent)
    (hloop : Loop.iterate (Exploration.step w) k (.start e) = .next x)
    (hexit : Exploration.step w x = .done (y, r)) :
    y.engine.Covers (Exploration.startState e) := by
  have hstart : (Exploration.start e).engine.Covers (Exploration.startState e) :=
    ⟨_, Exploration.isReached_start.2 (Or.inl rfl), Analysis.le_refl _ _⟩
  obtain ⟨hx, hcovers⟩ := h.iterate_invariant
    (motive := fun x => x.engine.Covers (Exploration.startState e)) hstart
    (fun x y hx hcovers => Exploration.covers_of_step_next hx hcovers) hloop
  exact Exploration.covers_of_step_done hx hcovers hexit

/-- Soundness of whole explorations.  Let an engine follow the values in a program forward, at plain
    or split locations, with any way to merge, threshold, policy and settings; only the conditions
    of the gotos have to be boolean.  If none of its earlier runs failed and a run completes with
    every goto resolved, then every configuration on every execution from the start label, with any
    registers and any memory that agrees with the read-only data, is described by a state reached
    at its label. -/
theorem History.describes_every_execution (hv : v.program = p) (hboolean : p.BooleanGotos)
    (h : History ⟨⟨.forward, vpc⟩, [.values v]⟩ (.resolving (.fresh p options)) policy settings e
      asked [])
    (w : Surroundings) (hcompleted : (e.run w).1.isCompleted = true)
    (hsound : (e.run w).1.isSound = true) {c₀ c : Config} (hstart : c₀.label = p.startLabel)
    (hμ : c₀.memory.Agrees p) (hsteps : p.Steps c₀ c) : (e.run w).1.Describes c := by
  obtain ⟨k, x, y, r, -, hloop, hexit, hrun⟩ := h.coherent.exists_exit w
  rw [hrun] at hcompleted hsound ⊢
  obtain ⟨rfl, hempty⟩ := finalStatus_eq_completed.1 (beq_iff_eq.1 hcompleted)
  have hend := History.run h hloop hexit
  have hexpanded : ∀ s, (finish y (.ok ())).1.IsReached s →
      (finish y (.ok ())).1.Expanded (asked ++ y.trace) s := by
    intro s hs
    rcases hend.life.settled.expanded hempty hs with hfailed | hs
    · exact absurd hfailed List.not_mem_nil
    · exact hs
  -- Memory agrees with the read-only data along the whole execution.
  suffices hinv : (finish y (.ok ())).1.Describes c ∧ c.memory.Agrees p from hinv.1
  induction hsteps with
  | refl =>
      refine ⟨?_, hμ⟩
      -- The start state knows nothing about the registers, so it describes all of them.
      have hinitial : e.source.initial = .plain p.startLabel := by
        obtain ⟨r, hr, rfl, -, -⟩ := h.resolves
        rw [hr]
        rfl
      have hcovers := h.coherent.covers_start hloop hexit
      rw [Exploration.startState, h.analysis_eq, hinitial] at hcovers
      refine describes_of_covers (s := Analysis.start _ _) ?_ hcovers hstart.symm ?_
      · rw [hend.analysis_eq]
        exact Analysis.fits_start _ _
      · intro u hu
        obtain rfl := Component.values.inj (List.mem_singleton.1 hu)
        exact Registers.describes_unknown _
  | tail _ hstep ih =>
      obtain ⟨hdesc, hagrees⟩ := ih
      exact ⟨describes_step hend.coherent hend.analysis_eq hv hboolean hexpanded hend.resolves
        hsound hagrees hdesc hstep, hstep.agrees hagrees⟩

/-- The exploration of the loop completes, and all its gotos are resolved. -/
theorem run_onWrapLoop : (onWrapLoop.run (.stopAfter none)).1.isCompleted = true ∧
    (onWrapLoop.run (.stopAfter none)).1.isSound = true := by
  decide +kernel

/-- A machine that goes round the loop once comes back to its head with `r1` counted up from seven
    to eight, which a reached state describes. -/
theorem describes_every_execution_onWrapLoop :
    ∃ c, wrapLoop.Steps ⟨Label.start 0x1000, fun _ => 7, fun _ _ => 0⟩ c ∧
      c.label = Label.start 0x1000 ∧ c.regs 1 = 8 ∧
      (onWrapLoop.run (.stopAfter none)).1.Describes c := by
  have hleave : wrapLoop.Step ⟨Label.start 0x1000, fun _ => 7, fun _ _ => 0⟩
      ⟨Label.start 0x1004, fun _ => 7, fun _ _ => 0⟩ :=
    .notTaken (g := ⟨.jump, .binary .ltu (.reg 1) (.imm 3), .imm 0x1008⟩) rfl (by decide)
  have hcount : wrapLoop.Step ⟨Label.start 0x1004, fun _ => 7, fun _ _ => 0⟩
      ⟨⟨0x1004, 1⟩, RegFile.set (fun _ => 7) 1 8, fun _ _ => 0⟩ :=
    .assign (r := 1) (e := .binary .add (.reg 1) (.imm 1)) rfl
  have hback : wrapLoop.Step ⟨⟨0x1004, 1⟩, RegFile.set (fun _ => 7) 1 8, fun _ _ => 0⟩
      ⟨Label.start 0x1000, RegFile.set (fun _ => 7) 1 8, fun _ _ => 0⟩ :=
    .taken (g := ⟨.jump, .imm 1, .imm 0x1000⟩) rfl (by decide)
  have hsteps := (((Program.Steps.refl _).tail hleave).tail hcount).tail hback
  refine ⟨_, hsteps, rfl, rfl, ?_⟩
  exact history_onWrapLoop.describes_every_execution rfl (by decide) (.stopAfter none)
    run_onWrapLoop.1 run_onWrapLoop.2 rfl (Memory.agrees_of_segments_eq_nil rfl) hsteps

end Engine

end CodeReach
