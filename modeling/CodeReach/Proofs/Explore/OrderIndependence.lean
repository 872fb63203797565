/-
  CodeReach.Proofs.Explore.OrderIndependence

  The order in which pending nodes are picked does not matter.  Let values be followed
  forward through plain locations and joined, with a threshold that tolerates as many
  constants as a value set can have, in a program whose gotos have boolean conditions.
  Then all explorations that come to an end with every goto resolved have reached the
  same states (`reached_independent_of_order`).

  A finished exploration is closed: it covers the successors of all that it covers
  (`Closed.covers_post`).  So whatever another exploration reaches, in whatever order, is
  covered by a finished one (`Closed.bounds_explores`): a successor by monotonicity, and
  a join because there is one state at each location and a join is a least upper bound.
  Two finished explorations cover each other, and that makes them equal.
-/
import CodeReach.Proofs.Explore.Joined
import CodeReach.Proofs.Explore.MonotoneEdges

namespace CodeReach

namespace Engine

variable {a : Analysis} {source : EdgeSource} {policy : Policy} {settings : Settings} {e : Engine}
  {asked : List Query} {w : Surroundings}

theorem History.life_run (h : History a source policy settings e asked [])
    (hcompleted : (e.run w).1.isCompleted = true) :
    ∃ asked, Life a source (e.run w).1 asked [] := by
  obtain ⟨k, x, y, r, -, hloop, hexit, hrun⟩ := h.coherent.exists_exit w
  rw [hrun] at hcompleted ⊢
  obtain ⟨rfl, -⟩ := finalStatus_eq_completed.1 (beq_iff_eq.1 hcompleted)
  exact ⟨_, (History.run h hloop hexit).life⟩

end Engine

/-- The state at the start label of which nothing is known. -/
def Program.startState (p : Program) : State :=
  .ofRegisters (.plain p.startLabel) .unknown

namespace Engine

variable {v : ValueAnalysis} {p : Program} {options : Settings} {e b : Engine}
  {asked : List Query}

/-! ## What holds in any order -/

/-- The invariant between two runs: there is one state at each location, reached states are pending
    or expanded, answers are those of a fresh resolver, and the start state has stayed in its place,
    if there has been a run. -/
structure Orderly (e : Engine) (v : ValueAnalysis) (p : Program) (options : Settings)
    (asked : List Query) : Prop where
  joined : e.Joined v
  settled : e.Settled asked []
  source : e.source.Resolves p options asked
  start : e.IsReached p.startState ∨ ∀ t, ¬ e.IsReached t

theorem Orderly.startState_eq (h : e.Orderly v p options asked) :
    Exploration.startState e = p.startState := by
  obtain ⟨r, hr, rfl, -, -⟩ := h.source
  rw [Exploration.startState, h.joined.analysis, hr]
  rfl

/-- Nothing is above the start state, so it stays in its place. -/
theorem Grows.isReached_startState {e' : Engine} (h : e.Grows e') (ha : e.analysis = .ofValues v)
    (hs : e.IsReached p.startState) : e'.IsReached p.startState := by
  obtain ⟨t, ht, hle⟩ := h.covered _ hs
  rw [h.analysis, ha] at hle
  obtain ⟨u, rfl, hu⟩ := Analysis.eq_ofRegisters_of_le hle
  obtain rfl := Registers.eq_unknown_of_le hu
  exact ht

end Engine

namespace Exploration

variable {x y z : Exploration} {n : Node} {v : ValueAnalysis} {p : Program} {options : Settings}
  {asked : List Query} {r : Except Failure Unit}

/-- The invariant at each head of the loop. -/
structure Orderly (x : Exploration) (v : ValueAnalysis) (p : Program) (options : Settings)
    (asked : List Query) : Prop where
  engine : x.engine.Orderly v p options (asked ++ x.trace)
  noted : x.Noted v
  started : x.engine.IsReached p.startState

theorem orderly_start {e : Engine} (h : e.Orderly v p options asked) :
    (start e).Orderly v p options asked := by
  have hreached : ∀ t, (start e).engine.IsReached t ↔ t = p.startState ∨ e.IsReached t := by
    intro t
    rw [isReached_start, h.startState_eq]
  -- The start state is reached already, or it is the only one.
  have hjoined : (start e).engine.Joined v := by
    refine ⟨coherent_start h.joined.toCoherent, h.joined.analysis, ?_, ?_⟩
    · intro l s t hs ht
      rw [hreached] at hs ht
      rcases h.start with hstarted | hnone
      · apply h.joined.unique l s t
        · exact hs.elim (fun heq => heq ▸ hstarted) id
        · exact ht.elim (fun heq => heq ▸ hstarted) id
      · have hs := hs.resolve_right (hnone _)
        have ht := ht.resolve_right (hnone _)
        exact (State.ofRegisters_inj.1 (hs.trans ht.symm)).2
    · intro l s hs
      rcases (hreached _).1 hs with heq | hs
      · rw [(State.ofRegisters_inj.1 heq).2]
        exact Registers.possible_unknown
      · exact h.joined.possible l s hs
  have hstarted : (start e).engine.IsReached p.startState := (hreached _).2 (Or.inl rfl)
  refine ⟨⟨hjoined, ?_, ?_, Or.inl hstarted⟩, noted_start h.joined.analysis, hstarted⟩
  · exact (grows_start e).settled (List.subset_append_left _ _) h.settled
  · show e.source.Resolves p options (asked ++ [])
    rw [List.append_nil]
    exact h.source

section
variable (hmerge : v.merge = .join) (hthreshold : maxConstants ≤ v.threshold)

include hmerge hthreshold in
theorem Orderly.round (h : x.Orderly v p options asked) (hpicks : x.Picks n y)
    (hvisits : y.Visits n z (.ok ())) : z.Orderly v p options asked := by
  have hx : x.engine.Coherent := h.engine.joined.toCoherent
  have hy : y.engine.Joined v := hpicks.joined h.engine.joined
  have hgrows : y.engine.Grows z.engine := (hpicks.coherent_visits hx hvisits).2
  have hstarted : z.engine.IsReached p.startState := by
    refine hgrows.isReached_startState hy.analysis ?_
    rw [Engine.IsReached, hpicks.reached]
    exact h.started
  have hsettled := hpicks.settled_visits hx h.engine.settled hvisits
  have hsource : z.engine.source.Resolves p options (asked ++ z.trace) := by
    apply hvisits.source_invariant (motive := fun source asked => source.Resolves p options asked)
    · exact fun _ _ m hsource => hsource.ask m
    · rw [hpicks.source, hpicks.trace]
      exact h.engine.source
  -- What is left are the states at each location and the constants noted there.
  obtain ⟨hn, s, hs, hpossible⟩ := hpicks.possible h.engine.joined
  obtain ⟨z₁, es, -, hjoined₁, hz₁, -, rfl⟩ :=
    hvisits.expands rfl hy (hpicks.noted h.noted) hthreshold hn
  have hfits : z₁.engine.analysis.Fits n.state := by
    rw [hjoined₁.analysis, hs]
    exact Analysis.fits_ofRegisters
  have hexpand : z₁.engine.Grows (z₁.engine.expand n n es).1 :=
    (hjoined₁.toCoherent.expand hfits).2
  exact ⟨⟨hjoined₁.expand hmerge hs hpossible, hsettled, hsource, Or.inl hstarted⟩,
    hz₁.of_grows hjoined₁.analysis hexpand rfl, hstarted⟩

include hmerge hthreshold in
theorem Orderly.explores (h : x.Orderly v p options asked) (hexplores : x.Explores y) :
    y.Orderly v p options asked := by
  induction hexplores with
  | refl => exact h
  | visit _ picks visits ih => exact ih.round hmerge hthreshold picks visits

end

end Exploration

namespace Engine

variable {v : ValueAnalysis} {p : Program} {options : Settings} {e b : Engine}
  {asked asked' : List Query} {failed : List State} {n : Node} {es : List Edge} {edge : Edge}
  {x y : Exploration}

theorem Orderly.relabel (h : e.Orderly v p options asked) (status : RunStatus) (stopped : Bool) :
    ({ e with status, stopped } : Engine).Orderly v p options asked where
  joined :=
    have hjoined := h.joined
    hjoined.congr ⟨⟨hjoined.queued, hjoined.recent⟩, hjoined.fits, hjoined.reached⟩ rfl rfl
  settled := h.settled
  source := h.source
  start := h.start

theorem orderly_fresh (v : ValueAnalysis) (p : Program) (options : Settings) (policy : Policy)
    (settings : Settings) (order : Enumeration) :
    (fresh (.ofValues v) (.resolving (.fresh p options)) policy settings order).Orderly v p options
      [] := by
  have hcoherent := coherent_fresh (.ofValues v) (.resolving (.fresh p options)) policy settings
    order
  have hnone := not_isReached_fresh (.ofValues v) (.resolving (.fresh p options)) policy settings
    order
  refine ⟨⟨hcoherent, rfl, ?_, ?_⟩, ?_, ?_, Or.inr hnone⟩
  · exact fun l s t hs _ => absurd hs (hnone _)
  · exact fun l s hs => absurd hs (hnone _)
  · exact fun s hs => absurd hs (hnone s)
  · exact ⟨_, rfl, rfl, rfl, fun _ hq => absurd hq List.not_mem_nil⟩

section
variable (hmerge : v.merge = .join) (hthreshold : maxConstants ≤ v.threshold)

include hmerge hthreshold in
theorem Life.orderly (h : Life (.ofValues v) (.resolving (.fresh p options)) e asked failed)
    (hnone : failed = []) : e.Orderly v p options asked := by
  induction h with
  | built policy settings order => exact orderly_fresh v p options policy settings order
  | stop _ ih => exact (ih hnone).relabel _ _
  | run _ explores ih =>
      have hx := (Exploration.orderly_start (ih hnone)).explores hmerge hthreshold explores
      exact hx.engine.relabel _ _
  | fail => exact absurd hnone (by simp)

end

/-! ## Finished explorations -/

/-- The engine has one state at each location, has expanded all of them and could resolve whatever
    it asked for. -/
structure Closed (b : Engine) (v : ValueAnalysis) (p : Program) (options : Settings)
    (asked : List Query) : Prop where
  joined : b.Joined v
  expanded : ∀ s, b.IsReached s → b.Expanded asked s
  answers : ∀ q ∈ asked, q.answer = ((Resolver.fresh p options).edges q.node).2 ∧
    (Resolver.fresh p options).resolves q.node.state = true
  started : b.IsReached p.startState

/-- A closed engine covers the successors of all that it covers, along every edge that a state below
    may have. -/
theorem Closed.covers_post (hb : b.Closed v p options asked) (hv : v.program = p)
    (hboolean : p.BooleanGotos) {l : Location} {s : Registers} {t : State}
    (hn : n.state = .ofRegisters l s) (hs : s.Possible) (hcovers : b.Covers n.state)
    (hes : ((Resolver.fresh p options).edges n).2 = .ok es)
    (hres : (Resolver.fresh p options).resolves n.state = true) (hedge : edge ∈ es)
    (hpost : (Analysis.ofValues v).post n.state edge = .ok (some t)) : b.Covers t := by
  -- The state below lies under one whose edges have all been followed.
  obtain ⟨c, hc, hnc⟩ := hcovers
  obtain ⟨u, es', hquery, -, hcu, hfollows⟩ := hb.expanded c hc
  have hnu := Analysis.le_trans hnc hcu
  rw [hb.joined.analysis, hn] at hnu
  obtain ⟨s', hu, hle⟩ := Analysis.eq_ofRegisters_of_le hnu
  obtain ⟨hanswer, hres'⟩ := hb.answers _ hquery
  rw [hn] at hpost
  obtain ⟨t', rfl, hstep⟩ := Analysis.exists_of_post hpost
  rcases Resolver.mem_edges_of_le (r := .fresh p options) hboolean hs hle hn hu hes hanswer.symm
    hres hres' hedge with hedge' | hnowhere
  · -- The edge was followed from above, and what it led to from there is covered.
    obtain ⟨o, hpost', hcovered⟩ := hfollows edge hedge'
    rw [hb.joined.analysis, hu, Analysis.post_ofRegisters] at hpost'
    cases hstep' : v.step s' edge.stmt with
    | error f =>
        rw [hstep'] at hpost'
        exact absurd hpost' (by simp [Except.map])
    | ok o' =>
        rw [hstep'] at hpost'
        obtain ⟨u', rfl, hle', -⟩ := ValueAnalysis.step_le hs hle hstep hstep'
        obtain ⟨d, hd, hud⟩ := hb.joined.covers_iff.1 (hcovered _ (Except.ok.inj hpost').symm)
        exact hb.joined.covers_iff.2 ⟨d, hd, Registers.le_trans hle' hud⟩
  · exact absurd (hnowhere v hv _ hstep) (by simp)

section
variable (hmerge : v.merge = .join) (hthreshold : maxConstants ≤ v.threshold)
  (hv : v.program = p) (hboolean : p.BooleanGotos)

include hmerge hthreshold hv hboolean in
/-- Whatever an exploration reaches from states that are covered in a closed engine is covered
    there, as long as the gotos it meets are resolved. -/
theorem Closed.bounds_explores (hb : b.Closed v p options asked)
    (hx : x.Orderly v p options asked') (hbounds : b.Bounds x.engine) (h : x.Explores y)
    (hres : ∀ q ∈ y.trace, (Resolver.fresh p options).resolves q.node.state = true) :
    b.Bounds y.engine := by
  induction h with
  | refl => exact hbounds
  | @visit y y₁ z n before picks visits ih =>
      have hy := hx.explores hmerge hthreshold before
      obtain ⟨hn, s, hs, hpossible⟩ := picks.possible hy.engine.joined
      obtain ⟨z₁, es, hasks, hz₁, -, hanswer, rfl⟩ := visits.expands rfl
        (picks.joined hy.engine.joined) (picks.noted hy.noted) hthreshold hn
      -- The questions asked so far and the one about the picked node.
      have htrace : z₁.trace = y.trace ++ [⟨n, (y₁.engine.source.edges n).2⟩] := by
        rw [hasks.trace, picks.trace]
      have hbefore : b.Bounds y.engine := ih fun q hq =>
        hres q (htrace ▸ List.mem_append_left _ hq)
      have hresn : (Resolver.fresh p options).resolves n.state = true :=
        hres _ (htrace ▸ List.mem_append_right _ (List.mem_singleton_self _))
      obtain ⟨r, hr, hprogram, hsettings, -⟩ := hy.engine.source
      have hes : ((Resolver.fresh p options).edges n).2 = .ok es := by
        rw [← hanswer, picks.source, hr]
        exact (Resolver.answer_congr (q := .fresh p options) hprogram hsettings n).symm
      refine Bounds.expand hmerge hs hpossible ?_ hb.joined hz₁ ?_
      · intro t ht
        rw [IsReached, hasks.reached, picks.reached] at ht
        exact hbefore t ht
      · intro edge hedge t hpost
        have hcovers : b.Covers n.state := hbefore _ (hy.engine.joined.reached _ picks.pending)
        exact hb.covers_post hv hboolean hs hpossible hcovers hes hresn hedge hpost

include hmerge hthreshold hv hboolean in
theorem Closed.bounds_life (hb : b.Closed v p options asked)
    (h : Life (.ofValues v) (.resolving (.fresh p options)) e asked' failed) (hnone : failed = [])
    (hres : ∀ q ∈ asked', (Resolver.fresh p options).resolves q.node.state = true) :
    b.Bounds e := by
  induction h with
  | built policy settings order => exact fun t ht => absurd ht (not_isReached_fresh _ _ _ _ _ t)
  | stop _ ih => exact ih hnone hres
  | fail => exact absurd hnone (by simp)
  | @run e asked' failed x before explores ih =>
      have he := before.orderly hmerge hthreshold hnone
      have hbounds : b.Bounds (Exploration.start e).engine := by
        intro t ht
        rcases Exploration.isReached_start.1 ht with rfl | ht
        · rw [he.startState_eq]
          exact ⟨_, hb.started, Analysis.le_refl _ _⟩
        · exact ih hnone (fun q hq => hres q (List.mem_append_left _ hq)) t ht
      exact hb.bounds_explores hmerge hthreshold hv hboolean (Exploration.orderly_start he) hbounds
        explores fun q hq => hres q (List.mem_append_right _ hq)

include hmerge hthreshold in
/-- An engine that has completed a run with every goto resolved is closed. -/
theorem Life.closed (h : Life (.ofValues v) (.resolving (.fresh p options)) e asked failed)
    (hnone : failed = []) (hcompleted : e.isCompleted = true) (hsound : e.isSound = true) :
    e.Closed v p options asked := by
  have he := h.orderly hmerge hthreshold hnone
  -- The status tells that the latest run came to its end, whatever happened afterwards.
  have hended : e.worklist.isEmpty = true ∧ e.IsReached p.startState := by
    clear he hsound
    induction h with
    | built policy settings order => exact absurd hcompleted (by simp [isCompleted, fresh])
    | stop _ ih => exact ih hnone hcompleted
    | fail => exact absurd hnone (by simp)
    | @run _ _ _ x before explores ih =>
        have hstatus : x.engine.finalStatus (.ok ()) = .completed := beq_iff_eq.1 hcompleted
        obtain ⟨-, hempty⟩ := finalStatus_eq_completed.1 hstatus
        have hstart := Exploration.orderly_start (before.orderly hmerge hthreshold hnone)
        exact ⟨hempty, (hstart.explores hmerge hthreshold explores).started⟩
  obtain ⟨r, hr, -, -, hasked⟩ := he.source
  have hrsound : r.sound = true := by
    rw [isSound, hr] at hsound
    exact hsound
  refine ⟨he.joined, fun s hs => ?_, fun q hq => ?_, hended.2⟩
  · exact (he.settled.expanded hended.1 hs).resolve_left List.not_mem_nil
  · exact ⟨(hasked q hq).1, (hasked q hq).2 hrsound⟩

/-- Engines that cover each other, with one state at each location, have reached the same. -/
theorem Joined.isReached_of_bounds {e' : Engine} {t : State} (h : e.Joined v) (h' : e'.Joined v)
    (hbounds : e.Bounds e') (hbounds' : e'.Bounds e) (ht : e.IsReached t) : e'.IsReached t := by
  obtain ⟨s, hs⟩ := h.eq_ofRegisters ht
  rw [hs] at ht ⊢
  -- The way up into the other engine and back ends at the state itself, the only one there.
  obtain ⟨u, hu, hsu⟩ := h'.covers_iff.1 (hbounds' _ ht)
  obtain ⟨c, hc, huc⟩ := h.covers_iff.1 (hbounds _ hu)
  obtain rfl := h.unique _ c s hc ht
  rw [Registers.le_antisymm hsu huc]
  exact hu

include hmerge hthreshold hv hboolean in
/-- Two engines that have completed a run with every goto resolved bound each other. -/
theorem Life.isReached_iff {e' : Engine} {t : State}
    (h : Life (.ofValues v) (.resolving (.fresh p options)) e asked [])
    (h' : Life (.ofValues v) (.resolving (.fresh p options)) e' asked' [])
    (hcompleted : e.isCompleted = true) (hsound : e.isSound = true)
    (hcompleted' : e'.isCompleted = true) (hsound' : e'.isSound = true) :
    e.IsReached t ↔ e'.IsReached t := by
  have hclosed := h.closed hmerge hthreshold rfl hcompleted hsound
  have hclosed' := h'.closed hmerge hthreshold rfl hcompleted' hsound'
  have hbounds : e.Bounds e' := hclosed.bounds_life hmerge hthreshold hv hboolean h' rfl
    fun q hq => (hclosed'.answers q hq).2
  have hbounds' : e'.Bounds e := hclosed'.bounds_life hmerge hthreshold hv hboolean h rfl
    fun q hq => (hclosed.answers q hq).2
  constructor
  · exact hclosed.joined.isReached_of_bounds hclosed'.joined hbounds hbounds'
  · exact hclosed'.joined.isReached_of_bounds hclosed.joined hbounds' hbounds

end

/-- The order of picking does not matter.  Follow values alone, forward through plain locations, in
    a program whose gotos have boolean conditions; join them, with a threshold that is at least the
    size of a value set.  Take two engines over resolvers of the program with the same options,
    which may differ in all other settings.  If both have completed a run and resolved every goto,
    and have met no failure, they have reached the same states, in whatever order they picked
    pending nodes in all their runs; in particular so, if they picked them by any two policies. -/
theorem reached_independent_of_order (hv : v.program = p) (hboolean : p.BooleanGotos)
    (hmerge : v.merge = .join) (hthreshold : maxConstants ≤ v.threshold) :
    (∀ e e' asked asked', Life (.ofValues v) (.resolving (.fresh p options)) e asked [] →
      Life (.ofValues v) (.resolving (.fresh p options)) e' asked' [] →
      e.isCompleted = true → e.isSound = true → e'.isCompleted = true → e'.isSound = true →
      ∀ t, e.IsReached t ↔ e'.IsReached t) ∧
    (∀ e e' policy policy' settings settings' asked asked' w w',
      History (.ofValues v) (.resolving (.fresh p options)) policy settings e asked [] →
      History (.ofValues v) (.resolving (.fresh p options)) policy' settings' e' asked' [] →
      (e.run w).1.isCompleted = true → (e.run w).1.isSound = true →
      (e'.run w').1.isCompleted = true → (e'.run w').1.isSound = true →
      ∀ t, (e.run w).1.IsReached t ↔ (e'.run w').1.IsReached t) := by
  constructor
  · intro e e' asked asked' h h' hc hs hc' hs' t
    exact h.isReached_iff hmerge hthreshold hv hboolean h' hc hs hc' hs'
  · intro e e' policy policy' settings settings' asked asked' w w' h h' hc hs hc' hs' t
    obtain ⟨_, hlife⟩ := h.life_run hc
    obtain ⟨_, hlife'⟩ := h'.life_run hc'
    exact hlife.isReached_iff hmerge hthreshold hv hboolean hlife' hc hs hc' hs'

/-- Two branches that meet again, with another constant in `r1` on each. -/
def diamond : Program :=
  .assemble 0x1000 [
    .instruction 0x1000 4 "beqz" [.goto ⟨.jump, .binary .eq (.reg 2) (.imm 0), .imm 0x1008⟩],
    .instruction 0x1004 4 "one" [.assign 1 (.imm 1), .goto ⟨.jump, .imm 1, .imm 0x100c⟩],
    .instruction 0x1008 4 "two" [.assign 1 (.imm 2)],
    .instruction 0x100c 4 "hlt" [.halt]]

/-- The values in that program, joined where the branches meet. -/
def onDiamond (policy : Policy) : Engine :=
  .fresh (.ofValues { program := diamond, threshold := maxConstants })
    (.resolving (.fresh diamond {})) policy {} .inserted

theorem history_onDiamond (policy : Policy) :
    History (.ofValues { program := diamond, threshold := maxConstants })
      (.resolving (.fresh diamond {})) policy {} (onDiamond policy) [] [] :=
  .built .inserted

theorem run_onDiamond (policy : Policy) :
    ((onDiamond policy).run (.stopAfter none)).1.isCompleted = true ∧
      ((onDiamond policy).run (.stopAfter none)).1.isSound = true := by
  cases policy <;> decide +kernel

/-- Picking the newest node first gets to the end before the second branch is followed, and so once
    more than picking the oldest first; the states reached are the same. -/
theorem reached_independent_of_order_onDiamond :
    ((onDiamond .fifo).run (.stopAfter none)).2.trace.length = 5 ∧
      ((onDiamond .lifo).run (.stopAfter none)).2.trace.length = 6 ∧
      ∀ t, ((onDiamond .fifo).run (.stopAfter none)).1.IsReached t ↔
        ((onDiamond .lifo).run (.stopAfter none)).1.IsReached t := by
  refine ⟨by decide +kernel, by decide +kernel, ?_⟩
  obtain ⟨hcompleted, hsound⟩ := run_onDiamond .fifo
  obtain ⟨hcompleted', hsound'⟩ := run_onDiamond .lifo
  exact (reached_independent_of_order (v := { program := diamond, threshold := maxConstants })
    (p := diamond) rfl (by decide) rfl (Nat.le_refl _)).2 _ _ _ _ _ _ _ _ _ _
    (history_onDiamond .fifo) (history_onDiamond .lifo) hcompleted hsound hcompleted' hsound'

end Engine

end CodeReach
