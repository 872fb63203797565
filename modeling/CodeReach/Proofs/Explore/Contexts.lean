/-
  CodeReach.Proofs.Explore.Contexts

  Explorations that join register values and keep call stacks apart.  The context of a
  state is its location together with its call stacks.

  A state above another one has the same context, and within one context a merge never
  refuses: the new state is covered, or it is joined.  So accepting a successor replaces
  the one state of its context or finds none there (`OnePerContext.accept`), and the
  reached states of an engine stay told apart by their contexts.  That holds for later
  runs as well, which enter the start state without looking at what has been reached:
  nothing is above a start state but itself.
-/
import CodeReach.Proofs.Explore.Coverage
import CodeReach.Proofs.Transfer.Merge

namespace CodeReach

namespace State

/-- The call stacks of a state, in the order of its components. -/
def callStacks (s : State) : List CallStack :=
  s.components.filterMap Component.calls?

/-- Two states at one location with the same call stacks. -/
def SameContext (s t : State) : Prop :=
  s.location = t.location ∧ s.callStacks = t.callStacks

theorem SameContext.symm {s t : State} (h : s.SameContext t) : t.SameContext s :=
  ⟨h.1.symm, h.2.symm⟩

theorem SameContext.trans {s t u : State} (h : s.SameContext t) (h' : t.SameContext u) :
    s.SameContext u :=
  ⟨h.1.trans h'.1, h.2.trans h'.2⟩

end State

namespace ComponentAnalysis

variable {a : ComponentAnalysis} {c d : Component}

theorem calls?_of_handles_values {v : ValueAnalysis} (h : (values v).Handles c) :
    c.calls? = none := by
  cases c with
  | location l => exact h.elim
  | calls k => exact h.elim
  | values r => rfl

theorem exists_of_handles_calls {k : CallAnalysis} (h : (calls k).Handles c) :
    ∃ s, c = .calls s := by
  cases c with
  | location l => exact h.elim
  | values r => exact h.elim
  | calls s => exact ⟨s, rfl⟩

/-- A component above a start component is that component. -/
theorem eq_start_of_le (h : a.le a.start d = true) : d = a.start := by
  cases a with
  | calls k => exact (eq_of_le h (Or.inr ⟨k, rfl⟩)).symm
  | values v =>
      obtain ⟨t, rfl, ht⟩ := le_values_iff.1 h
      exact congrArg Component.values (Registers.eq_unknown_of_le ht)

end ComponentAnalysis

namespace Analysis

variable {a : Analysis} {s t : State} {l : Location}

/-! ## Contexts -/

/-- Wherever register values are tracked, they are joined. -/
def JoinsValues (a : Analysis) : Prop :=
  ∀ v, .values v ∈ a.components → v.merge = .join

/-- Call stacks are only comparable with themselves. -/
theorem sameContext_of_le (hs : a.Handles s) (h : a.le s t = true) : s.SameContext t := by
  obtain ⟨hloc, hlen, hle⟩ := le_iff.1 h
  refine ⟨hloc, ?_⟩
  refine componentsLe_induction (motive := fun _ cs ds =>
    cs.filterMap Component.calls? = ds.filterMap Component.calls?) rfl ?_ hs hlen hle
  intro b bs c cs d ds hbc hbd hcd hrest
  cases b with
  | calls k =>
      obtain rfl := ComponentAnalysis.eq_of_le hcd (Or.inr ⟨k, rfl⟩)
      rw [List.filterMap_cons, List.filterMap_cons, hrest]
  | values v =>
      rw [List.filterMap_cons_none (ComponentAnalysis.calls?_of_handles_values hbc),
        List.filterMap_cons_none (ComponentAnalysis.calls?_of_handles_values hbd), hrest]

theorem callStacks_eq_nil (ha : ∀ c, .calls c ∉ a.components) (hs : a.Handles s) :
    s.callStacks = [] := by
  refine List.filterMap_eq_nil_iff.2 fun c hc => ?_
  obtain ⟨i, hi, rfl⟩ := List.mem_iff_getElem.1 hc
  have hi' : i < a.components.length := (List.Forall₂.length_eq hs).symm ▸ hi
  have hhandles := List.Forall₂.get hs hi' hi
  cases hb : a.components.get ⟨i, hi'⟩ with
  | calls k => exact absurd (hb ▸ List.get_mem a.components ⟨i, hi'⟩) (ha k)
  | values v =>
      rw [hb] at hhandles
      exact ComponentAnalysis.calls?_of_handles_values hhandles

/-- Nothing is above a start state but itself. -/
theorem eq_start_of_le (h : a.le (a.start l) t = true) : t = a.start l := by
  obtain ⟨hloc, hlen, hle⟩ := le_iff.1 h
  have hcomponents : t.components = a.components.map ComponentAnalysis.start := by
    refine componentsLe_induction (motive := fun as cs ds =>
      cs = as.map ComponentAnalysis.start → ds = as.map ComponentAnalysis.start) (fun _ => rfl)
      ?_ (handles_of_fits (fits_start a l)) hlen hle rfl
    intro b bs c cs d ds _ _ hcd hrest hstart
    obtain ⟨rfl, hcs⟩ := List.cons.inj hstart
    rw [ComponentAnalysis.eq_start_of_le hcd, hrest hcs, List.map_cons]
  obtain ⟨m, ds⟩ := t
  obtain rfl : l = m := hloc
  exact congrArg (State.mk l) hcomponents

/-- Where values are joined, components with the same call stacks are never kept apart. -/
theorem not_someKeepsApart {as : List ComponentAnalysis} {cs ds : List Component}
    (hjoins : ∀ v, .values v ∈ as → v.merge = .join)
    (hc : List.Forall₂ ComponentAnalysis.Handles as cs)
    (hd : List.Forall₂ ComponentAnalysis.Handles as ds)
    (h : cs.filterMap Component.calls? = ds.filterMap Component.calls?) :
    ¬ SomeKeepsApart as cs ds := by
  induction hc generalizing ds with
  | nil => simp [SomeKeepsApart]
  | @cons b c as cs hbc _ ih =>
      obtain ⟨d, ds, hbd, hds, rfl⟩ := List.forall₂_cons_left_iff.1 hd
      have ih := ih (fun v hv => hjoins v (List.mem_cons_of_mem _ hv)) hds
      rw [someKeepsApart_cons, not_or]
      cases b with
      | calls k =>
          obtain ⟨x, rfl⟩ := ComponentAnalysis.exists_of_handles_calls hbc
          obtain ⟨y, rfl⟩ := ComponentAnalysis.exists_of_handles_calls hbd
          obtain ⟨rfl, hrest⟩ := List.cons.inj h
          refine ⟨fun hapart => ?_, ih hrest⟩
          rw [ComponentAnalysis.le_refl] at hapart
          exact absurd hapart.2 (by decide)
      | values v =>
          have hjoin : (ComponentAnalysis.values v).joins = true := by
            simp [ComponentAnalysis.joins, hjoins v List.mem_cons_self]
          rw [List.filterMap_cons_none (ComponentAnalysis.calls?_of_handles_values hbc),
            List.filterMap_cons_none (ComponentAnalysis.calls?_of_handles_values hbd)] at h
          exact ⟨fun hapart => absurd (hjoin.symm.trans hapart.1) (by decide), ih h⟩

/-- A reached state that stays although a state of its context arrives has covered it. -/
theorem le_of_merge_eq_none (ha : a.JoinsValues) (hs : a.Handles s) (ht : a.Handles t)
    (h : s.SameContext t) (hmerge : a.merge s t = none) : a.le s t = true := by
  rcases (merge_eq_none_iff hs ht).1 hmerge with hle | hne | hapart
  · exact hle
  · exact absurd h.1 hne
  · exact absurd hapart (not_someKeepsApart ha hs ht h.2)

end Analysis

namespace Engine

variable {e e' : Engine} {parent node : Node} {edge : Edge} {edges : List Edge}
  {s t u : State}

/-! ## One successor -/

/-- A coherent engine that joins values and has reached at most one state in each context. -/
structure OnePerContext (e : Engine) : Prop extends e.Coherent where
  joins : e.analysis.JoinsValues
  unique : ∀ s t, e.IsReached s → e.IsReached t → s.SameContext t → s = t

/-- The invariant is about the reached states and the analysis only. -/
theorem OnePerContext.congr (h : e.OnePerContext) (hcoherent : e'.Coherent)
    (hreached : e'.reached = e.reached) (hanalysis : e'.analysis = e.analysis) :
    e'.OnePerContext where
  toCoherent := hcoherent
  joins := hanalysis ▸ h.joins
  unique s t hs ht := by
    rw [IsReached, hreached] at hs ht
    exact h.unique s t hs ht

theorem OnePerContext.handles (h : e.OnePerContext) (ht : e.IsReached t) : e.analysis.Handles t :=
  Analysis.handles_of_fits (h.fits t ht)

/-- There is one state in the place of each reached one after `s` was merged. -/
theorem OnePerContext.unique_merged (h : e.OnePerContext) (hs : e.analysis.Handles s)
    (ht : e.Merges s t ∨ e.Keeps s t) (hu : e.Merges s u ∨ e.Keeps s u) (htu : t.SameContext u) :
    t = u := by
  -- The two are what became of reached states in the same context, which are one.
  have horigin : ∀ {v}, e.Merges s v ∨ e.Keeps s v →
      ∃ r, e.IsReached r ∧ r.SameContext v ∧ v = (e.analysis.merge s r).getD r := by
    rintro v (⟨r, hr, hm⟩ | ⟨hv, hm⟩)
    · have habove := (Analysis.merge_above hs (h.handles hr) hm).2.1
      exact ⟨r, hr, Analysis.sameContext_of_le (h.handles hr) habove, by rw [hm]; rfl⟩
    · exact ⟨v, hv, ⟨rfl, rfl⟩, by rw [hm]; rfl⟩
  obtain ⟨r, hr, hrt, ht⟩ := horigin ht
  obtain ⟨q, hq, hqu, hu⟩ := horigin hu
  obtain rfl := h.unique r q hr hq (hrt.trans (htu.trans hqu.symm))
  rw [ht, hu]

/-- A successor is only added where no state of its context has been reached. -/
theorem OnePerContext.not_sameContext_of_adds (h : e.OnePerContext) (hs : e.analysis.Handles s)
    (hadds : e.Adds s) (ht : e.Merges s t ∨ e.Keeps s t) : ¬ t.SameContext s := by
  intro hts
  refine hadds ⟨t, ht, ?_⟩
  rcases ht with ⟨r, hr, hm⟩ | ⟨ht, hm⟩
  · exact (Analysis.merge_above hs (h.handles hr) hm).1
  · exact Analysis.le_of_merge_eq_none h.joins hs (h.handles ht) hts.symm hm

theorem OnePerContext.accept (h : e.OnePerContext) (hs : e.analysis.Fits s) :
    (e.accept parent edge s).OnePerContext where
  toCoherent := h.toCoherent.accept hs
  joins := by
    rw [refiled_accept.analysis_eq]
    exact h.joins
  unique t u ht hu htu := by
    have hhandles := Analysis.handles_of_fits hs
    rw [isReached_accept, ← or_assoc] at ht hu
    rcases ht with ht | ⟨rfl, hadds⟩
    · rcases hu with hu | ⟨rfl, hadds⟩
      · exact h.unique_merged hhandles ht hu htu
      · exact absurd htu (h.not_sameContext_of_adds hhandles hadds ht)
    · rcases hu with hu | ⟨rfl, -⟩
      · exact absurd htu.symm (h.not_sameContext_of_adds hhandles hadds hu)
      · rfl

theorem OnePerContext.expand (h : e.OnePerContext) (hnode : e.analysis.Fits node.state) :
    (e.expand parent node edges).1.OnePerContext := by
  refine (expand_invariant (motive := fun x => x.analysis = e.analysis ∧ x.OnePerContext)
    ⟨rfl, h⟩ ?_ ?_).2
  · rintro x edge child ⟨ha, hx⟩
    exact ⟨ha, hx.congr ⟨⟨hx.queued, hx.recent⟩, hx.fits, hx.reached⟩ rfl rfl⟩
  · rintro x edge s ⟨ha, hx⟩ - hpost
    rw [ha] at hpost
    exact ⟨refiled_accept.analysis_eq.trans ha,
      hx.accept (ha ▸ Analysis.fits_post hnode hpost)⟩

end Engine

namespace Exploration

variable {w : Surroundings} {x y : Exploration} {n m : Node} {r : Except Failure Unit}

/-! ## Rounds and runs -/

theorem Picks.onePerContext (h : x.Picks n y) (hx : x.engine.OnePerContext) :
    y.engine.OnePerContext :=
  hx.congr (h.coherent hx.toCoherent) h.reached h.analysis

theorem Asks.onePerContext (h : x.Asks n m y) (hx : x.engine.OnePerContext) :
    y.engine.OnePerContext :=
  hx.congr (h.coherent hx.toCoherent) h.reached h.analysis

theorem Visits.onePerContext (h : x.Visits n y r) (hx : x.engine.OnePerContext)
    (hn : x.engine.analysis.Fits n.state) : y.engine.OnePerContext := by
  cases h with
  | stuck f => exact hx
  | refused asks answer => exact asks.onePerContext hx
  | expanded asks answer =>
      exact (asks.onePerContext hx).expand (asks.analysis ▸ (asks.bounds hn).1)

theorem onePerContext_of_step_next (hx : x.engine.OnePerContext) (h : step w x = .next y) :
    y.engine.OnePerContext := by
  obtain ⟨n, x₁, hpicks, hvisits⟩ := visits_of_step_next hx.toCoherent h
  exact hvisits.onePerContext (hpicks.onePerContext hx) (hpicks.fits hx.toCoherent)

theorem onePerContext_of_step_done (hx : x.engine.OnePerContext)
    (h : step w x = .done (y, r)) : y.engine.OnePerContext := by
  rcases visits_of_step_done hx.toCoherent h with ⟨-, rfl, -⟩ | ⟨n, x₁, f, -, hpicks, hvisits, -⟩
  · exact hx
  · exact hvisits.onePerContext (hpicks.onePerContext hx) (hpicks.fits hx.toCoherent)

end Exploration

theorem EdgeSource.initial_edges (source : EdgeSource) (n : Node) :
    (source.edges n).1.initial = source.initial := by
  cases source with
  | static s => rfl
  | resolving r =>
      show Location.plain (r.edges n).1.program.startLabel = .plain r.program.startLabel
      rw [Resolver.program_edges]

namespace Engine

variable {a : Analysis} {source : EdgeSource} {policy : Policy} {settings : Settings} {e : Engine}
  {asked : List Query} {failed : List State} {w : Surroundings} {k : Nat} {x : Exploration}

theorem History.startState_eq (h : History a source policy settings e asked failed) :
    Exploration.startState e = a.start source.initial := by
  have hinitial : e.source.initial = source.initial :=
    h.source_invariant (motive := fun s _ => s.initial = source.initial)
      (fun s _ m hs => (s.initial_edges m).trans hs) rfl
  rw [Exploration.startState, h.analysis_eq, hinitial]

/-- Once something is reached, the start state is, and it stays so. -/
theorem History.isReached_startState (h : History a source policy settings e asked failed) :
    (∀ s, ¬ e.IsReached s) ∨ e.IsReached (Exploration.startState e) := by
  induction h with
  | built order => exact Or.inl (not_isReached_fresh a source policy settings order)
  | stop _ ih => exact ih
  | @run e asked failed w k x y r before loop exit _ =>
      refine Or.inr ?_
      -- The start state is covered when the run is over, and only it is above itself.
      have hafter := History.run before loop exit
      have hanalysis : y.engine.analysis = a := hafter.analysis_eq
      obtain ⟨t, ht, hle⟩ := before.coherent.covers_start loop exit
      rw [hanalysis, before.startState_eq] at hle
      rw [hafter.startState_eq, ← Analysis.eq_start_of_le hle]
      exact ht

theorem OnePerContext.start (h : e.OnePerContext)
    (hstart : (∀ s, ¬ e.IsReached s) ∨ e.IsReached (Exploration.startState e)) :
    (Exploration.start e).engine.OnePerContext where
  toCoherent := Exploration.coherent_start h.toCoherent
  joins := h.joins
  unique s t hs ht hst := by
    rw [Exploration.isReached_start] at hs ht
    rcases hstart with hnone | hstart
    · rw [hs.resolve_right (hnone s), ht.resolve_right (hnone t)]
    · have hold : ∀ {v}, v = Exploration.startState e ∨ e.IsReached v → e.IsReached v := by
        rintro v (rfl | hv)
        · exact hstart
        · exact hv
      exact h.unique s t (hold hs) (hold ht) hst

theorem OnePerContext.iterate (h : e.OnePerContext)
    (hstart : (∀ s, ¬ e.IsReached s) ∨ e.IsReached (Exploration.startState e))
    (hk : Loop.iterate (Exploration.step w) k (.start e) = .next x) : x.engine.OnePerContext :=
  Loop.iterate_invariant (motive := fun x : Exploration => x.engine.OnePerContext)
    (h.start hstart) (fun _ _ hx => Exploration.onePerContext_of_step_next hx) hk

theorem History.onePerContext (ha : a.JoinsValues)
    (h : History a source policy settings e asked failed) : e.OnePerContext := by
  induction h with
  | built order =>
      exact ⟨coherent_fresh a source policy settings order, ha,
        fun s _ hs => absurd hs (not_isReached_fresh a source policy settings order s)⟩
  | stop _ ih => exact ih.congr ⟨⟨ih.queued, ih.recent⟩, ih.fits, ih.reached⟩ rfl rfl
  | run before loop exit ih =>
      have hx := ih.iterate before.isReached_startState loop
      have hy := Exploration.onePerContext_of_step_done hx exit
      exact hy.congr ⟨⟨hy.queued, hy.recent⟩, hy.fits, hy.reached⟩ rfl rfl

/-- One reached state per context.  Let an analysis join register values wherever it tracks them and
    keep call stacks apart, at plain or split locations and over any source of edges.  At each head
    of the loop in each run, two reached states at one location with the same call stacks are the
    same state; without call stacks there is at most one state at a location.  What is reached in a
    context is only ever replaced by a larger state of that context. -/
theorem History.one_state_per_context (ha : a.JoinsValues)
    (h : History a source policy settings e asked failed)
    (hk : Loop.iterate (Exploration.step w) k (.start e) = .next x) :
    (∀ s t, x.engine.IsReached s → x.engine.IsReached t → s.location = t.location →
      s.callStacks = t.callStacks → s = t) ∧
    ((∀ c, .calls c ∉ a.components) → ∀ s t, x.engine.IsReached s → x.engine.IsReached t →
      s.location = t.location → s = t) ∧
    ∀ j y, Loop.iterate (Exploration.step w) j x = .next y → ∀ s, x.engine.IsReached s →
      ∃ t, y.engine.IsReached t ∧ a.le s t = true ∧ t.location = s.location ∧
        t.callStacks = s.callStacks := by
  have hx := (h.onePerContext ha).iterate h.isReached_startState hk
  have hanalysis : x.engine.analysis = a := (h.coherent.iterate hk).2.trans h.analysis_eq
  refine ⟨fun s t hs ht hloc hcalls => hx.unique s t hs ht ⟨hloc, hcalls⟩,
    fun hnone s t hs ht hloc => ?_, fun j y hj s hs => ?_⟩
  · have hcalls : ∀ {v}, x.engine.IsReached v → v.callStacks = [] := fun hv =>
      Analysis.callStacks_eq_nil hnone (hanalysis ▸ hx.handles hv)
    exact hx.unique s t hs ht ⟨hloc, (hcalls hs).trans (hcalls ht).symm⟩
  · obtain ⟨-, hya, t, ht, hle⟩ := Loop.iterate_invariant (motive := fun y : Exploration =>
      y.engine.Coherent ∧ y.engine.analysis = a ∧ y.engine.Covers s)
      ⟨hx.toCoherent, hanalysis, s, hs, Analysis.le_refl _ s⟩
      (fun y z ⟨hy, hya, hcovers⟩ hyz => ⟨Exploration.coherent_of_step_next hy hyz,
        (Exploration.analysis_of_step_next hy hyz).trans hya,
        Exploration.covers_of_step_next hy hcovers hyz⟩) hj
    rw [hya] at hle
    obtain ⟨hloc, hcalls⟩ := Analysis.sameContext_of_le (hanalysis ▸ hx.handles hs) hle
    exact ⟨t, ht, hle, hloc.symm, hcalls.symm⟩

/-- A transfer of control that calls a function and returns to `after`. -/
def callEdge (source target after : Word) : Edge :=
  .must (.start source) (.start target) (.assume (.imm 1) (some ⟨.call, some (.start after)⟩))

/-- Two branches with another constant in `r1` on each.  Both call the same function and go on at
    the same place, and the second one can call it from another place, too. -/
def sharedCallee : Graph :=
  .ofList [
    .must (.start 0x1000) (.start 0x1004) (.assign 1 (.imm 1)),
    .must (.start 0x1000) (.start 0x1008) (.assign 1 (.imm 2)),
    callEdge 0x1004 0x2000 0x1010, callEdge 0x1008 0x2000 0x1010, callEdge 0x1008 0x2000 0x1020]

/-- Values and calls over that graph. -/
def onSharedCallee : Engine :=
  .fresh ⟨{}, [.values { program := .blank 0x1000 }, .calls {}]⟩
    (.static ⟨sharedCallee, .plain (.start 0x1000), .forward⟩) .fifo {} .inserted

/-- A state in the function that was called. -/
def inCallee (r1 : ValueSet) (after : Word) : State :=
  ⟨.plain (.start 0x2000), [.values (Registers.unknown.set 1 r1), .calls ⟨[after]⟩]⟩

/-- After two rounds the function has been called once.  In the third round one state that arrives
    there is joined to what is known, and another one is kept apart, since it returns elsewhere. -/
theorem History.one_state_per_context_onSharedCallee :
    ∃ x y, Loop.iterate (Exploration.step (.stopAfter none)) 2 (.start onSharedCallee) = .next x ∧
      Loop.iterate (Exploration.step (.stopAfter none)) 3 (.start onSharedCallee) = .next y ∧
      x.engine.IsReached (inCallee (.const 1) 0x1010) ∧
      y.engine.IsReached (inCallee (.ofList [1, 2]) 0x1010) ∧
      y.engine.IsReached (inCallee (.const 2) 0x1020) ∧
      onSharedCallee.analysis.le (inCallee (.const 1) 0x1010)
        (inCallee (.ofList [1, 2]) 0x1010) = true ∧
      ∀ s t, y.engine.IsReached s → y.engine.IsReached t → s.location = t.location →
        s.callStacks = t.callStacks → s = t := by
  have htwo : (Loop.iterate (Exploration.step (.stopAfter none)) 2 (.start onSharedCallee)).goesOnTo
      (fun x => x.engine.reached.contains (inCallee (.const 1) 0x1010)) = true := by
    decide +kernel
  have hthree :
      (Loop.iterate (Exploration.step (.stopAfter none)) 3 (.start onSharedCallee)).goesOnTo
        (fun y => y.engine.reached.contains (inCallee (.ofList [1, 2]) 0x1010) &&
          y.engine.reached.contains (inCallee (.const 2) 0x1020)) = true := by
    decide +kernel
  obtain ⟨x, hx, hone⟩ := Progress.goesOnTo_iff.1 htwo
  obtain ⟨y, hy, hboth⟩ := Progress.goesOnTo_iff.1 hthree
  obtain ⟨hjoined, hapart⟩ := Bool.and_eq_true_iff.1 hboth
  have hbuilt : History ⟨{}, [.values { program := .blank 0x1000 }, .calls {}]⟩
      (.static ⟨sharedCallee, .plain (.start 0x1000), .forward⟩) .fifo {} onSharedCallee [] [] :=
    .built .inserted
  have hjoins : Analysis.JoinsValues
      ⟨{}, [.values { program := .blank 0x1000 }, .calls {}]⟩ := by
    intro v hv
    obtain rfl : v = { program := .blank 0x1000 } := by simpa using hv
    rfl
  obtain ⟨-, -, hgrows⟩ := hbuilt.one_state_per_context hjoins hx
  obtain ⟨hunique, -, -⟩ := hbuilt.one_state_per_context hjoins hy
  have hnext : Loop.iterate (Exploration.step (.stopAfter none)) 1 x = .next y := by
    have hsplit := Loop.iterate_add (Exploration.step (.stopAfter none)) 2 1 (.start onSharedCallee)
    rw [hx] at hsplit
    exact hsplit.symm.trans hy
  -- What the first state has become is the one state of its context.
  obtain ⟨t, ht, hle, hloc, hcalls⟩ := hgrows 1 y hnext _ hone
  obtain rfl := hunique t _ ht hjoined hloc hcalls
  exact ⟨x, y, hx, hy, hone, hjoined, hapart, hle, hunique⟩

end Engine

end CodeReach
