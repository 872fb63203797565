/-
  CodeReach.Proofs.Explore.History

  The life of an engine: it is built, it is told to stop, and it runs, as often as one
  likes.  In a `History` each run goes on until its loop is over, and pending nodes are
  picked by the policy.  In a `Life` they are picked in any order, and a run stops at any
  time; every history is such a life (`History.life`).  Either way the engine is coherent,
  at each head of the loop as well as between runs.
-/
import CodeReach.Proofs.Explore.Step

namespace CodeReach

namespace Exploration

variable {w : Surroundings} {x y : Exploration} {n m : Node} {r : Except Failure Unit}

/-! ## What a round keeps -/

theorem Picks.coherent (h : x.Picks n y) (hx : x.engine.Coherent) : y.engine.Coherent where
  toFiled := h.filed
  fits s hs := by
    rw [h.analysis]
    exact hx.fits s (by rwa [Engine.IsReached, ← h.reached])
  reached s hs := by
    rw [Engine.IsReached, h.reached]
    exact hx.reached s ((h.isPending_iff s).1 hs).2

theorem Asks.coherent (h : x.Asks n m y) (hx : x.engine.Coherent) : y.engine.Coherent where
  queued := h.worklist ▸ hx.queued
  recent k hk := Nat.lt_of_lt_of_le (hx.recent k (h.worklist ▸ hk)) h.nextId
  fits s hs := by
    rw [h.analysis]
    exact hx.fits s (by rwa [Engine.IsReached, ← h.reached])
  reached s hs := by
    rw [Engine.IsReached, h.reached]
    exact hx.reached s (by rwa [Engine.IsPending, ← h.worklist])

theorem Asks.grows (h : x.Asks n m y) : x.engine.Grows y.engine where
  analysis := h.analysis
  covered s hs := ⟨s, by rwa [Engine.IsReached, h.reached], Analysis.le_refl _ s⟩
  fresh s hs := Or.inl (by rwa [Engine.IsReached, ← h.reached])
  kept s hs _ := by rwa [Engine.IsPending, h.worklist]

/-- An adjusted node is above the one that was picked. -/
theorem Asks.bounds (h : x.Asks n m y) (hn : x.engine.analysis.Fits n.state) :
    x.engine.analysis.Fits m.state ∧ x.engine.analysis.le n.state m.state = true := by
  obtain ⟨q, hrefine, -⟩ := h.adjusted
  exact Analysis.refine_bounds hn hrefine

theorem Visits.coherent (h : x.Visits n y r) (hx : x.engine.Coherent)
    (hn : x.engine.analysis.Fits n.state) : y.engine.Coherent ∧ x.engine.Grows y.engine := by
  cases h with
  | stuck f => exact ⟨hx, .refl _⟩
  | refused asks answer => exact ⟨asks.coherent hx, asks.grows⟩
  | expanded asks answer =>
      have hm := asks.analysis ▸ (asks.bounds hn).1
      obtain ⟨hcoherent, hgrows⟩ := (asks.coherent hx).expand hm
      exact ⟨hcoherent, asks.grows.trans hgrows⟩

/-- A node that is picked from a coherent engine fits its analysis. -/
theorem Picks.fits (h : x.Picks n y) (hx : x.engine.Coherent) : y.engine.analysis.Fits n.state :=
  h.analysis ▸ hx.fits _ (hx.reached _ h.pending)

/-- Picking a node and visiting it, taken together. -/
theorem Picks.coherent_visits {z : Exploration} (h : x.Picks n y) (hx : x.engine.Coherent)
    (hvisits : y.Visits n z r) : z.engine.Coherent ∧ y.engine.Grows z.engine :=
  hvisits.coherent (h.coherent hx) (h.fits hx)

/-- A round after which the loop goes on has picked a node and visited it. -/
theorem visits_of_step_next (hx : x.engine.Coherent) (h : step w x = .next y) :
    ∃ n x₁, x.Picks n x₁ ∧ x₁.Visits n y (.ok ()) := by
  cases hgo : x.goesOn with
  | false => exact absurd ((step_of_not_goesOn w hgo).symm.trans h) (by simp)
  | true =>
      obtain ⟨n, x₁, z, r, -, hpicks, hvisits, hstep⟩ := step_of_goesOn w hx.toFiled hgo
      rw [hstep] at h
      cases r with
      | ok u =>
          obtain rfl := Progress.next.inj h
          exact ⟨n, x₁, hpicks, hvisits⟩
      | error f => exact absurd h (by simp)

/-- A last round finds that the loop is over, or it meets a failure at the node that it picked. -/
theorem visits_of_step_done (hx : x.engine.Coherent) (h : step w x = .done (y, r)) :
    (x.goesOn = false ∧ y = x ∧ r = .ok ()) ∨
    ∃ n x₁ f, x.picked? w = some n ∧ x.Picks n x₁ ∧ x₁.Visits n y (.error f) ∧ r = .error f := by
  cases hgo : x.goesOn with
  | false =>
      rw [step_of_not_goesOn w hgo] at h
      obtain ⟨rfl, rfl⟩ := Prod.mk.inj (Progress.done.inj h)
      exact Or.inl ⟨rfl, rfl, rfl⟩
  | true =>
      obtain ⟨n, x₁, z, r', hpicked, hpicks, hvisits, hstep⟩ := step_of_goesOn w hx.toFiled hgo
      rw [hstep] at h
      cases r' with
      | ok u => exact absurd h (by simp)
      | error f =>
          obtain ⟨rfl, rfl⟩ := Prod.mk.inj (Progress.done.inj h)
          exact Or.inr ⟨n, x₁, f, hpicked, hpicks, hvisits, rfl⟩

theorem coherent_of_step_next (hx : x.engine.Coherent) (h : step w x = .next y) :
    y.engine.Coherent := by
  obtain ⟨n, x₁, hpicks, hvisits⟩ := visits_of_step_next hx h
  exact (hpicks.coherent_visits hx hvisits).1

theorem coherent_of_step_done (hx : x.engine.Coherent) (h : step w x = .done (y, r)) :
    y.engine.Coherent := by
  rcases visits_of_step_done hx h with ⟨-, rfl, -⟩ | ⟨n, x₁, f, -, hpicks, hvisits, -⟩
  · exact hx
  · exact (hpicks.coherent_visits hx hvisits).1

theorem analysis_of_step_next (hx : x.engine.Coherent) (h : step w x = .next y) :
    y.engine.analysis = x.engine.analysis := by
  obtain ⟨n, x₁, hpicks, hvisits⟩ := visits_of_step_next hx h
  exact (hpicks.coherent_visits hx hvisits).2.analysis.trans hpicks.analysis

theorem analysis_of_step_done (hx : x.engine.Coherent) (h : step w x = .done (y, r)) :
    y.engine.analysis = x.engine.analysis := by
  rcases visits_of_step_done hx h with ⟨-, rfl, -⟩ | ⟨n, x₁, f, -, hpicks, hvisits, -⟩
  · rfl
  · exact (hpicks.coherent_visits hx hvisits).2.analysis.trans hpicks.analysis

/-! ## The questions of a run -/

section
variable {motive : EdgeSource → List Query → Prop} {asked : List Query}

/-- What one more question keeps true of a source of edges and the questions it was asked, a round
    keeps. -/
theorem Picks.source_invariant (h : x.Picks n y)
    (hx : motive x.engine.source (asked ++ x.trace)) :
    motive y.engine.source (asked ++ y.trace) := by
  rw [h.source, h.trace]
  exact hx

theorem Visits.source_invariant (h : x.Visits n y r)
    (hask : ∀ source asked m, motive source asked →
      motive (source.edges m).1 (asked ++ [⟨m, (source.edges m).2⟩]))
    (hx : motive x.engine.source (asked ++ x.trace)) :
    motive y.engine.source (asked ++ y.trace) := by
  cases h with
  | stuck f => exact hx
  | @refused m z f asks answer =>
      rw [asks.source, asks.trace, ← List.append_assoc]
      exact hask _ _ m hx
  | @expanded m z es asks answer =>
      show motive (z.engine.expand n m es).1.source (asked ++ z.trace)
      rw [Engine.refiled_expand.source_eq, asks.source, asks.trace, ← List.append_assoc]
      exact hask _ _ m hx

end

/-! ## The start of a run -/

/-- The state a run starts from. -/
def startState (e : Engine) : State :=
  e.analysis.start e.source.initial

theorem isReached_start {e : Engine} {s : State} :
    (start e).engine.IsReached s ↔ s = startState e ∨ e.IsReached s :=
  ReachedSet.contains_insert

theorem isPending_start {e : Engine} {s : State} :
    (start e).engine.IsPending s ↔ s = startState e ∨ e.IsPending s :=
  Worklist.contains_insert

theorem coherent_start {e : Engine} (h : e.Coherent) : (start e).engine.Coherent := by
  have hfiled : ((e.newNode (startState e)).2.enter ⟨e.nextId, startState e⟩).Filed :=
    (h.toFiled.newNode _).enter (Nat.lt_succ_self _) fun k hk => Nat.ne_of_lt (h.recent k hk)
  refine ⟨⟨hfiled.queued, hfiled.recent⟩, fun s hs => ?_, fun s hs => isReached_start.2 ?_⟩
  · rcases isReached_start.1 hs with rfl | hs
    · exact Analysis.fits_start _ _
    · exact h.fits s hs
  · exact (isPending_start.1 hs).imp_right (h.reached s)

theorem grows_start (e : Engine) : e.Grows (start e).engine where
  analysis := rfl
  covered s hs := ⟨s, isReached_start.2 (Or.inr hs), Analysis.le_refl _ s⟩
  fresh _ hs := (isReached_start.1 hs).symm.imp_right fun h => isPending_start.2 (Or.inl h)
  kept _ hs _ := isPending_start.2 (Or.inr hs)

/-- `y` comes from `x` by visiting pending nodes one after the other, in any order and without a
    failure. -/
inductive Explores (x : Exploration) : Exploration → Prop where
  | refl : Explores x x
  | visit {y y₁ z : Exploration} {n : Node} (before : Explores x y) (picks : y.Picks n y₁)
      (visits : y₁.Visits n z (.ok ())) : Explores x z

theorem Explores.coherent (h : x.Explores y) (hx : x.engine.Coherent) : y.engine.Coherent := by
  induction h with
  | refl => exact hx
  | visit _ picks visits ih => exact (picks.coherent_visits ih visits).1

/-- Every pending node can be the next one. -/
theorem exists_picks_of_mem (hx : x.engine.Filed) (hn : n ∈ x.engine.worklist.members) :
    ∃ y, x.Picks n y := by
  refine ⟨{ x with engine := { x.engine with worklist := x.engine.worklist.erase n.state } }, ?_⟩
  exact {
    member := hn
    members_subset := fun k hk => (List.mem_filter.1 hk).1
    isPending_iff := fun s => Worklist.contains_erase
    reached := rfl
    tree := rfl
    nextId := rfl
    analysis := rfl
    source := rfl
    precisions := rfl
    trace := rfl
    filed := ⟨Worklist.queued_erase hx.queued _,
      fun k hk => hx.recent k ((Worklist.queueWithout_sublist _ _).subset hk)⟩ }

/-- The state that a failing round has picked and not expanded. -/
def lost (w : Surroundings) (x : Exploration) : Except Failure Unit → List State
  | .ok () => []
  | .error _ => (x.picked? w).toList.map (·.state)

end Exploration

namespace Engine

/-! ## Lives of an engine -/

/-- An engine between two runs, with all questions it has asked the source of edges and the states
    it has failed to expand, one for each run that failed. -/
inductive History (a : Analysis) (source : EdgeSource) (policy : Policy) (settings : Settings) :
    Engine → List Query → List State → Prop where
  | built (order : Enumeration) :
      History a source policy settings (fresh a source policy settings order) [] []
  | stop {e : Engine} {asked : List Query} {failed : List State}
      (before : History a source policy settings e asked failed) :
      History a source policy settings e.stop asked failed
  | run {e : Engine} {asked : List Query} {failed : List State} {w : Surroundings} {k : Nat}
      {x y : Exploration} {r : Except Failure Unit}
      (before : History a source policy settings e asked failed)
      (loop : Loop.iterate (Exploration.step w) k (.start e) = .next x)
      (exit : Exploration.step w x = .done (y, r)) :
      History a source policy settings (finish y r).1 (asked ++ y.trace) (failed ++ x.lost w r)

/-- The same for an engine whose runs pick pending nodes in any order, and stop at any time or at a
    failure. -/
inductive Life (a : Analysis) (source : EdgeSource) :
    Engine → List Query → List State → Prop where
  | built (policy : Policy) (settings : Settings) (order : Enumeration) :
      Life a source (fresh a source policy settings order) [] []
  | stop {e : Engine} {asked : List Query} {failed : List State}
      (before : Life a source e asked failed) : Life a source e.stop asked failed
  | run {e : Engine} {asked : List Query} {failed : List State} {x : Exploration}
      (before : Life a source e asked failed) (explores : (Exploration.start e).Explores x) :
      Life a source (finish x (.ok ())).1 (asked ++ x.trace) failed
  | fail {e : Engine} {asked : List Query} {failed : List State} {x x₁ y : Exploration} {n : Node}
      {f : Failure} (before : Life a source e asked failed)
      (explores : (Exploration.start e).Explores x) (picks : x.Picks n x₁)
      (visits : x₁.Visits n y (.error f)) :
      Life a source (finish y (.error f)).1 (asked ++ y.trace) (failed ++ [n.state])

theorem not_isReached_fresh (a : Analysis) (source : EdgeSource) (policy : Policy)
    (settings : Settings) (order : Enumeration) (s : State) :
    ¬ (fresh a source policy settings order).IsReached s := by
  intro hs
  obtain ⟨n, hn, -⟩ := ReachedSet.contains_iff.1 hs
  exact absurd hn List.not_mem_nil

theorem coherent_fresh (a : Analysis) (source : EdgeSource) (policy : Policy)
    (settings : Settings) (order : Enumeration) :
    (fresh a source policy settings order).Coherent where
  queued := Worklist.queued_empty policy
  recent _ hn := absurd hn List.not_mem_nil
  fits s hs := absurd hs (not_isReached_fresh a source policy settings order s)
  reached s hs := by
    obtain ⟨n, hn, -⟩ := Worklist.contains_iff.1 hs
    exact absurd hn List.not_mem_nil

variable {a : Analysis} {source : EdgeSource} {policy : Policy} {settings : Settings} {e : Engine}
  {asked : List Query} {failed : List State} {w : Surroundings} {k : Nat} {x : Exploration}

/-- The rule for what holds at each head of the loop: rounds start from coherent engines. -/
theorem Coherent.iterate_invariant {motive : Exploration → Prop} (h : e.Coherent)
    (hstart : motive (.start e))
    (hstep : ∀ x y, x.engine.Coherent → motive x → Exploration.step w x = .next y → motive y)
    (hk : Loop.iterate (Exploration.step w) k (.start e) = .next x) :
    x.engine.Coherent ∧ motive x := by
  refine Loop.iterate_invariant (motive := fun x => x.engine.Coherent ∧ motive x)
    ⟨Exploration.coherent_start h, hstart⟩ ?_ hk
  rintro x y ⟨hx, hmotive⟩ hxy
  exact ⟨Exploration.coherent_of_step_next hx hxy, hstep x y hx hmotive hxy⟩

theorem Coherent.iterate (h : e.Coherent)
    (hk : Loop.iterate (Exploration.step w) k (.start e) = .next x) :
    x.engine.Coherent ∧ x.engine.analysis = e.analysis :=
  h.iterate_invariant (motive := fun x => x.engine.analysis = e.analysis) rfl
    (fun _ _ hx ha hstep => (Exploration.analysis_of_step_next hx hstep).trans ha) hk

theorem History.coherent (h : History a source policy settings e asked failed) : e.Coherent := by
  induction h with
  | built order => exact coherent_fresh a source policy settings order
  | stop _ ih => exact ⟨⟨ih.queued, ih.recent⟩, ih.fits, ih.reached⟩
  | run _ loop exit ih =>
      have hy := Exploration.coherent_of_step_done (ih.iterate loop).1 exit
      exact ⟨⟨hy.queued, hy.recent⟩, hy.fits, hy.reached⟩

theorem Life.coherent (h : Life a source e asked failed) : e.Coherent := by
  induction h with
  | built policy settings order => exact coherent_fresh a source policy settings order
  | stop _ ih => exact ⟨⟨ih.queued, ih.recent⟩, ih.fits, ih.reached⟩
  | run _ explores ih =>
      have hx := explores.coherent (Exploration.coherent_start ih)
      exact ⟨⟨hx.queued, hx.recent⟩, hx.fits, hx.reached⟩
  | fail _ explores picks visits ih =>
      have hx := explores.coherent (Exploration.coherent_start ih)
      have hy := (picks.coherent_visits hx visits).1
      exact ⟨⟨hy.queued, hy.recent⟩, hy.fits, hy.reached⟩

/-- The loop of a run picks nodes in one of all orders. -/
theorem Coherent.explores_iterate (h : e.Coherent)
    (hk : Loop.iterate (Exploration.step w) k (.start e) = .next x) :
    (Exploration.start e).Explores x := by
  refine (h.iterate_invariant (motive := (Exploration.start e).Explores) .refl ?_ hk).2
  intro x y hx hexplores hstep
  obtain ⟨n, x₁, hpicks, hvisits⟩ := Exploration.visits_of_step_next hx hstep
  exact hexplores.visit hpicks hvisits

theorem History.life (h : History a source policy settings e asked failed) :
    Life a source e asked failed := by
  induction h with
  | built order => exact .built policy settings order
  | stop _ ih => exact .stop ih
  | run before loop exit ih =>
      have hexplores := before.coherent.explores_iterate loop
      -- The rounds before the last have no failure, so the last one decides how the run ends.
      rcases Exploration.visits_of_step_done (before.coherent.iterate loop).1 exit with
        ⟨-, rfl, rfl⟩ | ⟨n, x₁, f, hpicked, hpicks, hvisits, rfl⟩
      · rw [Exploration.lost, List.append_nil]
        exact .run ih hexplores
      · rw [Exploration.lost, hpicked]
        exact .fail ih hexplores hpicks hvisits

theorem History.analysis_eq (h : History a source policy settings e asked failed) :
    e.analysis = a := by
  induction h with
  | built => rfl
  | stop _ ih => exact ih
  | @run e asked failed w k x y r before loop exit ih =>
      obtain ⟨hx, hanalysis⟩ := before.coherent.iterate loop
      exact (Exploration.analysis_of_step_done hx exit).trans (hanalysis.trans ih)

/-! ## What the source was asked -/

section
variable {motive : EdgeSource → List Query → Prop}

/-- The rule for what holds of the source at each head of the loop. -/
theorem Coherent.iterate_source (h : e.Coherent)
    (hask : ∀ source asked m, motive source asked →
      motive (source.edges m).1 (asked ++ [⟨m, (source.edges m).2⟩]))
    (he : motive e.source asked)
    (hk : Loop.iterate (Exploration.step w) k (.start e) = .next x) :
    motive x.engine.source (asked ++ x.trace) := by
  refine (h.iterate_invariant
    (motive := fun x => motive x.engine.source (asked ++ x.trace)) ?_ ?_ hk).2
  · show motive e.source (asked ++ [])
    rwa [List.append_nil]
  · intro x y hx hsource hstep
    obtain ⟨n, x₁, hpicks, hvisits⟩ := Exploration.visits_of_step_next hx hstep
    exact hvisits.source_invariant hask (hpicks.source_invariant hsource)

/-- The rule for what holds of the source along the whole life of an engine. -/
theorem History.source_invariant (h : History a source policy settings e asked failed)
    (hask : ∀ source asked m, motive source asked →
      motive (source.edges m).1 (asked ++ [⟨m, (source.edges m).2⟩]))
    (hbuilt : motive source []) : motive e.source asked := by
  induction h with
  | built => exact hbuilt
  | stop _ ih => exact ih
  | run before loop exit ih =>
      have hx := before.coherent.iterate_source hask ih loop
      rcases Exploration.visits_of_step_done (before.coherent.iterate loop).1 exit with
        ⟨-, rfl, -⟩ | ⟨n, x₁, f, -, hpicks, hvisits, -⟩
      · exact hx
      · exact hvisits.source_invariant hask (hpicks.source_invariant hx)

end

end Engine

end CodeReach
