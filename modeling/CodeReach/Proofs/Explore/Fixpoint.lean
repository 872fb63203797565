/-
  CodeReach.Proofs.Explore.Fixpoint

  The invariant of the exploration loop.  At each head of the loop and at each of its
  exits, pending states are reached, and a reached state is pending or has been
  expanded: the source was asked for the edges of a state above it, and whatever these
  edges lead to is covered by the states reached by now.

  Reached states are replaced by larger ones all the time, also the state that is being
  expanded.  The invariant survives because being expanded only asks for states above
  (`Grows.expanded`), and because a state that is reached for the first time is pending
  (`Grows.settled`).
-/
import CodeReach.Proofs.Explore.Termination

namespace CodeReach

namespace Engine

variable {e e' : Engine} {asked asked' : List Query} {exempt : List State} {s : State}

/-! ## Expanded states -/

/-- The source was asked for the edges of a state above `s`, and what these lead to is covered. -/
def Expanded (e : Engine) (asked : List Query) (s : State) : Prop :=
  ∃ u es, ⟨u, .ok es⟩ ∈ asked ∧ u.location = s.location ∧ e.analysis.le s u.state = true ∧
    ∀ edge ∈ es, e.Follows u.state edge

/-- Every reached state is pending or expanded, with the exempt ones left aside. -/
def Settled (e : Engine) (asked : List Query) (exempt : List State) : Prop :=
  ∀ s, e.IsReached s → s ∈ exempt ∨ e.IsPending s ∨ e.Expanded asked s

theorem Grows.expanded (h : e.Grows e') (hasked : asked ⊆ asked') (hs : e.Expanded asked s) :
    e'.Expanded asked' s := by
  obtain ⟨u, es, hquery, hloc, hle, hfollows⟩ := hs
  exact ⟨u, es, hasked hquery, hloc, h.analysis ▸ hle, fun edge hedge =>
    h.follows (hfollows edge hedge)⟩

theorem Grows.settled (h : e.Grows e') (hasked : asked ⊆ asked') (he : e.Settled asked exempt) :
    e'.Settled asked' exempt := by
  intro s hs
  rcases h.fresh s hs with hold | hpending
  · rcases he s hold with hexempt | hpending | hexpanded
    · exact Or.inl hexempt
    · exact Or.inr (Or.inl (h.kept s hpending hs))
    · exact Or.inr (Or.inr (h.expanded hasked hexpanded))
  · exact Or.inr (Or.inl hpending)

/-- A state that has been expanded needs no exemption. -/
theorem Settled.of_cons (h : e.Settled asked (s :: exempt)) (hs : e.Expanded asked s) :
    e.Settled asked exempt := by
  intro t ht
  rcases h t ht with hexempt | hrest
  · rcases List.mem_cons.1 hexempt with rfl | hexempt
    · exact Or.inr (Or.inr hs)
    · exact Or.inl hexempt
  · exact Or.inr hrest

/-- With nothing pending, only the exempt states are not expanded. -/
theorem Settled.expanded (h : e.Settled asked exempt) (hempty : e.worklist.isEmpty = true)
    (hs : e.IsReached s) : s ∈ exempt ∨ e.Expanded asked s := by
  rcases h s hs with hexempt | hpending | hexpanded
  · exact Or.inl hexempt
  · exact absurd hpending (Worklist.not_contains_of_isEmpty hempty s)
  · exact Or.inr hexpanded

end Engine

namespace Exploration

variable {w : Surroundings} {x y : Exploration} {n : Node} {r : Except Failure Unit}
  {asked : List Query} {exempt : List State}

/-! ## One round -/

/-- The picked state is no longer pending and not yet expanded. -/
theorem Picks.settled (h : x.Picks n y) (hx : x.engine.Settled (asked ++ x.trace) exempt) :
    y.engine.Settled (asked ++ y.trace) (n.state :: exempt) := by
  intro s hs
  have hold : x.engine.IsReached s := by rwa [Engine.IsReached, ← h.reached]
  by_cases hsn : s = n.state
  · exact Or.inl (hsn ▸ List.mem_cons_self)
  · rcases hx s hold with hexempt | hpending | ⟨u, es, hquery, hloc, hle, hfollows⟩
    · exact Or.inl (List.mem_cons_of_mem _ hexempt)
    · exact Or.inr (Or.inl ((h.isPending_iff s).2 ⟨hsn, hpending⟩))
    · -- The analysis and the reached states are the same as before.
      refine Or.inr (Or.inr ⟨u, es, h.trace ▸ hquery, hloc, h.analysis ▸ hle, ?_⟩)
      intro edge hedge
      obtain ⟨o, ho, hcovers⟩ := hfollows edge hedge
      refine ⟨o, h.analysis ▸ ho, fun t ht => ?_⟩
      obtain ⟨v, hv, htv⟩ := hcovers t ht
      exact ⟨v, by rwa [Engine.IsReached, h.reached], h.analysis ▸ htv⟩

/-- A visit adds to the questions and forgets none. -/
theorem Visits.asked_subset (h : x.Visits n y r) (asked : List Query) :
    asked ++ x.trace ⊆ asked ++ y.trace := by
  cases h with
  | stuck f => exact List.Subset.refl _
  | refused asks answer =>
      rw [asks.trace, ← List.append_assoc]
      exact List.subset_append_left _ _
  | @expanded m z es asks answer =>
      show asked ++ x.trace ⊆ asked ++ z.trace
      rw [asks.trace, ← List.append_assoc]
      exact List.subset_append_left _ _

/-- A visit that goes through expands the node. -/
theorem Visits.expanded_state (h : x.Visits n y r) (hok : r = .ok ()) (hx : x.engine.Coherent)
    (hn : x.engine.analysis.Fits n.state) : y.engine.Expanded y.trace n.state := by
  cases h with
  | stuck f => exact absurd hok (by simp)
  | refused asks answer => exact absurd hok (by simp)
  | @expanded m z es asks answer =>
      obtain ⟨hm, hle⟩ := asks.bounds hn
      have hz := asks.coherent hx
      have hzm : z.engine.analysis.Fits m.state := asks.analysis ▸ hm
      have hgrows : z.engine.Grows (z.engine.expand n m es).1 := (hz.expand hzm).2
      refine ⟨m, es, ?_, (Analysis.location_eq_of_le hle).symm, ?_, ?_⟩
      · show (⟨m, .ok es⟩ : Query) ∈ z.trace
        rw [asks.trace, answer]
        exact List.mem_append_right _ List.mem_cons_self
      · rw [hgrows.analysis, asks.analysis]
        exact hle
      · exact hz.follows_expand hzm hok

/-- A visit that goes through expands the picked state, which needs no exemption any more. -/
theorem Picks.settled_visits {z : Exploration} (h : x.Picks n y) (hx : x.engine.Coherent)
    (hsettled : x.engine.Settled (asked ++ x.trace) exempt) (hvisits : y.Visits n z (.ok ())) :
    z.engine.Settled (asked ++ z.trace) exempt := by
  have hgrows := (h.coherent_visits hx hvisits).2
  have hexpanded := hvisits.expanded_state rfl (h.coherent hx) (h.fits hx)
  apply (hgrows.settled (hvisits.asked_subset asked) (h.settled hsettled)).of_cons
  exact (Engine.Grows.refl _).expanded (List.subset_append_right _ _) hexpanded

/-- A visit that fails leaves the picked state exempt. -/
theorem Picks.settled_fails {z : Exploration} {f : Failure} (h : x.Picks n y)
    (hx : x.engine.Coherent) (hsettled : x.engine.Settled (asked ++ x.trace) exempt)
    (hvisits : y.Visits n z (.error f)) :
    z.engine.Settled (asked ++ z.trace) (exempt ++ [n.state]) := by
  have hgrows := (h.coherent_visits hx hvisits).2
  intro s hs
  refine (hgrows.settled (hvisits.asked_subset asked) (h.settled hsettled) s hs).imp_left ?_
  intro hexempt
  rw [List.mem_append, List.mem_singleton]
  exact (List.mem_cons.1 hexempt).symm

/-- Whatever the order in which nodes are visited, each visit settles the state that was picked. -/
theorem Explores.settled (h : x.Explores y) (hx : x.engine.Coherent)
    (hsettled : x.engine.Settled (asked ++ x.trace) exempt) :
    y.engine.Settled (asked ++ y.trace) exempt := by
  induction h with
  | refl => exact hsettled
  | visit before picks visits ih => exact picks.settled_visits (before.coherent hx) ih visits

/-- The invariant at a head or at an exit of the loop: pending states are reached, and every reached
    state is pending or expanded, with the exempt ones left aside. -/
structure Accounted (x : Exploration) (asked : List Query) (exempt : List State) : Prop where
  reached : ∀ s, x.engine.IsPending s → x.engine.IsReached s
  settled : x.engine.Settled (asked ++ x.trace) exempt

end Exploration

namespace Engine

variable {a : Analysis} {source : EdgeSource} {policy : Policy} {settings : Settings} {e : Engine}
  {asked : List Query} {failed : List State} {w : Surroundings} {k : Nat} {x : Exploration}

/-! ## Whole runs -/

/-- A run completes if it meets no failure and nothing is left to do. -/
theorem finalStatus_eq_completed {r : Except Failure Unit} :
    e.finalStatus r = .completed ↔ r = .ok () ∧ e.worklist.isEmpty = true := by
  cases r with
  | error f => simp [finalStatus]
  | ok u => simp [finalStatus]

theorem Settled.explores (h : e.Settled asked failed) (hcoherent : e.Coherent)
    (hx : (Exploration.start e).Explores x) : x.engine.Settled (asked ++ x.trace) failed := by
  refine hx.settled (Exploration.coherent_start hcoherent) ?_
  exact (Exploration.grows_start e).settled (List.subset_append_left _ _) h

theorem Life.settled (h : Life a source e asked failed) : e.Settled asked failed := by
  induction h with
  | built policy settings order =>
      exact fun s hs => absurd hs (not_isReached_fresh a source policy settings order s)
  | stop _ ih => exact ih
  | run before explores ih => exact ih.explores before.coherent explores
  | fail before explores picks visits ih =>
      have hx := explores.coherent (Exploration.coherent_start before.coherent)
      exact picks.settled_fails hx (ih.explores before.coherent explores) visits

theorem Life.accounted (h : Life a source e asked failed)
    (hx : (Exploration.start e).Explores x) : x.Accounted asked failed where
  reached := (hx.coherent (Exploration.coherent_start h.coherent)).reached
  settled := h.settled.explores h.coherent hx

theorem Life.accounted_of_failure {x₁ y : Exploration} {n : Node} {f : Failure}
    (h : Life a source e asked failed) (hx : (Exploration.start e).Explores x)
    (hpicks : x.Picks n x₁) (hvisits : x₁.Visits n y (.error f)) :
    y.Accounted asked (failed ++ [n.state]) := by
  have hcoherent := hx.coherent (Exploration.coherent_start h.coherent)
  exact ⟨(hpicks.coherent_visits hcoherent hvisits).1.reached,
    hpicks.settled_fails hcoherent (h.accounted hx).settled hvisits⟩

theorem Settled.expanded_of_completed (h : e.Settled asked failed)
    (hstatus : e.finalStatus (.ok ()) = .completed) (s : State) (hs : e.IsReached s) :
    s ∈ failed ∨ e.Expanded asked s :=
  h.expanded (finalStatus_eq_completed.1 hstatus).2 hs

/-- The loop invariant.  Take any run of any engine, with `asked` the questions and `failed` the
    states that could not be expanded in earlier runs.  Pick pending nodes in any order, and go
    through reached states in any order.  Then at each head of the loop, pending states are reached
    and all other reached states are expanded, and if nothing is pending any more, every reached
    state is; a failure exempts the state that was being expanded.  In particular all this holds at
    each head and at the exit of the loop that picks nodes by a policy. -/
theorem loop_settled :
    (∀ e asked failed, Life a source e asked failed → ∀ x, (Exploration.start e).Explores x →
      x.Accounted asked failed ∧
      (x.engine.finalStatus (.ok ()) = .completed →
        ∀ s, x.engine.IsReached s → s ∈ failed ∨ x.engine.Expanded (asked ++ x.trace) s) ∧
      ∀ n x₁ y f, x.Picks n x₁ → x₁.Visits n y (.error f) →
        y.Accounted asked (failed ++ [n.state])) ∧
    (∀ e asked failed policy settings, History a source policy settings e asked failed →
      ∀ w k x, Loop.iterate (Exploration.step w) k (.start e) = .next x →
        x.Accounted asked failed ∧
        ∀ y r, Exploration.step w x = .done (y, r) →
          y.Accounted asked (failed ++ x.lost w r) ∧
          (y.engine.finalStatus r = .completed →
            ∀ s, y.engine.IsReached s → s ∈ failed ∨ y.engine.Expanded (asked ++ y.trace) s)) := by
  refine ⟨fun e asked failed h x hx => ⟨h.accounted hx,
    (h.accounted hx).settled.expanded_of_completed,
    fun n x₁ y f hpicks hvisits => h.accounted_of_failure hx hpicks hvisits⟩, ?_⟩
  intro e asked failed policy settings h w k x hk
  have hx := h.coherent.explores_iterate hk
  refine ⟨h.life.accounted hx, fun y r hexit => ?_⟩
  -- The last round had nothing to pick, or it failed at the node that it picked; completion rules
  -- out the latter.
  rcases Exploration.visits_of_step_done (h.coherent.iterate hk).1 hexit with
    ⟨-, rfl, rfl⟩ | ⟨n, x₁, f, hpicked, hpicks, hvisits, rfl⟩
  · rw [Exploration.lost, List.append_nil]
    exact ⟨h.life.accounted hx, (h.life.accounted hx).settled.expanded_of_completed⟩
  · rw [Exploration.lost, hpicked]
    refine ⟨h.life.accounted_of_failure hx hpicks hvisits, fun hstatus => ?_⟩
    exact absurd (finalStatus_eq_completed.1 hstatus).1 (by simp)

/-- On the loop, where no run came before, the invariant has no exemptions in any order of visits;
    the loop by the policy has an exit, and there it holds as well. -/
theorem loop_settled_onWrapLoop :
    (∀ x, (Exploration.start onWrapLoop).Explores x → x.engine.Settled x.trace []) ∧
    ∃ k x y r,
      Loop.iterate (Exploration.step (.stopAfter none)) k (.start onWrapLoop) = .next x ∧
        x.engine.Settled x.trace [] ∧ Exploration.step (.stopAfter none) x = .done (y, r) ∧
        y.engine.Settled y.trace (x.lost (.stopAfter none) r) := by
  have hhistory := history_onWrapLoop
  refine ⟨fun x hx => (loop_settled.1 _ _ _ hhistory.life x hx).1.settled, ?_⟩
  obtain ⟨k, x, y, r, -, hloop, hexit, -⟩ := hhistory.coherent.exists_exit (.stopAfter none)
  obtain ⟨hhead, hexits⟩ := loop_settled.2 _ _ _ _ _ hhistory (.stopAfter none) k x hloop
  exact ⟨k, x, y, r, hloop, hhead.settled, hexit, (hexits y r hexit).1.settled⟩

end Engine

end CodeReach
