/-
  CodeReach.Proofs.Explore.Subsumption

  Accepting a successor loses nothing, settles in one go, and does not depend on the
  order in which the reached states are gone through.

  Several reached states may absorb a successor at once, and what they are replaced by
  may be reached already or be about to be replaced itself.  None of this matters to
  the outcome: which states are reached and pending afterwards is a matter of which
  ones were before (`SameStates.accept`).  Every state that is then reached leaves the
  successor nothing to change (`merge_of_isReached_accept`), so that accepting it once
  more does nothing (`accept_of_settled`).
-/
import CodeReach.Proofs.Explore.Accept
import CodeReach.Proofs.Transfer.Merge

namespace CodeReach

namespace Engine

variable {e e' : Engine} {parent parent' : Node} {edge edge' : Edge} {s t : State}

/-! ## Accepting once more -/

/-- No state that is reached once `s` has been accepted has anything to absorb of it. -/
theorem merge_of_isReached_accept (hreached : ∀ t, e.IsReached t → e.analysis.Handles t)
    (hs : e.analysis.Handles s) (ht : (e.accept parent edge s).IsReached t) :
    e.analysis.merge s t = none := by
  rcases isReached_accept.1 ht with ⟨r, hr, hm⟩ | hkeeps | ⟨rfl, -⟩
  · -- What has taken the place of a reached state is above the successor.
    exact Analysis.merge_of_le (Analysis.merge_above hs (hreached r hr) hm).1
  · exact hkeeps.2
  · exact Analysis.merge_of_le (Analysis.le_refl _ t)

theorem absorbers_eq_nil (h : ∀ t, e.IsReached t → e.analysis.merge s t = none) :
    e.absorbers s = [] := by
  refine List.eq_nil_iff_forall_not_mem.2 fun a ha => ?_
  obtain ⟨hreached, hmerge⟩ := mem_absorbers.1 ⟨a, ha, rfl, rfl⟩
  rw [h _ hreached] at hmerge
  exact absurd hmerge (by simp)

/-- A state that is covered and has nothing to add only uses up an identity. -/
theorem accept_of_settled (hmerge : ∀ t, e.IsReached t → e.analysis.merge s t = none)
    (hcovers : e.Covers s) : e.accept parent edge s = (e.newNode s).2 := by
  have hnil : (e.newNode s).2.absorbers s = [] := absorbers_eq_nil hmerge
  have habsorb : e.absorb parent edge s = (e.newNode s).2 := by
    rw [absorb, hnil]
    rfl
  have hcov : e.analysis.covers e.reached s = true := Analysis.covers_iff.2 hcovers
  rw [accept_eq, habsorb]
  exact if_pos hcov

/-! ## Order -/

/-- The engines have the same analysis, and the same states are reached and pending in them, however
    these are arranged. -/
structure SameStates (e e' : Engine) : Prop where
  analysis : e'.analysis = e.analysis
  reached : ∀ t, e'.IsReached t ↔ e.IsReached t
  pending : ∀ t, e'.IsPending t ↔ e.IsPending t

theorem SameStates.keeps_iff (h : e.SameStates e') : e'.Keeps s t ↔ e.Keeps s t := by
  rw [Keeps, Keeps, h.analysis, h.reached]

theorem SameStates.merges_iff (h : e.SameStates e') : e'.Merges s t ↔ e.Merges s t := by
  simp only [Merges, h.analysis, h.reached]

theorem SameStates.adds_iff (h : e.SameStates e') : e'.Adds s ↔ e.Adds s := by
  simp only [Adds, h.analysis, h.merges_iff, h.keeps_iff]

/-- What is reached and pending after an acceptance depends on nothing but what was before. -/
theorem SameStates.accept (h : e.SameStates e') (hpending : ∀ t, e.IsPending t → e.IsReached t) :
    (e.accept parent edge s).SameStates (e'.accept parent' edge' s) where
  analysis := by rw [refiled_accept.analysis_eq, refiled_accept.analysis_eq, h.analysis]
  reached t := by
    rw [isReached_accept, isReached_accept, h.merges_iff, h.keeps_iff, h.adds_iff]
  pending t := by
    have hpending' : e'.IsPending t → e'.IsReached t := fun ht =>
      (h.reached t).2 (hpending t ((h.pending t).1 ht))
    rw [isPending_accept (hpending t), isPending_accept hpending', h.merges_iff, h.keeps_iff,
      h.adds_iff, h.pending]

/-- Acceptance loses nothing and is stable.  What was covered stays covered, and the successor is
    covered as well.  Pending states are reached, and states reached for the first time are pending.
    Accepting the successor once more changes neither container.  And which states are reached and
    pending does not depend on how those that were reached and pending before are arranged, and so
    not on the order in which they are asked to absorb the successor. -/
theorem accept_covers_and_settles (e : Engine) (parent : Node) (edge : Edge) (s : State)
    (hreached : ∀ t, e.IsReached t → e.analysis.Handles t)
    (hpending : ∀ t, e.IsPending t → e.IsReached t) (hs : e.analysis.Handles s) :
    (∀ t, e.Covers t → (e.accept parent edge s).Covers t) ∧
      (e.accept parent edge s).Covers s ∧
      (∀ t, (e.accept parent edge s).IsPending t → (e.accept parent edge s).IsReached t) ∧
      (∀ t, (e.accept parent edge s).IsReached t → ¬ e.IsReached t →
        (e.accept parent edge s).IsPending t) ∧
      (∀ parent' edge',
        ((e.accept parent edge s).accept parent' edge' s).reached =
            (e.accept parent edge s).reached ∧
          ((e.accept parent edge s).accept parent' edge' s).worklist =
            (e.accept parent edge s).worklist) ∧
      ∀ e', e.SameStates e' → ∀ parent' edge' t,
        ((e'.accept parent' edge' s).IsReached t ↔ (e.accept parent edge s).IsReached t) ∧
          ((e'.accept parent' edge' s).IsPending t ↔ (e.accept parent edge s).IsPending t) := by
  have hgrows : e.Grows (e.accept parent edge s) := grows_accept hreached hpending hs
  refine ⟨fun t => hgrows.covers, covers_accept, ?_, ?_, ?_, ?_⟩
  · exact fun t => isReached_of_isPending_accept (hpending t)
  · exact fun t ht hnew => (hgrows.fresh t ht).resolve_left hnew
  · intro parent' edge'
    have hmerge : ∀ t, (e.accept parent edge s).IsReached t →
        (e.accept parent edge s).analysis.merge s t = none := by
      intro t ht
      rw [refiled_accept.analysis_eq]
      exact merge_of_isReached_accept hreached hs ht
    rw [accept_of_settled hmerge covers_accept]
    exact ⟨rfl, rfl⟩
  · intro e' hsame parent' edge' t
    have hafter : (e.accept parent edge s).SameStates (e'.accept parent' edge' s) :=
      hsame.accept hpending
    exact ⟨hafter.reached t, hafter.pending t⟩

/-- An engine in which two states of the analysis `joinedAndApart` have been entered. -/
def entering (first second : State) : Engine :=
  let e := overGraph .forward .empty (.plain (.start 0x1000)) Analysis.joinedAndApart.components
    .inserted
  { (e.enter ⟨0, first⟩).enter ⟨1, second⟩ with nextId := 2 }

theorem isReached_entering {first second : State} :
    (entering first second).IsReached t ↔ t = second ∨ t = first := by
  have hnone : ¬ (ReachedSet.empty none).contains t = true := by
    rw [ReachedSet.contains_iff]
    rintro ⟨n, hn, -⟩
    exact absurd hn List.not_mem_nil
  refine ReachedSet.contains_insert.trans (or_congr_right ?_)
  exact ReachedSet.contains_insert.trans (or_iff_left hnone)

theorem isPending_entering {first second : State} :
    (entering first second).IsPending t ↔ t = second ∨ t = first := by
  have hnone : ¬ (Worklist.empty .fifo).contains t = true :=
    Worklist.not_contains_of_isEmpty rfl t
  refine Worklist.contains_insert.trans (or_congr_right ?_)
  exact Worklist.contains_insert.trans (or_iff_left hnone)

/-- A state with nothing known where states are kept apart. -/
def wide : State :=
  Analysis.knowing 2 .unknown

/-- A state with one constant known where states are kept apart. -/
def narrow : State :=
  Analysis.knowing 3 (.const 5)

/-- A successor that both of them absorb. -/
def arriving : State :=
  Analysis.knowing 1 (.const 5)

/-- The edge along which the successor arrives. -/
def selfLoop : Edge :=
  .must (.start 0x1000) (.start 0x1000) .skip

/-- Two reached states are replaced at once, and it does not matter which of them was entered
    first. -/
theorem accept_covers_and_settles_arriving :
    ((entering wide narrow).absorbers arriving).length = 2 ∧
      ((entering wide narrow).accept ⟨0, wide⟩ selfLoop arriving).Covers wide ∧
      ((entering wide narrow).accept ⟨0, wide⟩ selfLoop arriving).Covers narrow ∧
      ((entering wide narrow).accept ⟨0, wide⟩ selfLoop arriving).Covers arriving ∧
      (((entering wide narrow).accept ⟨0, wide⟩ selfLoop arriving).accept ⟨1, narrow⟩ selfLoop
        arriving).reached = ((entering wide narrow).accept ⟨0, wide⟩ selfLoop arriving).reached ∧
      ∀ t, ((entering narrow wide).accept ⟨0, narrow⟩ selfLoop arriving).IsReached t ↔
        ((entering wide narrow).accept ⟨0, wide⟩ selfLoop arriving).IsReached t := by
  have hreached : ∀ t, (entering wide narrow).IsReached t →
      (entering wide narrow).analysis.Handles t := by
    intro t ht
    rcases isReached_entering.1 ht with rfl | rfl
    · exact Analysis.handles_knowing _ _
    · exact Analysis.handles_knowing _ _
  have hpending : ∀ t, (entering wide narrow).IsPending t → (entering wide narrow).IsReached t :=
    fun t ht => isReached_entering.2 (isPending_entering.1 ht)
  have hswapped : (entering wide narrow).SameStates (entering narrow wide) :=
    ⟨rfl, fun t => by rw [isReached_entering, isReached_entering, or_comm],
      fun t => by rw [isPending_entering, isPending_entering, or_comm]⟩
  have hcovers : ∀ t, (entering wide narrow).IsReached t → (entering wide narrow).Covers t :=
    fun t ht => ⟨t, ht, Analysis.le_refl _ t⟩
  obtain ⟨hkept, hs, -, -, hagain, hsame⟩ := accept_covers_and_settles (entering wide narrow)
    ⟨0, wide⟩ selfLoop arriving hreached hpending (Analysis.handles_knowing _ _)
  refine ⟨by decide +kernel, ?_, ?_, hs, (hagain _ _).1, fun t => (hsame _ hswapped _ _ t).1⟩
  · exact hkept wide (hcovers wide (isReached_entering.2 (Or.inr rfl)))
  · exact hkept narrow (hcovers narrow (isReached_entering.2 (Or.inl rfl)))

end Engine

end CodeReach
