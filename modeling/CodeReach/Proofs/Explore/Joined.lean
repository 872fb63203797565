/-
  CodeReach.Proofs.Explore.Joined

  Explorations that follow values alone and join them.  At each location there is at most
  one reached state, and accepting a successor there replaces it by the join of the two
  (`Joined.cases_accept`).

  Reached states only grow, so the constants noted at a location stay possible in the
  state reached there (`Noted`).  With a threshold that tolerates as many constants as a
  value set can have, no node is therefore ever changed by an adjustment
  (`Asks.eq_of_noted`), and a round expands exactly the state that it picked.
-/
import CodeReach.Proofs.Explore.History
import CodeReach.Proofs.Transfer.ValueStates

namespace CodeReach

namespace Engine

variable {v : ValueAnalysis} {b e e' : Engine} {parent node : Node} {edge : Edge}
  {edges : List Edge} {l m : Location} {s u : Registers} {t : State}

/-- A coherent engine that follows values alone, with at most one reached state at a location and no
    state that describes nothing. -/
structure Joined (e : Engine) (v : ValueAnalysis) : Prop extends e.Coherent where
  analysis : e.analysis = .ofValues v
  unique : ∀ l s t, e.IsReached (.ofRegisters l s) → e.IsReached (.ofRegisters l t) → s = t
  possible : ∀ l s, e.IsReached (.ofRegisters l s) → s.Possible

theorem Joined.eq_ofRegisters (h : e.Joined v) (ht : e.IsReached t) :
    ∃ s, t = .ofRegisters t.location s :=
  Analysis.eq_ofRegisters_of_fits (h.analysis ▸ h.fits t ht)

/-- What is covered at a location is below the state reached there. -/
theorem Joined.covers_iff (h : e.Joined v) : e.Covers (.ofRegisters l s) ↔
    ∃ u, e.IsReached (.ofRegisters l u) ∧ s.le u = true := by
  rw [Covers, h.analysis]
  constructor
  · rintro ⟨t, ht, hle⟩
    obtain ⟨u, rfl, hsu⟩ := Analysis.eq_ofRegisters_of_le hle
    exact ⟨u, ht, hsu⟩
  · rintro ⟨u, hu, hsu⟩
    exact ⟨_, hu, Analysis.le_ofRegisters.2 ⟨rfl, hsu⟩⟩

/-- The invariant is about the reached states and the analysis only. -/
theorem Joined.congr (h : e.Joined v) (hcoherent : e'.Coherent) (hreached : e'.reached = e.reached)
    (hanalysis : e'.analysis = e.analysis) : e'.Joined v where
  toCoherent := hcoherent
  analysis := hanalysis.trans h.analysis
  unique l s t hs ht := by
    rw [IsReached, hreached] at hs ht
    exact h.unique l s t hs ht
  possible l s hs := by
    rw [IsReached, hreached] at hs
    exact h.possible l s hs

theorem Joined.recordChild (h : e.Joined v) (parent child : Node) (edge : Edge) :
    (e.recordChild parent edge child).Joined v :=
  h.congr ⟨⟨h.queued, h.recent⟩, h.fits, h.reached⟩ rfl rfl

/-! ## One successor -/

section
variable (hmerge : v.merge = .join)

include hmerge in
/-- The states reached after a successor was accepted at `l`: those at other locations, and at `l`
    the successor itself, joined with what was there. -/
theorem Joined.cases_accept (h : e.Joined v)
    (hu : (e.accept parent edge (.ofRegisters l s)).IsReached (.ofRegisters m u)) :
    (m ≠ l ∧ e.IsReached (.ofRegisters m u)) ∨
      m = l ∧ ((∃ r, e.IsReached (.ofRegisters l r) ∧ u = s.join r) ∨
        (∀ r, ¬ e.IsReached (.ofRegisters l r)) ∧ u = s) := by
  rcases isReached_accept.1 hu with ⟨t, ht, hm⟩ | ⟨hold, hm⟩ | ⟨heq, hadds⟩
  · -- The state takes the place of one that was reached before.
    rw [h.analysis] at hm
    obtain ⟨r, hr⟩ := h.eq_ofRegisters ht
    rw [← Analysis.location_eq_of_merge hm] at hr
    subst hr
    rw [State.location_ofRegisters, Analysis.merge_ofRegisters hmerge] at hm
    split at hm
    · exact absurd hm (by simp)
    · obtain ⟨rfl, rfl⟩ := State.ofRegisters_inj.1 (Option.some.inj hm)
      exact Or.inr ⟨rfl, Or.inl ⟨r, ht, rfl⟩⟩
  · by_cases hml : m = l
    · -- The state stays in its place, so it has covered the successor already.
      subst hml
      rw [h.analysis, Analysis.merge_ofRegisters hmerge] at hm
      have hle : s.le u = true := by
        by_contra hnot
        rw [if_neg hnot] at hm
        exact absurd hm (by simp)
      exact Or.inr ⟨rfl, Or.inl ⟨u, hold, (Registers.join_eq_right_iff.2 hle).symm⟩⟩
    · exact Or.inl ⟨hml, hold⟩
  · obtain ⟨rfl, rfl⟩ := State.ofRegisters_inj.1 heq
    refine Or.inr ⟨rfl, Or.inr ⟨fun r hr => hadds ?_, rfl⟩⟩
    -- Whatever is reached at the location covers the successor or merges with it.
    by_cases hle : u.le r = true
    · refine ⟨.ofRegisters m r, Or.inr ⟨hr, ?_⟩, ?_⟩
      · rw [h.analysis, Analysis.merge_ofRegisters hmerge, if_pos hle]
      · rw [h.analysis]
        exact Analysis.le_ofRegisters.2 ⟨rfl, hle⟩
    · refine ⟨.ofRegisters m (u.join r), Or.inl ⟨_, hr, ?_⟩, ?_⟩
      · rw [h.analysis, Analysis.merge_ofRegisters hmerge, if_neg hle]
      · rw [h.analysis]
        exact Analysis.le_ofRegisters.2 ⟨rfl, Registers.le_join_left u r⟩

include hmerge in
theorem Joined.accept (h : e.Joined v) (hs : s.Possible) :
    (e.accept parent edge (.ofRegisters l s)).Joined v where
  toCoherent := h.toCoherent.accept (h.analysis ▸ Analysis.fits_ofRegisters)
  analysis := refiled_accept.analysis_eq.trans h.analysis
  unique m u w hu hw := by
    rcases h.cases_accept hmerge hu with ⟨hne, hu⟩ | ⟨heq, hu⟩
    · rcases h.cases_accept hmerge hw with ⟨-, hw⟩ | ⟨heq, -⟩
      · exact h.unique m u w hu hw
      · exact absurd heq hne
    · rcases h.cases_accept hmerge hw with ⟨hne, -⟩ | ⟨-, hw⟩
      · exact absurd heq hne
      · rcases hu with ⟨r, hr, rfl⟩ | ⟨hnone, rfl⟩
        · rcases hw with ⟨r', hr', rfl⟩ | ⟨hnone, -⟩
          · rw [h.unique l r r' hr hr']
          · exact absurd hr (hnone r)
        · rcases hw with ⟨r', hr', -⟩ | ⟨-, rfl⟩
          · exact absurd hr' (hnone r')
          · rfl
  possible m u hu := by
    rcases h.cases_accept hmerge hu with ⟨-, hu⟩ | ⟨-, ⟨r, -, rfl⟩ | ⟨-, rfl⟩⟩
    · exact h.possible m u hu
    · exact hs.of_le (Registers.le_join_left s r)
    · exact hs

/-- Everything that `e` has reached is covered in `b`. -/
def Bounds (b e : Engine) : Prop :=
  ∀ t, e.IsReached t → b.Covers t

include hmerge in
/-- A join is covered where both of its sides are. -/
theorem Bounds.accept (h : b.Bounds e) (hb : b.Joined v) (he : e.Joined v) (hs : s.Possible)
    (hcovers : b.Covers (.ofRegisters l s)) :
    b.Bounds (e.accept parent edge (.ofRegisters l s)) := by
  intro t ht
  obtain ⟨u, hu⟩ := (he.accept hmerge hs).eq_ofRegisters ht
  rw [hu] at ht ⊢
  rcases he.cases_accept hmerge ht with ⟨-, hold⟩ | ⟨heq, ⟨r, hr, rfl⟩ | ⟨-, rfl⟩⟩
  · exact h _ hold
  · -- Both sides of the join are below the one state that `b` has at the location.
    rw [heq]
    obtain ⟨a, ha, hsa⟩ := hb.covers_iff.1 hcovers
    obtain ⟨c, hc, hrc⟩ := hb.covers_iff.1 (h _ hr)
    obtain rfl := hb.unique l a c ha hc
    exact hb.covers_iff.2 ⟨a, ha, Registers.join_le hsa hrc⟩
  · rw [heq]
    exact hcovers

/-! ## All successors -/

variable (hnode : node.state = .ofRegisters l s) (hs : s.Possible)

include hmerge hnode hs in
theorem Joined.expand (h : e.Joined v) : (e.expand parent node edges).1.Joined v := by
  refine expand_invariant (motive := fun x => x.Joined v) h
    (fun x edge child hx => hx.recordChild parent child edge) ?_
  rintro x edge t hx - hpost
  rw [hx.analysis, hnode] at hpost
  obtain ⟨u, rfl, hstep⟩ := Analysis.exists_of_post hpost
  have hu := ValueAnalysis.possible_of_step hs hstep
  exact hx.accept hmerge hu

include hmerge hnode hs in
/-- If `b` covers the successors, it bounds the engine after the expansion. -/
theorem Bounds.expand (h : b.Bounds e) (hb : b.Joined v) (he : e.Joined v)
    (hcovers : ∀ edge ∈ edges, ∀ t, (Analysis.ofValues v).post node.state edge = .ok (some t) →
      b.Covers t) : b.Bounds (e.expand parent node edges).1 := by
  refine (expand_invariant (motive := fun x => x.Joined v ∧ b.Bounds x) ⟨he, h⟩
    (fun x edge child hx => ⟨hx.1.recordChild parent child edge, hx.2⟩) ?_).2
  rintro x edge t ⟨hx, hbounds⟩ hedge hpost
  rw [hx.analysis] at hpost
  have hcov := hcovers edge hedge t hpost
  rw [hnode] at hpost
  obtain ⟨u, rfl, hstep⟩ := Analysis.exists_of_post hpost
  have hu := ValueAnalysis.possible_of_step hs hstep
  exact ⟨hx.accept hmerge hu, hbounds.accept hmerge hb hx hu hcov⟩

end

end Engine

namespace Exploration

variable {v : ValueAnalysis} {x y : Exploration} {n m : Node} {r : Except Failure Unit}

/-! ## Precisions -/

/-- At each location nothing has been noted, or all that was noted is possible in the state reached
    there. -/
def Noted (x : Exploration) (v : ValueAnalysis) : Prop :=
  ∀ l, ∃ q : ValuePrecision,
    x.precisions.getD l (Analysis.ofValues v).precision = [.null, .values q] ∧
    q.threshold = v.threshold ∧
    ((∀ s, q.NotedBy s) ∨ ∃ s, x.engine.IsReached (.ofRegisters l s) ∧ q.NotedBy s)

theorem noted_start {e : Engine} (he : e.analysis = .ofValues v) : (start e).Noted v := by
  intro l
  refine ⟨.fresh v.threshold, ?_, rfl, Or.inl (ValuePrecision.notedBy_fresh _)⟩
  show ((∅ : Std.TreeMap Location Precision).insert e.source.initial e.analysis.precision).getD l
    (Analysis.ofValues v).precision = _
  rw [he, Std.TreeMap.getD_insert]
  split <;> rfl

/-- What was noted stays possible while the engine grows. -/
theorem Noted.of_grows (h : x.Noted v) (hx : x.engine.analysis = .ofValues v)
    (hgrows : x.engine.Grows y.engine) (hprecisions : y.precisions = x.precisions) :
    y.Noted v := by
  intro l
  obtain ⟨q, hq, hthreshold, hnoted⟩ := h l
  refine ⟨q, by rw [hprecisions]; exact hq, hthreshold, ?_⟩
  rcases hnoted with hall | ⟨s, hs, hqs⟩
  · exact Or.inl hall
  · obtain ⟨t, ht, hle⟩ := hgrows.covered _ hs
    rw [hgrows.analysis, hx] at hle
    obtain ⟨u, rfl, hsu⟩ := Analysis.eq_ofRegisters_of_le hle
    exact Or.inr ⟨u, ht, hqs.of_le hsu⟩

theorem Picks.joined (h : x.Picks n y) (hx : x.engine.Joined v) : y.engine.Joined v :=
  hx.congr (h.coherent hx.toCoherent) h.reached h.analysis

/-- The picked node has been reached, and its state describes something. -/
theorem Picks.possible (h : x.Picks n y) (hx : x.engine.Joined v) : y.engine.IsReached n.state ∧
    ∃ s, n.state = .ofRegisters n.location s ∧ s.Possible := by
  have hn : y.engine.IsReached n.state := by
    rw [Engine.IsReached, h.reached]
    exact hx.reached _ h.pending
  obtain ⟨s, hs⟩ := (h.joined hx).eq_ofRegisters hn
  exact ⟨hn, s, hs, (h.joined hx).possible _ s (hs ▸ hn)⟩

theorem Picks.noted (h : x.Picks n y) (hx : x.Noted v) : y.Noted v := by
  intro l
  obtain ⟨q, hq, hthreshold, hnoted⟩ := hx l
  refine ⟨q, by rw [h.precisions]; exact hq, hthreshold, ?_⟩
  exact hnoted.imp_right fun ⟨s, hs, hqs⟩ => ⟨s, by rwa [Engine.IsReached, h.reached], hqs⟩

theorem Asks.joined (h : x.Asks n m y) (hx : x.engine.Joined v) : y.engine.Joined v :=
  hx.congr (h.coherent hx.toCoherent) h.reached h.analysis

/-- Where enough constants are tolerated, the adjustment of a reached node changes nothing. -/
theorem Asks.eq_of_noted (h : x.Asks n m y) (hx : x.engine.Joined v) (hnoted : x.Noted v)
    (hthreshold : maxConstants ≤ v.threshold) (hn : x.engine.IsReached n.state) :
    m = n ∧ y.Noted v := by
  obtain ⟨s, hs⟩ := hx.eq_ofRegisters hn
  obtain ⟨q, hq, hqv, hseen⟩ := hnoted n.location
  rw [hs] at hn
  -- What was noted is possible in the picked state, which is the only one at its location.
  have hqs : q.NotedBy s := by
    rcases hseen with hall | ⟨s', hs', hqs'⟩
    · exact hall s
    · exact hx.unique _ s' s hs' hn ▸ hqs'
  obtain ⟨hwiden, hnoted', hthreshold'⟩ := ValueAnalysis.widen_eq hqs (hqv ▸ hthreshold)
  obtain ⟨q', hrefine, hprecisions⟩ := h.adjusted
  rw [hx.analysis, hq, hs, Analysis.refine_ofRegisters, hwiden] at hrefine
  obtain ⟨hm, rfl⟩ := Prod.mk.inj (Except.ok.inj hrefine)
  have hmn : m.state = n.state := hm.symm.trans hs.symm
  refine ⟨?_, fun l => ?_⟩
  · rcases h.renamed with ⟨heq, -⟩ | ⟨hne, -⟩
    · exact heq
    · exact absurd hmn hne
  · have hreached : ∀ t, y.engine.IsReached t ↔ x.engine.IsReached t := fun t => by
      rw [Engine.IsReached, h.reached, Engine.IsReached]
    have hlocation : m.location = n.location := congrArg State.location hmn
    rw [hprecisions, Std.TreeMap.getD_insert]
    by_cases hl : n.location = l
    · subst hl
      rw [hlocation, if_pos (by simp)]
      exact ⟨_, rfl, hthreshold'.trans hqv, Or.inr ⟨s, (hreached _).2 hn, hnoted'⟩⟩
    · rw [hlocation, if_neg (by simpa using hl)]
      simp only [hreached]
      exact hnoted l

/-- A visit that goes through asks for the edges of the picked node itself and expands it along
    them. -/
theorem Visits.expands (h : x.Visits n y r) (hok : r = .ok ()) (hx : x.engine.Joined v)
    (hnoted : x.Noted v) (hthreshold : maxConstants ≤ v.threshold)
    (hn : x.engine.IsReached n.state) :
    ∃ z es, x.Asks n n z ∧ z.engine.Joined v ∧ z.Noted v ∧
      (x.engine.source.edges n).2 = .ok es ∧
      y = { z with engine := (z.engine.expand n n es).1 } := by
  cases h with
  | stuck f => exact absurd hok (by simp)
  | refused asks answer => exact absurd hok (by simp)
  | @expanded m z es asks answer =>
      obtain ⟨rfl, hz⟩ := asks.eq_of_noted hx hnoted hthreshold hn
      exact ⟨z, es, asks, asks.joined hx, hz, answer, rfl⟩

end Exploration

end CodeReach
