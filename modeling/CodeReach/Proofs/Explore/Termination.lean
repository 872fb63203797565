/-
  CodeReach.Proofs.Explore.Termination

  Every run ends, and long before its budget of rounds is used up.

  Neither the reached set nor the worklist can measure progress, since states are
  taken out of both and others are put back.  The measure is a potential over the
  finite set of states that fit the analysis.  It weighs three things: the states
  not yet covered, for each reached state the states above it, and the pending states.
  An accepted successor never raises the potential: either the successor becomes
  covered, which outweighs all it adds, or states are replaced by larger ones, each of
  which has less above it.  Every round takes one pending state away, so it lowers the
  potential.
-/
import CodeReach.Code.Assemble
import CodeReach.Proofs.Explore.History
import CodeReach.Proofs.Transfer.Finiteness
import Mathlib.Algebra.Order.BigOperators.Group.Finset
import Mathlib.Tactic.Linarith

namespace CodeReach

/-! ## Heights -/

namespace Analysis

variable {a : Analysis} {u : Finset State} {s t : State}

/-- The number of states of `u` that are above `s`. -/
def height (a : Analysis) (u : Finset State) (s : State) : Nat :=
  (u.filter fun t => a.le s t = true).card

theorem height_le_card (a : Analysis) (u : Finset State) (s : State) : a.height u s ≤ u.card :=
  Finset.card_filter_le _ _

/-- A state that is strictly above another has less above it. -/
theorem height_lt (hs : a.Fits s) (ht : a.Fits t) (hsu : s ∈ u) (hle : a.le s t = true)
    (hne : t ≠ s) : a.height u t < a.height u s := by
  apply Finset.card_lt_card
  refine Finset.ssubset_iff_of_subset ?_ |>.2 ⟨s, ?_, ?_⟩
  · intro v hv
    rw [Finset.mem_filter] at hv ⊢
    exact ⟨hv.1, le_trans hle hv.2⟩
  · exact Finset.mem_filter.2 ⟨hsu, le_refl a s⟩
  · intro hst
    exact hne (le_antisymm ht hs (Finset.mem_filter.1 hst).2 hle)

end Analysis

namespace Engine

variable {e e' : Engine} {u : Finset State} {s t m : State} {parent : Node} {edge : Edge}

/-! ## The potential -/

/-- The reached states. -/
def reachedIn (e : Engine) (u : Finset State) : Finset State :=
  u.filter fun s => e.reached.contains s = true

/-- The pending states. -/
def pendingIn (e : Engine) (u : Finset State) : Finset State :=
  u.filter fun s => e.worklist.contains s = true

/-- The states that no reached state covers. -/
def openIn (e : Engine) (u : Finset State) : Finset State :=
  u.filter fun s => ¬ e.analysis.covers e.reached s = true

/-- The measure of what is left to do. -/
def potential (e : Engine) (u : Finset State) : Nat :=
  (e.openIn u).card * (2 * u.card + 2) + ∑ s ∈ e.reachedIn u, 2 * e.analysis.height u s +
    (e.pendingIn u).card

theorem mem_reachedIn : s ∈ e.reachedIn u ↔ s ∈ u ∧ e.IsReached s :=
  Finset.mem_filter

theorem mem_pendingIn : s ∈ e.pendingIn u ↔ s ∈ u ∧ e.IsPending s :=
  Finset.mem_filter

theorem mem_openIn : s ∈ e.openIn u ↔ s ∈ u ∧ ¬ e.Covers s := by
  rw [openIn, Finset.mem_filter, Analysis.covers_iff]
  rfl

/-- The potential is at most quadratic in the number of states. -/
theorem potential_le (e : Engine) (u : Finset State) :
    e.potential u ≤ 4 * (u.card * u.card) + 3 * u.card := by
  have hopen : (e.openIn u).card ≤ u.card := Finset.card_filter_le _ _
  have hpending : (e.pendingIn u).card ≤ u.card := Finset.card_filter_le _ _
  have hreached : (e.reachedIn u).card ≤ u.card := Finset.card_filter_le _ _
  have hsum : ∑ s ∈ e.reachedIn u, 2 * e.analysis.height u s ≤
      (e.reachedIn u).card * (2 * u.card) :=
    Finset.sum_le_card_nsmul _ _ _ fun s _ =>
      Nat.mul_le_mul_left 2 (Analysis.height_le_card _ u s)
  have hfirst := Nat.mul_le_mul_right (2 * u.card + 2) hopen
  have hsecond := Nat.mul_le_mul_right (2 * u.card) hreached
  unfold potential
  nlinarith

/-! ## Accepting a successor -/

/-- What is open after growth was open before. -/
theorem Grows.openIn_subset (h : e.Grows e') : e'.openIn u ⊆ e.openIn u := by
  intro s hs
  rw [mem_openIn] at hs ⊢
  exact ⟨hs.1, fun hcov => hs.2 (h.covers hcov)⟩

/-- The reached states that stay when `s` is accepted. -/
def keptIn (e : Engine) (u : Finset State) (s : State) : Finset State :=
  (e.reachedIn u).filter fun t => e.analysis.merge s t = none

/-- The reached states that are replaced when `s` is accepted. -/
def absorbedIn (e : Engine) (u : Finset State) (s : State) : Finset State :=
  (e.reachedIn u).filter fun t => ¬ e.analysis.merge s t = none

/-- The states that replace others when `s` is accepted and were not there before. -/
def gainedIn (e : Engine) (u : Finset State) (s : State) : Finset State :=
  (u \ e.keptIn u s).filter fun m => ∃ t ∈ e.absorbedIn u s, e.analysis.merge s t = some m

theorem mem_keptIn : t ∈ e.keptIn u s ↔ t ∈ u ∧ e.Keeps s t := by
  rw [keptIn, Finset.mem_filter, mem_reachedIn, and_assoc]
  rfl

theorem mem_gainedIn (h : e.Coherent) (hu : ∀ s, e.analysis.Fits s → s ∈ u) :
    m ∈ e.gainedIn u s ↔ m ∈ u ∧ e.Merges s m ∧ ¬ e.Keeps s m := by
  rw [gainedIn, Finset.mem_filter, Finset.mem_sdiff, mem_keptIn]
  constructor
  · rintro ⟨⟨hmu, hnk⟩, t, ht, hm⟩
    have hr := (mem_reachedIn.1 (Finset.mem_filter.1 ht).1).2
    exact ⟨hmu, ⟨t, hr, hm⟩, fun hk => hnk ⟨hmu, hk⟩⟩
  · rintro ⟨hmu, ⟨t, hr, hm⟩, hnk⟩
    refine ⟨⟨hmu, fun hk => hnk hk.2⟩, t, ?_, hm⟩
    refine Finset.mem_filter.2 ⟨mem_reachedIn.2 ⟨hu t (h.fits t hr), hr⟩, ?_⟩
    rw [hm]
    exact Option.some_ne_none m

/-- What is gained weighs less than what is absorbed for it, even with its place in the
    worklist. -/
theorem sum_gainedIn_le (h : e.Coherent) (hs : e.analysis.Fits s) :
    ∑ m ∈ e.gainedIn u s, (2 * e.analysis.height u m + 1) ≤
      ∑ t ∈ e.absorbedIn u s, 2 * e.analysis.height u t := by
  have hgained : ∀ m ∈ e.gainedIn u s, ∃ t ∈ e.absorbedIn u s, e.analysis.merge s t = some m :=
    fun m hm => (Finset.mem_filter.1 hm).2
  -- Each gained state has an origin among the absorbed ones, and a state has one replacement.
  choose! origin horigin using hgained
  have hinj : Set.InjOn origin (e.gainedIn u s) := by
    intro m hm m' hm' heq
    have hmerge := (horigin m hm).2
    rw [heq, (horigin m' hm').2] at hmerge
    exact (Option.some.inj hmerge).symm
  calc ∑ m ∈ e.gainedIn u s, (2 * e.analysis.height u m + 1)
      ≤ ∑ m ∈ e.gainedIn u s, 2 * e.analysis.height u (origin m) := by
        refine Finset.sum_le_sum fun m hm => ?_
        obtain ⟨hmem, hmerge⟩ := horigin m hm
        obtain ⟨hu, hreached⟩ := mem_reachedIn.1 (Finset.mem_filter.1 hmem).1
        have hfits := h.fits _ hreached
        obtain ⟨hm', -, hle, hne⟩ := Analysis.merge_bounds hs hfits hmerge
        have hlt := Analysis.height_lt hfits hm' hu hle hne
        omega
    _ = ∑ t ∈ (e.gainedIn u s).image origin, 2 * e.analysis.height u t :=
        (Finset.sum_image (f := fun t => 2 * e.analysis.height u t) hinj).symm
    _ ≤ ∑ t ∈ e.absorbedIn u s, 2 * e.analysis.height u t := by
        refine Finset.sum_le_sum_of_subset fun t ht => ?_
        obtain ⟨m, hm, rfl⟩ := Finset.mem_image.1 ht
        exact (horigin m hm).1

theorem reachedIn_accept_of_not_adds (h : e.Coherent) (hu : ∀ s, e.analysis.Fits s → s ∈ u)
    (hadds : ¬ e.Adds s) :
    (e.accept parent edge s).reachedIn u = e.keptIn u s ∪ e.gainedIn u s := by
  ext t
  rw [mem_reachedIn, isReached_accept, Finset.mem_union, mem_keptIn, mem_gainedIn h hu]
  by_cases hk : e.Keeps s t
  · simp only [hk, true_or, or_true, and_true, not_true, and_false, or_false]
  · simp only [hk, hadds, false_or, and_false, or_false, not_false_eq_true, and_true]

theorem pendingIn_accept_of_not_adds (h : e.Coherent) (hu : ∀ s, e.analysis.Fits s → s ∈ u)
    (hadds : ¬ e.Adds s) :
    (e.accept parent edge s).pendingIn u ⊆ e.pendingIn u ∪ e.gainedIn u s := by
  intro t ht
  obtain ⟨htu, hp⟩ := mem_pendingIn.1 ht
  rw [Finset.mem_union, mem_pendingIn, mem_gainedIn h hu]
  rcases (isPending_accept (h.reached t)).1 hp with hm | ⟨hp, -⟩ | ⟨-, hadd⟩
  · exact Or.inr ⟨htu, hm⟩
  · exact Or.inl ⟨htu, hp⟩
  · exact absurd hadd hadds

/-- The potential when the successor is covered once it was merged. -/
theorem potential_accept_of_not_adds (h : e.Coherent) (hu : ∀ s, e.analysis.Fits s → s ∈ u)
    (hs : e.analysis.Fits s) (hadds : ¬ e.Adds s) :
    (e.accept parent edge s).potential u ≤ e.potential u := by
  have hgrows : e.Grows (e.accept parent edge s) := h.grows_accept hs
  have hopen := Nat.mul_le_mul_right (2 * u.card + 2)
    (Finset.card_le_card (hgrows.openIn_subset (u := u)))
  have hpending : ((e.accept parent edge s).pendingIn u).card ≤
      (e.pendingIn u).card + (e.gainedIn u s).card :=
    (Finset.card_le_card (pendingIn_accept_of_not_adds h hu hadds)).trans
      (Finset.card_union_le _ _)
  have hbefore : ∑ t ∈ e.keptIn u s, 2 * e.analysis.height u t +
      ∑ t ∈ e.absorbedIn u s, 2 * e.analysis.height u t =
      ∑ t ∈ e.reachedIn u, 2 * e.analysis.height u t :=
    Finset.sum_filter_add_sum_filter_not _ _ _
  have hdisjoint : Disjoint (e.keptIn u s) (e.gainedIn u s) :=
    Finset.disjoint_left.2 fun t hk hg => ((mem_gainedIn h hu).1 hg).2.2 (mem_keptIn.1 hk).2
  have hweight := sum_gainedIn_le (u := u) h hs
  rw [Finset.sum_add_distrib, ← Finset.card_eq_sum_ones] at hweight
  unfold potential
  rw [hgrows.analysis, reachedIn_accept_of_not_adds h hu hadds, Finset.sum_union hdisjoint]
  omega

/-- Where a successor is added itself, nothing was merged: a merged state would be above it. -/
theorem Adds.not_merges (hadds : e.Adds s) (h : e.Coherent) (hs : e.analysis.Fits s) :
    ¬ e.Merges s t := by
  rintro ⟨r, hr, hm⟩
  have hle := (Analysis.merge_bounds hs (h.fits r hr) hm).2.1
  exact hadds ⟨t, Or.inl ⟨r, hr, hm⟩, hle⟩

/-- A successor that is added itself was open before. -/
theorem Adds.mem_openIn (hadds : e.Adds s) (h : e.Coherent) (hu : ∀ s, e.analysis.Fits s → s ∈ u)
    (hs : e.analysis.Fits s) : s ∈ e.openIn u := by
  refine Engine.mem_openIn.2 ⟨hu s hs, ?_⟩
  rintro ⟨t, ht, hle⟩
  have hkeeps : e.analysis.merge s t = none :=
    Option.eq_none_iff_forall_not_mem.2 fun m hm => hadds.not_merges h hs ⟨t, ht, hm⟩
  exact hadds ⟨t, Or.inr ⟨ht, hkeeps⟩, hle⟩

theorem card_openIn_accept_of_adds (h : e.Coherent) (hu : ∀ s, e.analysis.Fits s → s ∈ u)
    (hs : e.analysis.Fits s) (hadds : e.Adds s) :
    ((e.accept parent edge s).openIn u).card + 1 ≤ (e.openIn u).card := by
  have hmem := hadds.mem_openIn h hu hs
  have hsubset : (e.accept parent edge s).openIn u ⊆ (e.openIn u).erase s := by
    intro t ht
    refine Finset.mem_erase.2 ⟨?_, (h.grows_accept hs).openIn_subset ht⟩
    rintro rfl
    exact (mem_openIn.1 ht).2 covers_accept
  have hle := Finset.card_le_card hsubset
  have hpos := Finset.card_pos.2 ⟨s, hmem⟩
  rw [Finset.card_erase_of_mem hmem] at hle
  omega

theorem reachedIn_accept_of_adds (h : e.Coherent) (hs : e.analysis.Fits s) (hadds : e.Adds s) :
    (e.accept parent edge s).reachedIn u ⊆ insert s (e.reachedIn u) := by
  intro t ht
  obtain ⟨htu, hr⟩ := mem_reachedIn.1 ht
  rw [Finset.mem_insert, mem_reachedIn]
  rcases isReached_accept.1 hr with hm | hk | ⟨rfl, -⟩
  · exact absurd hm (hadds.not_merges h hs)
  · exact Or.inr ⟨htu, hk.1⟩
  · exact Or.inl rfl

theorem pendingIn_accept_of_adds (h : e.Coherent) (hs : e.analysis.Fits s) (hadds : e.Adds s) :
    (e.accept parent edge s).pendingIn u ⊆ insert s (e.pendingIn u) := by
  intro t ht
  obtain ⟨htu, hp⟩ := mem_pendingIn.1 ht
  rw [Finset.mem_insert, mem_pendingIn]
  rcases (isPending_accept (h.reached t)).1 hp with ⟨hm, -⟩ | ⟨hp, -⟩ | ⟨rfl, -⟩
  · exact absurd hm (hadds.not_merges h hs)
  · exact Or.inr ⟨htu, hp⟩
  · exact Or.inl rfl

/-- The potential when the successor is added itself. -/
theorem potential_accept_of_adds (h : e.Coherent) (hu : ∀ s, e.analysis.Fits s → s ∈ u)
    (hs : e.analysis.Fits s) (hadds : e.Adds s) :
    (e.accept parent edge s).potential u ≤ e.potential u := by
  have hpending : ((e.accept parent edge s).pendingIn u).card ≤ (e.pendingIn u).card + 1 :=
    (Finset.card_le_card (pendingIn_accept_of_adds h hs hadds)).trans (Finset.card_insert_le _ _)
  have hsum : ∑ t ∈ (e.accept parent edge s).reachedIn u, 2 * e.analysis.height u t ≤
      2 * u.card + ∑ t ∈ e.reachedIn u, 2 * e.analysis.height u t := by
    have hnew : s ∉ e.reachedIn u := fun hr =>
      (mem_openIn.1 (hadds.mem_openIn h hu hs)).2
        ⟨s, (mem_reachedIn.1 hr).2, Analysis.le_refl _ s⟩
    refine (Finset.sum_le_sum_of_subset (reachedIn_accept_of_adds h hs hadds)).trans ?_
    rw [Finset.sum_insert hnew]
    -- The successor has at most all states above it.
    exact Nat.add_le_add_right (Nat.mul_le_mul_left 2 (Analysis.height_le_card _ u s)) _
  -- One open state less makes up for a full height and a place in the worklist.
  have hopen : ((e.accept parent edge s).openIn u).card + 1 ≤ (e.openIn u).card :=
    card_openIn_accept_of_adds h hu hs hadds
  have hweight := Nat.mul_le_mul_right (2 * u.card + 2) hopen
  rw [Nat.add_mul, Nat.one_mul] at hweight
  unfold potential
  rw [refiled_accept.analysis_eq]
  omega

theorem potential_accept (h : e.Coherent) (hu : ∀ s, e.analysis.Fits s → s ∈ u)
    (hs : e.analysis.Fits s) : (e.accept parent edge s).potential u ≤ e.potential u := by
  by_cases hadds : e.Adds s
  · exact potential_accept_of_adds h hu hs hadds
  · exact potential_accept_of_not_adds h hu hs hadds

theorem potential_expand {node : Node} {edges : List Edge} (h : e.Coherent)
    (hu : ∀ s, e.analysis.Fits s → s ∈ u) (hnode : e.analysis.Fits node.state) :
    (e.expand parent node edges).1.potential u ≤ e.potential u := by
  refine (expand_invariant (motive := fun x => (x.Coherent ∧ x.analysis = e.analysis) ∧
    x.potential u ≤ e.potential u) ⟨⟨h, rfl⟩, Nat.le_refl _⟩ ?_ ?_).2
  · rintro x edge child ⟨⟨hx, hanalysis⟩, hle⟩
    exact ⟨⟨⟨⟨hx.queued, hx.recent⟩, hx.fits, hx.reached⟩, hanalysis⟩, hle⟩
  · rintro x edge s ⟨⟨hx, hanalysis⟩, hle⟩ - hpost
    have hs : x.analysis.Fits s := Analysis.fits_post (hanalysis ▸ hnode) hpost
    refine ⟨⟨hx.accept hs, (hx.grows_accept hs).analysis.trans hanalysis⟩, ?_⟩
    exact (potential_accept hx (hanalysis ▸ hu) hs).trans hle

/-- The potential only looks at the analysis, the reached and the pending states. -/
theorem potential_congr (hanalysis : e'.analysis = e.analysis) (hreached : e'.reached = e.reached)
    (hworklist : e'.worklist = e.worklist) : e'.potential u = e.potential u := by
  unfold potential openIn reachedIn pendingIn
  rw [hanalysis, hreached, hworklist]

end Engine

namespace Exploration

variable {w : Surroundings} {x y : Exploration} {n : Node} {r : Except Failure Unit}
  {u : Finset State}

/-! ## One round -/

theorem Picks.potential_lt (h : x.Picks n y) (hx : x.engine.Coherent)
    (hu : ∀ s, x.engine.analysis.Fits s → s ∈ u) :
    y.engine.potential u < x.engine.potential u := by
  have hmem : n.state ∈ x.engine.pendingIn u :=
    Engine.mem_pendingIn.2 ⟨hu _ (hx.fits _ (hx.reached _ h.pending)), h.pending⟩
  have hpending : y.engine.pendingIn u = (x.engine.pendingIn u).erase n.state := by
    ext s
    rw [Finset.mem_erase, Engine.mem_pendingIn, Engine.mem_pendingIn, h.isPending_iff,
      and_left_comm]
  have hcard : (y.engine.pendingIn u).card < (x.engine.pendingIn u).card := by
    rw [hpending]
    exact Finset.card_erase_lt_of_mem hmem
  unfold Engine.potential Engine.openIn Engine.reachedIn
  rw [h.analysis, h.reached]
  exact Nat.add_lt_add_left hcard _

theorem Visits.potential_le (h : x.Visits n y r) (hx : x.engine.Coherent)
    (hn : x.engine.analysis.Fits n.state) (hu : ∀ s, x.engine.analysis.Fits s → s ∈ u) :
    y.engine.potential u ≤ x.engine.potential u := by
  cases h with
  | stuck f => exact Nat.le_refl _
  | refused asks answer =>
      exact (Engine.potential_congr asks.analysis asks.reached asks.worklist).le
  | expanded asks answer =>
      refine le_trans (Engine.potential_expand (asks.coherent hx) (asks.analysis ▸ hu) ?_) ?_
      · exact asks.analysis ▸ (asks.bounds hn).1
      · exact (Engine.potential_congr asks.analysis asks.reached asks.worklist).le

/-- A round after which the loop goes on lowers the potential. -/
theorem potential_lt_of_step_next (hx : x.engine.Coherent)
    (hu : ∀ s, x.engine.analysis.Fits s → s ∈ u) (h : step w x = .next y) :
    y.engine.potential u < x.engine.potential u := by
  obtain ⟨n, x₁, hpicks, hvisits⟩ := visits_of_step_next hx h
  have hle : y.engine.potential u ≤ x₁.engine.potential u :=
    hvisits.potential_le (hpicks.coherent hx) (hpicks.fits hx) (hpicks.analysis ▸ hu)
  exact hle.trans_lt (hpicks.potential_lt hx hu)

end Exploration

namespace Engine

/-! ## Whole runs -/

theorem le_stateBits (e : Engine) : 160 ≤ e.stateBits := by
  unfold stateBits
  generalize 160 = bits
  induction e.analysis.components generalizing bits with
  | nil => exact Nat.le_refl _
  | cons a as ih => exact (Nat.le_add_right _ _).trans (ih (bits + a.stateBits))

/-- The budget of a run exceeds every potential. -/
theorem potential_lt_budget (e : Engine) {N : Nat} (hN : N ≤ 2 ^ e.stateBits) :
    4 * (N * N) + 3 * N < 2 ^ e.rounds - 1 := by
  have hbits : 2 ^ 4 ≤ 2 ^ e.stateBits :=
    Nat.pow_le_pow_right (by decide) (le_trans (by decide) e.le_stateBits)
  have hrounds : 2 ^ e.rounds = 2 ^ e.stateBits * 2 ^ e.stateBits *
      (2 ^ e.stateBits * 2 ^ e.stateBits) := by
    unfold rounds
    rw [← Nat.pow_add, ← Nat.pow_add]
    congr 1
    omega
  rw [hrounds]
  generalize 2 ^ e.stateBits = b at hN hbits
  have hsquare : N * N ≤ b * b := Nat.mul_le_mul hN hN
  have hlinear : b ≤ b * b := Nat.le_mul_self b
  have hbig : 16 * 16 ≤ b * b := Nat.mul_le_mul hbits hbits
  have hfourth := Nat.mul_le_mul_right (b * b) hbig
  omega

variable {a : Analysis} {source : EdgeSource} {policy : Policy} {settings : Settings} {e : Engine}
  {asked : List Query} {failed : List State}

/-- The loop of a run is over within the budget, and the run ends where the loop ends. -/
theorem Coherent.exists_exit (h : e.Coherent) (w : Surroundings) :
    ∃ k x y r, k < 2 ^ e.rounds ∧ Loop.iterate (Exploration.step w) k (.start e) = .next x ∧
      Exploration.step w x = .done (y, r) ∧ e.run w = finish y r := by
  obtain ⟨u, hu, hcard⟩ := e.atMost_fits
  have hstart := Exploration.coherent_start h
  obtain ⟨⟨y, r⟩, hdone⟩ := Loop.exists_iterate_done
    (motive := fun x => x.engine.Coherent ∧ x.engine.analysis = e.analysis)
    (μ := fun x : Exploration => x.engine.potential u) ⟨hstart, rfl⟩
    (fun x y hx hstep =>
      ⟨⟨Exploration.coherent_of_step_next hx.1 hstep,
        (Exploration.analysis_of_step_next hx.1 hstep).trans hx.2⟩,
        Exploration.potential_lt_of_step_next hx.1 (hx.2 ▸ hu) hstep⟩)
    ((potential_le _ u).trans_lt (e.potential_lt_budget hcard))
  obtain ⟨k, x, hk, hloop, hexit⟩ := Loop.exists_last_step hdone
  refine ⟨k, x, y, r, hk.trans_le (Nat.sub_le _ _), hloop, hexit, ?_⟩
  unfold run
  rw [Loop.deepen_eq_iterate, Nat.one_mul, hdone]

/-- A loop that ends without a failure has nothing left to do or was interrupted. -/
theorem Coherent.exit_cases {w : Surroundings} {x y : Exploration} (h : x.engine.Coherent)
    (hexit : Exploration.step w x = .done (y, .ok ())) :
    y.engine.worklist.isEmpty = true ∨ y.engine.stopped = true ∨
      y.engine.settings.failFast = true ∧ y.engine.isSound = false := by
  rcases Exploration.visits_of_step_done h hexit with ⟨hgo, rfl, -⟩ | ⟨n, x₁, f, -, -, -, hr⟩
  · rw [Exploration.goesOn, Bool.and_eq_false_iff, Bool.and_eq_false_iff, Bool.not_eq_false',
      Bool.not_eq_false', Bool.or_eq_false_iff, Bool.not_eq_false', or_assoc] at hgo
    exact hgo
  · exact absurd hr (by simp)

/-- Every run ends: whatever the analysis, the source of edges, the policy and the settings are, and
    whatever the engine has been through before, after fewer than `2 ^ rounds` rounds a last round
    ends the loop, and the run gives what is there then.  It ends with nothing pending, with an
    interruption or with a failure. -/
theorem History.run_ends (h : History a source policy settings e asked failed)
    (w : Surroundings) :
    ∃ k x y r, k < 2 ^ e.rounds ∧ Loop.iterate (Exploration.step w) k (.start e) = .next x ∧
      Exploration.step w x = .done (y, r) ∧ e.run w = finish y r ∧
      (r = .ok () → y.engine.worklist.isEmpty = true ∨ y.engine.stopped = true ∨
        y.engine.settings.failFast = true ∧ y.engine.isSound = false) := by
  obtain ⟨k, x, y, r, hk, hloop, hexit, hrun⟩ := h.coherent.exists_exit w
  refine ⟨k, x, y, r, hk, hloop, hexit, hrun, ?_⟩
  rintro rfl
  exact (h.coherent.iterate hloop).1.exit_cases hexit

/-- A loop that counts `r1` up until it has wrapped around and is below three. -/
def wrapLoop : Program :=
  .assemble 0x1000 [
    .instruction 0x1000 4 "bltu" [.goto ⟨.jump, .binary .ltu (.reg 1) (.imm 3), .imm 0x1008⟩],
    .instruction 0x1004 4 "inc" [.assign 1 (.binary .add (.reg 1) (.imm 1)),
      .goto ⟨.jump, .imm 1, .imm 0x1000⟩],
    .instruction 0x1008 4 "hlt" [.halt]]

/-- The values in that loop, explored in the order in which nodes are found. -/
def onWrapLoop : Engine :=
  .fresh ⟨{}, [.values { program := wrapLoop }]⟩ (.resolving (.fresh wrapLoop {})) .fifo {}
    .inserted

theorem history_onWrapLoop : History ⟨{}, [.values { program := wrapLoop }]⟩
    (.resolving (.fresh wrapLoop {})) .fifo {} onWrapLoop [] [] :=
  .built .inserted

/-- The exploration of a loop ends although a machine can go round it any number of times. -/
theorem run_ends_onWrapLoop :
    ∃ k x y r, k < 2 ^ onWrapLoop.rounds ∧
      Loop.iterate (Exploration.step (.stopAfter none)) k (.start onWrapLoop) = .next x ∧
      Exploration.step (.stopAfter none) x = .done (y, r) ∧
      onWrapLoop.run (.stopAfter none) = finish y r ∧
      (r = .ok () → y.engine.worklist.isEmpty = true ∨ y.engine.stopped = true ∨
        y.engine.settings.failFast = true ∧ y.engine.isSound = false) :=
  history_onWrapLoop.run_ends (.stopAfter none)

end Engine

end CodeReach
