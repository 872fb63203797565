/-
  CodeReach.Proofs.Transfer.Convergence

  A state into which others are merged one after the other changes only so often.

  A value set is at one of eighteen levels: it is known and has none to sixteen words,
  or it is unknown (`ValueSet.level`).  Whatever is above a value set is at a higher
  level or is the same value set.  So it is for the sum of the levels of 32 registers,
  and for the sum over all components of a state, to which call stacks add nothing.  A
  merge that changes a state raises its level, and the level is bounded
  (`Analysis.level_le`).
-/
import CodeReach.Proofs.Transfer.Finiteness
import CodeReach.Proofs.Transfer.Merge
import Mathlib.Algebra.Order.BigOperators.Group.Finset
import Mathlib.Data.Set.Finite.Lattice

namespace CodeReach

namespace ValueSet

variable {v w : ValueSet}

/-! ## Levels of value sets -/

/-- The number of possible words; an unknown value is one level above the largest number that is
    told apart. -/
def level : ValueSet → Nat
  | .unknown => maxConstants + 1
  | .known s _ => s.size

theorem level_le (v : ValueSet) : v.level ≤ maxConstants + 1 := by
  cases v with
  | unknown => exact Nat.le_refl _
  | known s hs => exact Nat.le_succ_of_le hs

theorem level_le_level (h : v.le w = true) : v.level ≤ w.level := by
  cases w with
  | unknown => exact level_le v
  | known t ht =>
      cases v with
      | unknown => exact absurd (unknown_le.1 h) (by simp)
      | known s hs => exact OrdSet.size_le_of_subset (known_le_known.1 h)

/-- There is nothing above a value set at its own level. -/
theorem eq_of_level_eq (h : v.le w = true) (hlevel : v.level = w.level) : v = w := by
  cases w with
  | unknown =>
      cases v with
      | unknown => rfl
      | known s hs =>
          have hsize : s.size = maxConstants + 1 := hlevel
          omega
  | known t ht =>
      cases v with
      | unknown => exact absurd (unknown_le.1 h) (by simp)
      | known s hs =>
          -- A subset with as many members is the whole set.
          have hsub := List.Nodup.subperm s.ascending.nodup (known_le_known.1 h)
          have hperm : s.toList.Perm t.toList := hsub.perm_of_length_le (Nat.le_of_eq hlevel.symm)
          refine le_antisymm h (known_le_known.2 fun x hx => ?_)
          exact hperm.mem_iff.2 hx

end ValueSet

namespace Registers

variable {s t : Registers}

/-! ## Levels of register files -/

/-- The sum of the levels of all tracked registers. -/
def level (s : Registers) : Nat :=
  ∑ i ∈ Finset.range trackedRegs, (s.get (BitVec.ofNat 8 i)).level

theorem level_le (s : Registers) : s.level ≤ 17 * 32 := by
  have hsum := Finset.sum_le_card_nsmul (Finset.range trackedRegs)
    (fun i => (s.get (BitVec.ofNat 8 i)).level) (maxConstants + 1) fun i _ => ValueSet.level_le _
  rw [Finset.card_range] at hsum
  exact hsum.trans (by decide)

theorem level_le_level (h : s.le t = true) : s.level ≤ t.level :=
  Finset.sum_le_sum fun _ _ => ValueSet.level_le_level (le_iff.1 h _)

theorem eq_of_level_eq (h : s.le t = true) (hlevel : s.level = t.level) : s = t := by
  have hlevels := (Finset.sum_eq_sum_iff_of_le fun _ _ =>
    ValueSet.level_le_level (le_iff.1 h _)).1 hlevel
  refine ext_get fun r => ?_
  by_cases hr : r.toNat < trackedRegs
  · have hlevel := hlevels r.toNat (Finset.mem_range.2 hr)
    rw [BitVec.ofNat_toNat, BitVec.setWidth_eq] at hlevel
    exact ValueSet.eq_of_level_eq (le_iff.1 h r) hlevel
  · rw [get_of_not_lt s hr, get_of_not_lt t hr]

end Registers

namespace Component

/-- The level of the registers, if the component tracks them. -/
def level : Component → Nat
  | .values s => s.level
  | _ => 0

end Component

namespace ComponentAnalysis

variable {a : ComponentAnalysis} {c d : Component}

/-! ## Levels of states -/

/-- Whether the analysis follows register values. -/
def tracksValues : ComponentAnalysis → Bool
  | .values _ => true
  | .calls _ => false

theorem level_le (h : a.Handles c) :
    c.level ≤ 17 * 32 * if a.tracksValues = true then 1 else 0 := by
  cases c with
  | values s =>
      cases a with
      | values v => exact Registers.level_le s
      | calls k => exact h.elim
  | location l => exact Nat.zero_le _
  | calls s => exact Nat.zero_le _

theorem level_le_level (h : a.le c d = true) : c.level ≤ d.level := by
  cases c with
  | location l => exact Nat.zero_le _
  | calls s => exact Nat.zero_le _
  | values s =>
      cases a with
      | calls k => exact (eq_of_le h (Or.inr ⟨k, rfl⟩)) ▸ Nat.le_refl _
      | values v =>
          obtain ⟨t, rfl, hst⟩ := le_values_iff.1 h
          exact Registers.level_le_level hst

theorem eq_of_level_eq (h : a.le c d = true) (hlevel : c.level = d.level) : c = d := by
  cases a with
  | calls k => exact eq_of_le h (Or.inr ⟨k, rfl⟩)
  | values v =>
      cases c with
      | location l => exact eq_of_le h (Or.inl rfl)
      | calls s => exact eq_of_le h (Or.inl rfl)
      | values s =>
          obtain ⟨t, rfl, hst⟩ := le_values_iff.1 h
          exact congrArg Component.values (Registers.eq_of_level_eq hst hlevel)

end ComponentAnalysis

/-- The sum of the levels of all components. -/
def State.level (s : State) : Nat :=
  (s.components.map Component.level).sum

namespace Analysis

variable {a : Analysis} {s t : State}

/-- How many components follow register values. -/
def valueCount (a : Analysis) : Nat :=
  a.components.countP (·.tracksValues)

theorem sum_level_le {as : List ComponentAnalysis} {cs : List Component}
    (h : List.Forall₂ ComponentAnalysis.Handles as cs) :
    (cs.map Component.level).sum ≤ 17 * 32 * as.countP (·.tracksValues) := by
  induction h with
  | nil => exact Nat.le_refl _
  | cons hac _ ih =>
      have hlevel := ComponentAnalysis.level_le hac
      rw [List.map_cons, List.sum_cons, List.countP_cons, Nat.mul_add]
      omega

theorem level_le (hs : a.Handles s) : s.level ≤ 17 * 32 * a.valueCount :=
  sum_level_le hs

/-- A state above another one is at a higher level, unless it is the same. -/
theorem level_lt_level (hs : a.Handles s) (h : a.le s t = true) (hne : s ≠ t) :
    s.level < t.level := by
  obtain ⟨hloc, hlen, hle⟩ := le_iff.1 h
  have hlevels : (s.components.map Component.level).sum ≤ (t.components.map Component.level).sum ∧
      ((s.components.map Component.level).sum = (t.components.map Component.level).sum →
        s.components = t.components) := by
    refine componentsLe_induction (motive := fun _ cs ds =>
      (cs.map Component.level).sum ≤ (ds.map Component.level).sum ∧
        ((cs.map Component.level).sum = (ds.map Component.level).sum → cs = ds))
      ⟨Nat.le_refl _, fun _ => rfl⟩ ?_ hs hlen hle
    rintro b _ c cs d ds - - hcd ⟨hrest, heq⟩
    have hfirst := ComponentAnalysis.level_le_level hcd
    simp only [List.map_cons, List.sum_cons]
    refine ⟨Nat.add_le_add hfirst hrest, fun hsum => ?_⟩
    rw [ComponentAnalysis.eq_of_level_eq hcd (by omega), heq (by omega)]
  refine Nat.lt_of_le_of_ne hlevels.1 fun hlevel => hne ?_
  obtain ⟨l, cs⟩ := s
  obtain ⟨m, ds⟩ := t
  obtain rfl : l = m := hloc
  obtain rfl : cs = ds := hlevels.2 hlevel
  rfl

end Analysis

/-! ## Merging a sequence -/

/-- A bounded number that never falls can rise only so often. -/
theorem AtMost.of_rises {f : Nat → Nat} {p : Nat → Prop} {b : Nat}
    (hmono : ∀ i, f i ≤ f (i + 1)) (hrises : ∀ i, p i → f i < f (i + 1)) (hb : ∀ i, f i ≤ b) :
    AtMost b p := by
  -- Where the number rises, it has not had its value before and is not yet at the bound.
  have hinj : Set.InjOn f {i | p i} := by
    have hlt : ∀ i j, p i → i < j → f i < f j := fun i j hi hij =>
      (hrises i hi).trans_le (monotone_nat_of_le_succ hmono hij)
    intro i hi j hj hij
    rcases Nat.lt_trichotomy i j with h | h | h
    · exact absurd hij (hlt i j hi h).ne
    · exact h
    · exact absurd hij.symm (hlt j i hj h).ne
  have hmaps : Set.MapsTo f {i | p i} (Finset.range b) := fun i hi =>
    Finset.mem_coe.2 (Finset.mem_range.2 ((hrises i hi).trans_le (hb (i + 1))))
  have hfinite : {i | p i}.Finite := Set.Finite.of_injOn hmaps hinj (Finset.finite_toSet _)
  refine ⟨hfinite.toFinset, fun i hi => hfinite.mem_toFinset.2 hi, ?_⟩
  rw [← Finset.card_range b]
  refine Finset.card_le_card_of_injOn f ?_ ?_
  · rwa [hfinite.coe_toFinset]
  · rwa [hfinite.coe_toFinset]

namespace Analysis

variable {a : Analysis} {r : State} {s : Nat → State}

/-- What stands in the place of the reached state `r` once the first `n` states of a sequence have
    been merged into it. -/
def mergeFirst (a : Analysis) (r : State) (s : Nat → State) : Nat → State
  | 0 => r
  | n + 1 => (a.merge (s n) (mergeFirst a r s n)).getD (mergeFirst a r s n)

/-- One more merge changes nothing, or it leads to a state at a higher level. -/
theorem mergeFirst_succ (hs : ∀ i, a.Handles (s i)) {n : Nat}
    (hn : a.Handles (a.mergeFirst r s n)) :
    a.Handles (a.mergeFirst r s (n + 1)) ∧ (a.mergeFirst r s (n + 1) = a.mergeFirst r s n ∨
      (a.mergeFirst r s n).level < (a.mergeFirst r s (n + 1)).level) := by
  rw [mergeFirst]
  cases hmerge : a.merge (s n) (a.mergeFirst r s n) with
  | none => exact ⟨hn, Or.inl rfl⟩
  | some m =>
      obtain ⟨-, habove, hne⟩ := merge_above (hs n) hn hmerge
      exact ⟨handles_of_le hn habove, Or.inr (level_lt_level hn habove hne.symm)⟩

theorem handles_mergeFirst (hr : a.Handles r) (hs : ∀ i, a.Handles (s i)) (n : Nat) :
    a.Handles (a.mergeFirst r s n) := by
  induction n with
  | zero => exact hr
  | succ n ih => exact (mergeFirst_succ hs ih).1

/-- Repeated merging converges within a fixed bound.  Merge any sequence of states into a state, all
    with components of the analysis' own kinds.  The state changes at most 17 times for each of the
    32 registers of each component that follows values, whatever the components' modes are, and
    from some point on it stays as it is. -/
theorem merging_converges (a : Analysis) (r : State) (s : Nat → State) (hr : a.Handles r)
    (hs : ∀ i, a.Handles (s i)) :
    AtMost (17 * 32 * a.valueCount) (fun i => a.mergeFirst r s (i + 1) ≠ a.mergeFirst r s i) ∧
      ∃ n, ∀ i, n ≤ i → a.mergeFirst r s i = a.mergeFirst r s n := by
  have hstep : ∀ i, a.mergeFirst r s (i + 1) = a.mergeFirst r s i ∨
      (a.mergeFirst r s i).level < (a.mergeFirst r s (i + 1)).level := fun i =>
    (mergeFirst_succ hs (handles_mergeFirst hr hs i)).2
  have hchanges : AtMost (17 * 32 * a.valueCount)
      fun i => a.mergeFirst r s (i + 1) ≠ a.mergeFirst r s i := by
    refine AtMost.of_rises (f := fun i => (a.mergeFirst r s i).level) ?_ ?_ ?_
    · intro i
      rcases hstep i with heq | hlt
      · exact (congrArg State.level heq).ge
      · exact hlt.le
    · exact fun i hne => (hstep i).resolve_left hne
    · exact fun i => level_le (handles_mergeFirst hr hs i)
  refine ⟨hchanges, ?_⟩
  -- After the last change there is none.
  obtain ⟨u, hu, -⟩ := hchanges
  refine ⟨u.sup id + 1, fun i hi => ?_⟩
  induction i, hi using Nat.le_induction with
  | base => rfl
  | succ i hi ih =>
      rw [← ih]
      by_contra hne
      have hle : i ≤ u.sup id := Finset.le_sup (f := id) (hu i hne)
      omega

/-- What becomes of a state that knows `r1` to be zero when one constant after the other is merged
    into it.  The registers that are kept apart are covered each time and let the merges through. -/
def counted : Nat → State :=
  joinedAndApart.mergeFirst (knowing 0 .unknown) fun i => knowing (BitVec.ofNat 64 i) (.const 5)

/-- The first constant is known already and changes nothing, the next two change the state. -/
theorem merging_converges_counted :
    (AtMost (17 * 32 * 2) fun i => counted (i + 1) ≠ counted i) ∧
      (∃ n, ∀ i, n ≤ i → counted i = counted n) ∧
      counted 1 = counted 0 ∧ counted 2 ≠ counted 1 ∧ counted 3 ≠ counted 2 := by
  obtain ⟨hchanges, hconverges⟩ := merging_converges joinedAndApart (knowing 0 .unknown)
    (fun i => knowing (BitVec.ofNat 64 i) (.const 5)) (handles_knowing _ _)
    fun _ => handles_knowing _ _
  refine ⟨hchanges, hconverges, ?_, ?_, ?_⟩
  · decide +kernel
  · decide +kernel
  · decide +kernel

end Analysis

end CodeReach
