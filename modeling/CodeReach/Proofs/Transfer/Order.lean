/-
  CodeReach.Proofs.Transfer.Order

  The order of composite states, and what a merge does to it.

  An analysis handles a state that has one component of the right kind for each of the
  analysis' components; the state fits if no call stack is deeper than its bound either.
  On such states the order is a partial one, and a merge either leaves the reached
  state alone or gives a state that lies above both the new and the reached state and
  differs from the reached one (`merge_above`), and that fits if the reached one does
  (`merge_bounds`).
-/
import CodeReach.Transfer.Analysis
import CodeReach.Proofs.Domain.Registers
import Mathlib.Data.List.Forall2

namespace CodeReach

namespace ComponentAnalysis

/-- The component is of the analysis' own kind. -/
def Handles : ComponentAnalysis → Component → Prop
  | .values _, .values _ => True
  | .calls _, .calls _ => True
  | _, _ => False

/-- The component is of the analysis' own kind, and a call stack is within its bound. -/
def Fits : ComponentAnalysis → Component → Prop
  | .values _, .values _ => True
  | .calls a, .calls s => s.depth ≤ a.maxDepth
  | _, _ => False

theorem fits_start (a : ComponentAnalysis) : a.Fits a.start := by
  cases a with
  | values v => exact trivial
  | calls c => exact Nat.zero_le _

theorem handles_of_fits {a : ComponentAnalysis} {c : Component} (h : a.Fits c) : a.Handles c := by
  cases a with
  | values v =>
      cases c with
      | values s => exact trivial
      | location l => exact h.elim
      | calls s => exact h.elim
  | calls k =>
      cases c with
      | calls s => exact trivial
      | location l => exact h.elim
      | values s => exact h.elim

/-! ## One component -/

theorem le_refl (a : ComponentAnalysis) (c : Component) : a.le c c = true := by
  cases a with
  | values v =>
      cases c with
      | values s => exact Registers.le_refl s
      | location l => exact beq_self_eq_true _
      | calls s => exact beq_self_eq_true _
  | calls v => exact beq_self_eq_true c

/-- Registers are only comparable with registers. -/
theorem le_values_iff {v : ValueAnalysis} {s : Registers} {d : Component} :
    (ComponentAnalysis.values v).le (.values s) d = true ↔
      ∃ t, d = .values t ∧ s.le t = true := by
  cases d with
  | values t => simp [le]
  | location l => simp [le]
  | calls c => simp [le]

/-- Everything but registers is only comparable with itself. -/
theorem eq_of_le {a : ComponentAnalysis} {c d : Component} (h : a.le c d = true)
    (hc : c.values? = none ∨ ∃ k, a = .calls k) : c = d := by
  cases a with
  | calls k => exact beq_iff_eq.1 h
  | values v =>
      cases c with
      | values s => simp [Component.values?] at hc
      | location l => exact beq_iff_eq.1 h
      | calls s => exact beq_iff_eq.1 h

theorem le_trans {a : ComponentAnalysis} {c d e : Component} (hcd : a.le c d = true)
    (hde : a.le d e = true) : a.le c e = true := by
  cases a with
  | calls k =>
      obtain rfl := eq_of_le hcd (Or.inr ⟨k, rfl⟩)
      exact hde
  | values v =>
      cases c with
      | values s =>
          obtain ⟨t, rfl, hst⟩ := le_values_iff.1 hcd
          obtain ⟨u, rfl, htu⟩ := le_values_iff.1 hde
          exact Registers.le_trans hst htu
      | location l =>
          obtain rfl := eq_of_le hcd (Or.inl rfl)
          exact hde
      | calls s =>
          obtain rfl := eq_of_le hcd (Or.inl rfl)
          exact hde

theorem le_antisymm {a : ComponentAnalysis} {c d : Component} (hcd : a.le c d = true)
    (hdc : a.le d c = true) : c = d := by
  cases a with
  | calls k => exact eq_of_le hcd (Or.inr ⟨k, rfl⟩)
  | values v =>
      cases c with
      | values s =>
          obtain ⟨t, rfl, hst⟩ := le_values_iff.1 hcd
          exact congrArg Component.values (Registers.le_antisymm hst hdc)
      | location l => exact eq_of_le hcd (Or.inl rfl)
      | calls s => exact eq_of_le hcd (Or.inl rfl)

/-- Nothing but registers is ever combined: otherwise the reached component stays. -/
theorem merge_cases (a : ComponentAnalysis) (c d : Component) :
    a.merge c d = d ∨ ∃ v s t, a = .values v ∧ c = .values s ∧ d = .values t := by
  cases a with
  | calls k => exact Or.inl rfl
  | values v =>
      cases c with
      | location l => exact Or.inl rfl
      | calls k => exact Or.inl rfl
      | values s =>
          cases d with
          | location l => exact Or.inl rfl
          | calls k => exact Or.inl rfl
          | values t => exact Or.inr ⟨v, s, t, rfl, rfl, rfl⟩

/-- A merge is above the reached component. -/
theorem le_merge_right (a : ComponentAnalysis) (c d : Component) : a.le d (a.merge c d) = true := by
  rcases merge_cases a c d with h | ⟨v, s, t, rfl, rfl, rfl⟩
  · rw [h]
    exact le_refl a d
  · show t.le (v.combine s t) = true
    rw [ValueAnalysis.combine]
    split
    · exact Registers.le_join_right s t
    · exact Registers.le_refl t

/-- A merge that changes the reached component is above the new one. -/
theorem le_merge_left {a : ComponentAnalysis} {c d : Component} (h : a.merge c d ≠ d) :
    a.le c (a.merge c d) = true := by
  rcases merge_cases a c d with hsame | ⟨v, s, t, rfl, rfl, rfl⟩
  · exact absurd hsame h
  · have hne : v.combine s t ≠ t := fun he => h (congrArg Component.values he)
    show s.le (v.combine s t) = true
    rw [ValueAnalysis.combine] at hne ⊢
    split at hne
    · exact Registers.le_join_left s t
    · exact absurd rfl hne

/-- Whatever is above a fitting component is of the same kind and fits as well. -/
theorem fits_of_le {a : ComponentAnalysis} {c d : Component} (hc : a.Fits c)
    (h : a.le c d = true) : a.Fits d := by
  cases a with
  | calls k => exact eq_of_le h (Or.inr ⟨k, rfl⟩) ▸ hc
  | values v =>
      cases c with
      | values s =>
          obtain ⟨t, rfl, -⟩ := le_values_iff.1 h
          exact trivial
      | location l => exact hc.elim
      | calls s => exact hc.elim

/-- Whatever is above a component of the analysis' own kind is of that kind as well. -/
theorem handles_of_le {a : ComponentAnalysis} {c d : Component} (hc : a.Handles c)
    (h : a.le c d = true) : a.Handles d := by
  cases a with
  | calls k => exact eq_of_le h (Or.inr ⟨k, rfl⟩) ▸ hc
  | values v =>
      cases c with
      | values s =>
          obtain ⟨t, rfl, -⟩ := le_values_iff.1 h
          exact trivial
      | location l => exact hc.elim
      | calls s => exact hc.elim

end ComponentAnalysis

namespace Analysis

variable {a : Analysis}

/-! ## Lists of components -/

theorem componentsLe_refl (as : List ComponentAnalysis) (cs : List Component) :
    componentsLe as cs cs = true := by
  induction as generalizing cs with
  | nil => rfl
  | cons a as ih =>
      cases cs with
      | nil => rfl
      | cons c cs =>
          rw [componentsLe, ComponentAnalysis.le_refl, ih, Bool.and_self]

theorem componentsLe_trans {as : List ComponentAnalysis} {cs ds es : List Component}
    (hlen : cs.length = ds.length) (hcd : componentsLe as cs ds = true)
    (hde : componentsLe as ds es = true) : componentsLe as cs es = true := by
  induction as generalizing cs ds es with
  | nil => rfl
  | cons a as ih =>
      cases cs with
      | nil => rfl
      | cons c cs =>
          cases ds with
          | nil => exact absurd hlen (by simp)
          | cons d ds =>
              cases es with
              | nil => rfl
              | cons e es =>
                  rw [componentsLe, Bool.and_eq_true] at hcd hde ⊢
                  exact ⟨ComponentAnalysis.le_trans hcd.1 hde.1,
                    ih (Nat.succ.inj hlen) hcd.2 hde.2⟩

theorem componentsLe_antisymm {as : List ComponentAnalysis} {cs ds : List Component}
    (hc : as.length = cs.length) (hd : as.length = ds.length)
    (hcd : componentsLe as cs ds = true) (hdc : componentsLe as ds cs = true) : cs = ds := by
  induction as generalizing cs ds with
  | nil =>
      rw [List.length_eq_zero_iff.1 hc.symm, List.length_eq_zero_iff.1 hd.symm]
  | cons a as ih =>
      cases cs with
      | nil => exact absurd hc (by simp)
      | cons c cs =>
          cases ds with
          | nil => exact absurd hd (by simp)
          | cons d ds =>
              rw [componentsLe, Bool.and_eq_true] at hcd hdc
              rw [ComponentAnalysis.le_antisymm hcd.1 hdc.1,
                ih (Nat.succ.inj hc) (Nat.succ.inj hd) hcd.2 hdc.2]

/-- The rule for what holds of lists of which one is above the other: it is enough to look at one
    position, where both sides are of the analysis' own kind. -/
theorem componentsLe_induction
    {motive : List ComponentAnalysis → List Component → List Component → Prop}
    (nil : motive [] [] [])
    (cons : ∀ a as c cs d ds, a.Handles c → a.Handles d → a.le c d = true → motive as cs ds →
      motive (a :: as) (c :: cs) (d :: ds))
    {as : List ComponentAnalysis} {cs ds : List Component}
    (hc : List.Forall₂ ComponentAnalysis.Handles as cs) (hlen : cs.length = ds.length)
    (hle : componentsLe as cs ds = true) : motive as cs ds := by
  induction hc generalizing ds with
  | nil =>
      obtain rfl := List.eq_nil_of_length_eq_zero hlen.symm
      exact nil
  | @cons a c as cs hac _ ih =>
      cases ds with
      | nil => exact absurd hlen (by simp)
      | cons d ds =>
          rw [componentsLe, Bool.and_eq_true] at hle
          have had := ComponentAnalysis.handles_of_le hac hle.1
          exact cons a as c cs d ds hac had hle.1 (ih (Nat.succ.inj hlen) hle.2)

/-- A merge of components that goes through has one component for each analysis and is above both
    sides. -/
theorem mergeComponents_bounds {as : List ComponentAnalysis} {cs ds ms : List Component}
    (hc : as.length = cs.length) (hd : as.length = ds.length)
    (h : mergeComponents as cs ds = some ms) :
    as.length = ms.length ∧ componentsLe as ds ms = true ∧ componentsLe as cs ms = true := by
  induction as generalizing cs ds ms with
  | nil =>
      obtain rfl := Option.some.inj h
      exact ⟨rfl, rfl, rfl⟩
  | cons a as ih =>
      cases cs with
      | nil => exact absurd hc (by simp)
      | cons c cs =>
          cases ds with
          | nil => exact absurd hd (by simp)
          | cons d ds =>
              rw [mergeComponents] at h
              split at h
              · exact absurd h (by simp)
              · rename_i hkept
                obtain ⟨ms, hms, rfl⟩ := Option.map_eq_some_iff.1 h
                obtain ⟨hlen, hright, hleft⟩ := ih (Nat.succ.inj hc) (Nat.succ.inj hd) hms
                refine ⟨congrArg Nat.succ hlen, ?_, ?_⟩
                · rw [componentsLe, ComponentAnalysis.le_merge_right, hright, Bool.and_self]
                · -- Either the merge changed the component, or the new one was covered before.
                  have hle : a.le c (a.merge c d) = true := by
                    by_cases hm : a.merge c d = d
                    · rw [hm]
                      by_contra hnle
                      exact hkept ⟨hm, by simpa using hnle⟩
                    · exact ComponentAnalysis.le_merge_left hm
                  rw [componentsLe, hle, hleft, Bool.and_self]

/-! ## Composite states -/

/-- The state has one component of the right kind for each component of the analysis. -/
def Handles (a : Analysis) (s : State) : Prop :=
  List.Forall₂ ComponentAnalysis.Handles a.components s.components

/-- The state has one fitting component for each component of the analysis. -/
def Fits (a : Analysis) (s : State) : Prop :=
  List.Forall₂ ComponentAnalysis.Fits a.components s.components

theorem handles_of_fits {s : State} (h : a.Fits s) : a.Handles s :=
  h.imp fun _ _ => ComponentAnalysis.handles_of_fits

theorem fits_start (a : Analysis) (l : Location) : a.Fits (a.start l) := by
  rw [Fits, start, List.forall₂_map_right_iff, List.forall₂_same]
  exact fun c _ => c.fits_start

theorem le_iff {s t : State} : a.le s t = true ↔ s.location = t.location ∧
    s.components.length = t.components.length ∧
    componentsLe a.components s.components t.components = true := by
  rw [le, Bool.and_eq_true, Bool.and_eq_true, beq_iff_eq, beq_iff_eq, and_assoc]

theorem location_eq_of_le {s t : State} (h : a.le s t = true) : s.location = t.location :=
  (le_iff.1 h).1

theorem le_refl (a : Analysis) (s : State) : a.le s s = true :=
  le_iff.2 ⟨rfl, rfl, componentsLe_refl _ _⟩

theorem le_trans {s t u : State} (hst : a.le s t = true) (htu : a.le t u = true) :
    a.le s u = true := by
  rw [le_iff] at hst htu ⊢
  exact ⟨hst.1.trans htu.1, hst.2.1.trans htu.2.1,
    componentsLe_trans hst.2.1 hst.2.2 htu.2.2⟩

theorem le_antisymm {s t : State} (hs : a.Fits s) (ht : a.Fits t) (hst : a.le s t = true)
    (hts : a.le t s = true) : s = t := by
  rw [le_iff] at hst hts
  have hcomponents : s.components = t.components :=
    componentsLe_antisymm hs.length_eq ht.length_eq hst.2.2 hts.2.2
  obtain ⟨l, cs⟩ := s
  obtain ⟨m, ds⟩ := t
  obtain rfl : l = m := hst.1
  obtain rfl : cs = ds := hcomponents
  rfl

/-- Components above fitting ones fit, and the registers among them describe at least as many
    register files. -/
theorem componentsLe_bounds {as : List ComponentAnalysis} {cs ds : List Component}
    (hc : List.Forall₂ ComponentAnalysis.Fits as cs) (hlen : cs.length = ds.length)
    (hle : componentsLe as cs ds = true) :
    List.Forall₂ ComponentAnalysis.Fits as ds ∧
      ∀ ρ, (∀ v, Component.values v ∈ cs → v.Describes ρ) →
        ∀ v, Component.values v ∈ ds → v.Describes ρ := by
  induction hc generalizing ds with
  | nil =>
      obtain rfl := List.eq_nil_of_length_eq_zero hlen.symm
      exact ⟨List.Forall₂.nil, fun _ h => h⟩
  | @cons a c as cs hac _ ih =>
      cases ds with
      | nil => exact absurd hlen (by simp)
      | cons d ds =>
          rw [componentsLe, Bool.and_eq_true] at hle
          obtain ⟨hfits, hrest⟩ := ih (Nat.succ.inj hlen) hle.2
          have had := ComponentAnalysis.fits_of_le hac hle.1
          refine ⟨List.Forall₂.cons had hfits, fun ρ hcs v hv => ?_⟩
          rcases List.mem_cons.1 hv with rfl | hv
          · -- Only registers are below registers.
            cases a with
            | calls k => exact had.elim
            | values va =>
                cases c with
                | values s =>
                    exact Registers.describes_of_le hle.1 (hcs s List.mem_cons_self)
                | location l => exact hac.elim
                | calls s => exact hac.elim
          · exact hrest ρ (fun u hu => hcs u (List.mem_cons_of_mem _ hu)) v hv

theorem handles_of_le {s t : State} (hs : a.Handles s) (h : a.le s t = true) : a.Handles t := by
  obtain ⟨-, hlen, hle⟩ := le_iff.1 h
  exact componentsLe_induction
    (motive := fun as _ ds => List.Forall₂ ComponentAnalysis.Handles as ds)
    .nil (fun _ _ _ _ _ _ _ had _ hrest => .cons had hrest) hs hlen hle

theorem fits_of_le {s t : State} (hs : a.Fits s) (h : a.le s t = true) : a.Fits t := by
  obtain ⟨-, hlen, hle⟩ := le_iff.1 h
  exact (componentsLe_bounds hs hlen hle).1

theorem describes_of_le {s t : State} {ρ : RegFile} (hs : a.Fits s) (h : a.le s t = true)
    (hd : s.Describes ρ) : t.Describes ρ := by
  obtain ⟨-, hlen, hle⟩ := le_iff.1 h
  exact (componentsLe_bounds hs hlen hle).2 ρ hd

/-- A merge only happens at one location. -/
theorem location_eq_of_merge {s t m : State} (h : a.merge s t = some m) :
    s.location = t.location := by
  unfold merge at h
  split at h
  · assumption
  · exact absurd h (by simp)

/-- The merged state stands where both states stand. -/
theorem location_of_merge {s t m : State} (h : a.merge s t = some m) :
    m.location = s.location := by
  have hloc := location_eq_of_merge h
  unfold merge at h
  rw [if_pos hloc] at h
  split at h
  · split at h
    · exact absurd h (by simp)
    · rw [← Option.some.inj h, hloc]
  · exact absurd h (by simp)

/-- A merge that replaces the reached state `t` gives a state above the new and the reached one, and
    another one than `t`. -/
theorem merge_above {s t m : State} (hs : a.Handles s) (ht : a.Handles t)
    (h : a.merge s t = some m) : a.le s m = true ∧ a.le t m = true ∧ m ≠ t := by
  have hloc := location_eq_of_merge h
  unfold merge at h
  rw [if_pos hloc] at h
  split at h
  · rename_i cs hcs
    obtain ⟨hlen, hright, hleft⟩ := mergeComponents_bounds hs.length_eq ht.length_eq hcs
    have hlent : t.components.length = cs.length := ht.length_eq.symm.trans hlen
    rw [← hlent, List.take_length] at h
    split at h
    · exact absurd h (by simp)
    · rename_i hne
      obtain rfl := Option.some.inj h
      refine ⟨?_, ?_, ?_⟩
      · exact le_iff.2 ⟨hloc, hs.length_eq.symm.trans hlen, hleft⟩
      · exact le_iff.2 ⟨rfl, hlent, hright⟩
      · exact fun he => hne (congrArg State.components he)
  · exact absurd h (by simp)

/-- On states that fit, the merged state fits as well. -/
theorem merge_bounds {s t m : State} (hs : a.Fits s) (ht : a.Fits t)
    (h : a.merge s t = some m) :
    a.Fits m ∧ a.le s m = true ∧ a.le t m = true ∧ m ≠ t := by
  have habove := merge_above (handles_of_fits hs) (handles_of_fits ht) h
  exact ⟨fits_of_le ht habove.2.1, habove⟩

end Analysis

end CodeReach
