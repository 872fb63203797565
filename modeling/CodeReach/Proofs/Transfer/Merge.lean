/-
  CodeReach.Proofs.Transfer.Merge

  When a merge replaces the reached state.

  A component analysis either joins what it is given or keeps it apart.  A composite
  merge goes through all components in order and gives up at the first one that keeps
  apart and is not covered, whatever was joined before it.  So a reached state stays
  in exactly three cases: the new state stands elsewhere, it is covered already, or
  some component keeps the two apart (`merge_eq_none_iff`).
-/
import CodeReach.Proofs.Domain.Monotone
import CodeReach.Proofs.Transfer.Order

namespace CodeReach

namespace ComponentAnalysis

variable {a : ComponentAnalysis} {c d : Component}

/-! ## One component -/

/-- Whether the analysis joins components; otherwise it keeps them apart. -/
def joins : ComponentAnalysis → Bool
  | .values v => v.merge == .join
  | .calls _ => false

/-- A component that is covered is put into the reached one without changing it. -/
theorem merge_of_le (h : a.le c d = true) : a.merge c d = d := by
  rcases merge_cases a c d with hsame | ⟨v, s, t, rfl, rfl, rfl⟩
  · exact hsame
  · have hst : s.le t = true := h
    show Component.values (v.combine s t) = .values t
    rw [ValueAnalysis.combine]
    split
    · rw [Registers.join_eq_right_iff.2 hst]
    · rfl

theorem merge_of_not_joins (hjoins : a.joins = false) (c d : Component) : a.merge c d = d := by
  rcases merge_cases a c d with hsame | ⟨v, s, t, rfl, rfl, rfl⟩
  · exact hsame
  · have hmode : v.merge ≠ .join := by simpa [joins] using hjoins
    show Component.values (v.combine s t) = .values t
    rw [ValueAnalysis.combine]
    split
    · exact absurd ‹_› hmode
    · rfl

/-- A join that changes nothing had nothing to add. -/
theorem le_of_joins (hjoins : a.joins = true) (hc : a.Handles c) (hd : a.Handles d)
    (h : a.merge c d = d) : a.le c d = true := by
  cases a with
  | calls k => exact absurd hjoins (by simp [joins])
  | values v =>
      cases c with
      | location l => exact hc.elim
      | calls k => exact hc.elim
      | values s =>
          cases d with
          | location l => exact hd.elim
          | calls k => exact hd.elim
          | values t =>
              have hmode : v.merge = .join := by simpa [joins] using hjoins
              have heq : v.combine s t = t := Component.values.inj h
              rw [ValueAnalysis.combine, hmode] at heq
              exact Registers.join_eq_right_iff.1 heq

/-- A component stops a merge exactly if it keeps apart and is not covered. -/
theorem merge_refused_iff (hc : a.Handles c) (hd : a.Handles d) :
    (a.merge c d = d ∧ (!a.le c d) = true) ↔ a.joins = false ∧ a.le c d = false := by
  rw [Bool.not_eq_true']
  constructor
  · rintro ⟨hmerge, hle⟩
    refine ⟨?_, hle⟩
    by_contra hjoins
    have hcovered := le_of_joins (by simpa using hjoins) hc hd hmerge
    rw [hle] at hcovered
    exact absurd hcovered (by decide)
  · exact fun ⟨hjoins, hle⟩ => ⟨merge_of_not_joins hjoins c d, hle⟩

end ComponentAnalysis

namespace Analysis

variable {a : Analysis} {s t m : State}

/-! ## All components -/

/-- Some analysis of the list keeps apart the components at its position, which are not covered. -/
def SomeKeepsApart (as : List ComponentAnalysis) (cs ds : List Component) : Prop :=
  ∃ (i : Nat) (b : ComponentAnalysis) (c d : Component),
    as[i]? = some b ∧ cs[i]? = some c ∧ ds[i]? = some d ∧ b.joins = false ∧ b.le c d = false

theorem someKeepsApart_cons {b : ComponentAnalysis} {as : List ComponentAnalysis}
    {c d : Component} {cs ds : List Component} :
    SomeKeepsApart (b :: as) (c :: cs) (d :: ds) ↔
      (b.joins = false ∧ b.le c d = false) ∨ SomeKeepsApart as cs ds := by
  constructor
  · rintro ⟨i, b', c', d', hb, hc, hd, h⟩
    cases i with
    | zero =>
        obtain rfl : b = b' := Option.some.inj hb
        obtain rfl : c = c' := Option.some.inj hc
        obtain rfl : d = d' := Option.some.inj hd
        exact Or.inl h
    | succ i => exact Or.inr ⟨i, b', c', d', hb, hc, hd, h⟩
  · rintro (h | ⟨i, b', c', d', hb, hc, hd, h⟩)
    · exact ⟨0, b, c, d, rfl, rfl, rfl, h⟩
    · exact ⟨i + 1, b', c', d', hb, hc, hd, h⟩

/-- Components that are covered are put into the reached ones without changing them. -/
theorem mergeComponents_of_le {as : List ComponentAnalysis} {cs ds : List Component}
    (h : componentsLe as cs ds = true) : ∃ n, mergeComponents as cs ds = some (ds.take n) := by
  fun_induction mergeComponents as cs ds with
  | case1 b as c cs d ds m hrefused =>
      rw [componentsLe, Bool.and_eq_true] at h
      rw [h.1] at hrefused
      exact absurd hrefused.2 (by decide)
  | case2 b as c cs d ds m hkept ih =>
      rw [componentsLe, Bool.and_eq_true] at h
      obtain ⟨n, hn⟩ := ih h.2
      refine ⟨n + 1, ?_⟩
      rw [hn, List.take_succ_cons, ← ComponentAnalysis.merge_of_le h.1]
      rfl
  | case3 => exact ⟨0, by rw [List.take_zero]⟩

/-- A merge of components stops exactly if some component keeps the two sides apart. -/
theorem mergeComponents_eq_none_iff {as : List ComponentAnalysis} {cs ds : List Component}
    (hc : List.Forall₂ ComponentAnalysis.Handles as cs)
    (hd : List.Forall₂ ComponentAnalysis.Handles as ds) :
    mergeComponents as cs ds = none ↔ SomeKeepsApart as cs ds := by
  induction hc generalizing ds with
  | nil => simp [mergeComponents, SomeKeepsApart]
  | @cons b c as cs hbc _ ih =>
      obtain ⟨d, ds, hbd, hds, rfl⟩ := List.forall₂_cons_left_iff.1 hd
      rw [mergeComponents, someKeepsApart_cons, ← ComponentAnalysis.merge_refused_iff hbc hbd,
        ← ih hds]
      split
      · rename_i hrefused
        exact iff_of_true rfl (Or.inl hrefused)
      · rename_i hkept
        rw [Option.map_eq_none_iff, or_iff_right hkept]

/-! ## Composite states -/

/-- Some component keeps the two states apart. -/
def KeepsApart (a : Analysis) (s t : State) : Prop :=
  SomeKeepsApart a.components s.components t.components

/-- A state that is covered leaves the reached state as it is. -/
theorem merge_of_le (h : a.le s t = true) : a.merge s t = none := by
  obtain ⟨hloc, -, hle⟩ := le_iff.1 h
  obtain ⟨n, hn⟩ := mergeComponents_of_le hle
  have htake : t.components.take n = t.components.take (t.components.take n).length := by
    rw [List.length_take, List.take_eq_take_iff]
    omega
  rw [merge, if_pos hloc, hn]
  exact if_pos htake

theorem merge_of_location_ne (h : s.location ≠ t.location) : a.merge s t = none :=
  if_neg h

theorem merge_eq_none_iff (hs : a.Handles s) (ht : a.Handles t) :
    a.merge s t = none ↔
      a.le s t = true ∨ s.location ≠ t.location ∨ a.KeepsApart s t := by
  by_cases hloc : s.location = t.location
  · have hapart := mergeComponents_eq_none_iff hs ht
    constructor
    · intro h
      cases hm : mergeComponents a.components s.components t.components with
      | none => exact Or.inr (Or.inr (hapart.1 hm))
      | some cs =>
          -- The merge went through and changed nothing, so the new state was below it.
          obtain ⟨hlen, -, hle⟩ := mergeComponents_bounds hs.length_eq ht.length_eq hm
          have hsame : cs = t.components.take cs.length := by
            by_contra hne
            rw [merge, if_pos hloc, hm] at h
            exact absurd h (by simp [hne])
          rw [← hlen, ht.length_eq, List.take_length] at hsame
          subst hsame
          exact Or.inl (le_iff.2 ⟨hloc, hs.length_eq.symm.trans ht.length_eq, hle⟩)
    · rintro (hle | hne | h)
      · exact merge_of_le hle
      · exact absurd hloc hne
      · rw [merge, if_pos hloc, hapart.2 h]
  · exact iff_of_true (merge_of_location_ne hloc) (Or.inr (Or.inl hloc))

/-- A merge is an upper bound or a refusal.  What stands in the place of the reached state `t`
    afterwards is above `t` and where `t` was.  If it is another state, that one is above the new
    state too; and `t` itself stays exactly if the new state is covered, stands elsewhere, or is
    kept apart by some component. -/
theorem merge_bounds_or_refuses (a : Analysis) (s t : State) (hs : a.Handles s)
    (ht : a.Handles t) :
    a.le t ((a.merge s t).getD t) = true ∧
      ((a.merge s t).getD t).location = t.location ∧
      (∀ m, a.merge s t = some m → m ≠ t ∧ a.le s m = true ∧ a.le t m = true) ∧
      (a.merge s t = none ↔
        a.le s t = true ∨ s.location ≠ t.location ∨ a.KeepsApart s t) := by
  have hreplaced : ∀ m, a.merge s t = some m → m ≠ t ∧ a.le s m = true ∧ a.le t m = true := by
    intro m hm
    obtain ⟨hsm, htm, hne⟩ := merge_above hs ht hm
    exact ⟨hne, hsm, htm⟩
  have habove : a.le t ((a.merge s t).getD t) = true := by
    cases hm : a.merge s t with
    | none => exact le_refl a t
    | some m => exact (hreplaced m hm).2.2
  exact ⟨habove, (location_eq_of_le habove).symm, hreplaced, merge_eq_none_iff hs ht⟩

/-- Registers that are joined, a call stack, and registers that are kept apart. -/
def joinedAndApart : Analysis :=
  ⟨{}, [.values { program := .blank 0x1000 }, .calls {},
    .values { program := .blank 0x1000, merge := .sep }]⟩

/-- A state of that analysis with one open call: the registers that are joined know `r1`, and those
    that are kept apart know what is given of `r2`. -/
def knowing (w : Word) (apart : ValueSet) : State :=
  ⟨.plain (.start 0x1000),
    [.values (Registers.unknown.set 1 (.const w)), .calls ⟨[0x1005]⟩,
      .values (Registers.unknown.set 2 apart)]⟩

theorem handles_knowing (w : Word) (apart : ValueSet) :
    joinedAndApart.Handles (knowing w apart) :=
  .cons trivial (.cons trivial (.cons trivial .nil))

/-- The registers that are kept apart let a merge through where they are covered, and stop it after
    the other ones have been joined where they are not. -/
theorem merge_bounds_or_refuses_joinedAndApart :
    (∃ m, joinedAndApart.merge (knowing 1 (.const 5)) (knowing 2 .unknown) = some m ∧
      m ≠ knowing 2 .unknown ∧ joinedAndApart.le (knowing 1 (.const 5)) m = true ∧
      joinedAndApart.le (knowing 2 .unknown) m = true) ∧
    joinedAndApart.KeepsApart (knowing 1 (.const 5)) (knowing 2 (.const 6)) := by
  have hmerges :
      (joinedAndApart.merge (knowing 1 (.const 5)) (knowing 2 .unknown)).isSome = true := by
    decide +kernel
  obtain ⟨m, hm⟩ := Option.isSome_iff_exists.1 hmerges
  have hcovered := merge_bounds_or_refuses joinedAndApart (knowing 1 (.const 5))
    (knowing 2 .unknown) (handles_knowing _ _) (handles_knowing _ _)
  have hother := merge_bounds_or_refuses joinedAndApart (knowing 1 (.const 5))
    (knowing 2 (.const 6)) (handles_knowing _ _) (handles_knowing _ _)
  refine ⟨⟨m, hm, hcovered.2.2.1 m hm⟩, ?_⟩
  rcases hother.2.2.2.1 (by decide +kernel) with hle | hne | happart
  · exact absurd hle (by decide +kernel)
  · exact absurd rfl hne
  · exact happart

end Analysis

end CodeReach
