/-
  CodeReach.Proofs.Data.Loop

  Rules for loops.  An invariant of the step holds wherever the loop gets to
  (`iterate_invariant`); a loop that is over has a last step (`exists_last_step`); a
  loop whose steps lower a measure is over as soon as its budget exceeds the measure
  (`exists_iterate_done`).  Rounds of doubling length are one long loop
  (`deepen_eq_iterate`).  Two loops whose steps keep related states related stay in
  lockstep (`related_iterate`).
-/
import CodeReach.Data.Loop
import Mathlib.Algebra.Group.Nat.Defs

namespace CodeReach

/-- The same progress with another state to go on from. -/
def Progress.map {σ τ ρ : Type} (f : σ → τ) : Progress σ ρ → Progress τ ρ
  | .next s => .next (f s)
  | .done r => .done r

/-- The loop goes on from a state that passes the test. -/
def Progress.goesOnTo {σ ρ : Type} (test : σ → Bool) : Progress σ ρ → Bool
  | .next s => test s
  | .done _ => false

theorem Progress.goesOnTo_iff {σ ρ : Type} {test : σ → Bool} {p : Progress σ ρ} :
    p.goesOnTo test = true ↔ ∃ s, p = .next s ∧ test s = true := by
  cases p with
  | next s => simp [goesOnTo]
  | done r => simp [goesOnTo]

/-- Both loops go on from related states, or both are over with related results. -/
inductive Progress.Related {σ σ' ρ ρ' : Type} (R : σ → σ' → Prop) (Q : ρ → ρ' → Prop) :
    Progress σ ρ → Progress σ' ρ' → Prop where
  | next {s : σ} {s' : σ'} (states : R s s') : Related R Q (.next s) (.next s')
  | done {r : ρ} {r' : ρ'} (results : Q r r') : Related R Q (.done r) (.done r')

theorem Progress.Related.map_right {σ σ' τ ρ ρ' : Type} {R : σ → σ' → Prop} {S : σ → τ → Prop}
    {Q : ρ → ρ' → Prop} {p : Progress σ ρ} {p' : Progress σ' ρ'} (h : p.Related R Q p') {f : σ' → τ}
    (hf : ∀ s s', R s s' → S s (f s')) : p.Related S Q (p'.map f) := by
  cases h with
  | next states => exact .next (hf _ _ states)
  | done results => exact .done results

namespace Loop

variable {σ ρ : Type} {step : σ → Progress σ ρ} {s t : σ} {r : ρ} {n : Nat}

theorem iterate_add (step : σ → Progress σ ρ) (m n : Nat) (s : σ) :
    iterate step (m + n) s =
      match iterate step m s with
      | .next t => iterate step n t
      | .done r => .done r := by
  induction m generalizing s with
  | zero => rw [Nat.zero_add, iterate]
  | succ m ih =>
      rw [Nat.succ_add, iterate, iterate]
      cases step s with
      | next t => exact ih t
      | done r => rfl

theorem iterate_invariant {motive : σ → Prop} (hs : motive s)
    (hstep : ∀ s t, motive s → step s = .next t → motive t)
    (h : iterate step n s = .next t) : motive t := by
  induction n generalizing s with
  | zero =>
      obtain rfl := Progress.next.inj h
      exact hs
  | succ n ih =>
      rw [iterate] at h
      split at h
      · rename_i u hu
        exact ih (hstep s u hs hu) h
      · exact absurd h (by simp)

/-- A loop that is over was at some state from which the next step ended it. -/
theorem exists_last_step (h : iterate step n s = .done r) :
    ∃ k t, k < n ∧ iterate step k s = .next t ∧ step t = .done r := by
  induction n generalizing s with
  | zero => exact absurd h (by simp [iterate])
  | succ n ih =>
      rw [iterate] at h
      split at h
      · rename_i u hu
        obtain ⟨k, t, hk, hnext, hdone⟩ := ih h
        refine ⟨k + 1, t, Nat.succ_lt_succ hk, ?_, hdone⟩
        rw [iterate, hu]
        exact hnext
      · rename_i r' hdone
        refine ⟨0, s, Nat.zero_lt_succ n, rfl, ?_⟩
        rw [hdone, Progress.done.inj h]

/-- The loop rule for termination. -/
theorem exists_iterate_done {motive : σ → Prop} {μ : σ → Nat} (hs : motive s)
    (hstep : ∀ s t, motive s → step s = .next t → motive t ∧ μ t < μ s) (hn : μ s < n) :
    ∃ r, iterate step n s = .done r := by
  induction n generalizing s with
  | zero => exact absurd hn (Nat.not_lt_zero _)
  | succ n ih =>
      rw [iterate]
      cases hu : step s with
      | next u =>
          obtain ⟨hmotive, hlt⟩ := hstep s u hs hu
          exact ih hmotive (Nat.lt_of_lt_of_le hlt (Nat.le_of_lt_succ hn))
      | done r => exact ⟨r, rfl⟩

theorem deepen_eq_iterate (step : σ → Progress σ ρ) (rounds n : Nat) (s : σ) :
    deepen step rounds n s = iterate step (n * (2 ^ rounds - 1)) s := by
  induction rounds generalizing n s with
  | zero => rfl
  | succ rounds ih =>
      -- The first round takes `n` steps, the others twice as many as `rounds` rounds would.
      have hsplit : n * (2 ^ (rounds + 1) - 1) = n + 2 * n * (2 ^ rounds - 1) := by
        obtain ⟨k, hk⟩ := Nat.exists_eq_add_of_le (Nat.one_le_two_pow (n := rounds))
        have hpow : 2 ^ (rounds + 1) - 1 = 1 + 2 * k := by
          rw [Nat.pow_succ, hk]
          omega
        rw [hpow, hk, Nat.add_sub_cancel_left, Nat.mul_add, Nat.mul_one, Nat.mul_comm 2 n,
          Nat.mul_assoc]
      rw [hsplit, iterate_add, deepen]
      cases iterate step n s with
      | next t => exact ih (2 * n) t
      | done r => rfl

/-! ## Two loops -/

section
variable {σ' ρ' : Type} {step' : σ' → Progress σ' ρ'} {s' : σ'} {R : σ → σ' → Prop}
  {Q : ρ → ρ' → Prop}

theorem related_iterate (hstep : ∀ s s', R s s' → (step s).Related R Q (step' s'))
    (h : R s s') (n : Nat) : (iterate step n s).Related R Q (iterate step' n s') := by
  induction n generalizing s s' with
  | zero => exact .next h
  | succ n ih =>
      have hrelated := hstep s s' h
      rw [iterate, iterate]
      generalize step s = p at hrelated ⊢
      generalize step' s' = p' at hrelated ⊢
      cases hrelated with
      | next states => exact ih states
      | done results => exact .done results

theorem related_deepen (hstep : ∀ s s', R s s' → (step s).Related R Q (step' s'))
    (h : R s s') (rounds n : Nat) :
    (deepen step rounds n s).Related R Q (deepen step' rounds n s') := by
  rw [deepen_eq_iterate, deepen_eq_iterate]
  exact related_iterate hstep h _

end

end Loop

end CodeReach
