/-
  CodeReach.Data.Loop

  Loops that run until a step says that they are done.  `Loop.iterate` is the plain
  loop with a budget of steps.  `Loop.deepen` repeats it with budgets that double
  from round to round, so that `r` rounds allow `2 ^ r - 1` steps: the budget of a
  long loop can be named by a small number, and a short loop never pays for it.
-/

namespace CodeReach

/-- What one step of a loop leads to. -/
inductive Progress (σ ρ : Type) where
  /-- The loop goes on from here. -/
  | next (s : σ)
  /-- The loop is over. -/
  | done (r : ρ)

namespace Loop

variable {σ ρ : Type}

/-- At most `n` steps. -/
def iterate (step : σ → Progress σ ρ) : Nat → σ → Progress σ ρ
  | 0, s => .next s
  | n + 1, s =>
    match step s with
    | .next t => iterate step n t
    | .done r => .done r

/-- Rounds of `n`, `2 * n`, `4 * n`, … steps. -/
def deepen (step : σ → Progress σ ρ) : Nat → Nat → σ → Progress σ ρ
  | 0, _, s => .next s
  | rounds + 1, n, s =>
    match iterate step n s with
    | .next t => deepen step rounds (2 * n) t
    | .done r => .done r

end Loop

end CodeReach
