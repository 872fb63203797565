/-
  CodeReach.Transfer.Values

  The analysis of register values: what a statement does to what is known about the
  registers, how two descriptions are brought together, and which registers a
  precision no longer tracks.
-/
import CodeReach.Domain.Precision
import CodeReach.Domain.State

namespace CodeReach

/-- What happens when a new description meets one that was reached before. -/
inductive MergeMode where
  /-- The two are joined. -/
  | join
  /-- The two are kept apart. -/
  | sep
deriving DecidableEq

/-- The analysis of register values. -/
structure ValueAnalysis where
  /-- The program whose read-only data loads may use. -/
  program : Program
  merge : MergeMode := .join
  /-- How many constants a register may show at one location. -/
  threshold : Nat := 8
  /-- Whether a call may be passed as a whole, after which nothing is known. -/
  atomicCalls : Bool := false

namespace ValueAnalysis

/-- What is known after a statement, or nothing if it cannot be passed. -/
def step (a : ValueAnalysis) (s : Registers) : Stmt → Except Fault (Option Registers)
  | .assign r value => return some (s.set r (← s.eval (some a.program) value))
  | .havoc r => return some (s.set r .unknown)
  | .store addr value _ => do
    Registers.checkAccess (← s.eval (some a.program) addr)
    discard <| s.eval (some a.program) value
    return some s
  | .assume condition _ => s.assume (some a.program) condition
  | .callReturn => return if a.atomicCalls then some .unknown else none
  | .goto _ | .skip | .halt => return some s

/-- The new description `s` put into the reached description `t`. -/
def combine (a : ValueAnalysis) (s t : Registers) : Registers :=
  match a.merge with
  | .join => s.join t
  | .sep => t

/-- Forgets the registers that show too many constants, and notes what they showed. -/
def widen (s : Registers) (p : ValuePrecision) : Registers × ValuePrecision :=
  s.constants.foldl
    (fun (t, q) (r, ws) =>
      let q := q.observe r ws
      (if q.exceeded r then t.set r .unknown else t, q))
    (s, p)

end ValueAnalysis

end CodeReach
