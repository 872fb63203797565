/-
  CodeReach.Transfer.Calls

  The analysis of call stacks.  Taken calls remember the label after them, and a
  return is only possible to the address on top of the stack, or to anywhere if no
  call is remembered.
-/
import CodeReach.Domain.State
import CodeReach.Flow.Edge

namespace CodeReach

/-- The analysis of call stacks with at most `maxDepth` remembered calls. -/
structure CallAnalysis where
  maxDepth : Nat := 64

namespace CallAnalysis

/-- The analysis that remembers at most `n` calls, but at least one. -/
def bounded (n : Nat) : CallAnalysis :=
  ⟨max n 1⟩

/-- The stack after an edge, or nothing if the edge is a return to the wrong place.  A call whose
    target is the address after it is no call. -/
def step (a : CallAnalysis) (s : CallStack) (e : Edge) : Option CallStack :=
  match e.stmt.origin? with
  | some ⟨.call, some next⟩ =>
    if next.address = e.target.address then some s else some (s.push next.address a.maxDepth)
  | some ⟨.ret, _⟩ =>
    match s.top? with
    | none => some s
    | some top => if top = e.target.address then some s.pop else none
  | _ => some s

end CallAnalysis

end CodeReach
