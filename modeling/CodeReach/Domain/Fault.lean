/-
  CodeReach.Domain.Fault

  What can go wrong while a state is pushed along an edge.
-/
import CodeReach.Code.Location

namespace CodeReach

/-- The reason why a step of the analysis has no answer. -/
inductive Fault where
  /-- Every candidate for the address of an access lies in the null page; the least is given. -/
  | invalidAccess (address : Word)
  /-- Control reached a label without a statement. -/
  | missingStatement (label : Label)
  /-- An analysis found a foreign component, or none, at its position in a state. -/
  | componentMismatch (analysis : String) (index : Nat)
deriving DecidableEq

/-- The fault in words. -/
def Fault.message : Fault → String
  | .invalidAccess address => "invalid memory access at " ++ Word.hex address
  | .missingStatement label => "no statement at " ++ label.text
  | .componentMismatch analysis index =>
    analysis ++ " expected its own state in component " ++ Nat.repr index

end CodeReach
