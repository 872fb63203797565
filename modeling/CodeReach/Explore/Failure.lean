/-
  CodeReach.Explore.Failure

  Why an exploration failed, and at which node.
-/
import CodeReach.Domain.State

namespace CodeReach

/-- What made an exploration fail. -/
inductive Cause where
  /-- A step of the analysis had no answer. -/
  | fault (f : Fault)
  /-- The target of the goto at the label is not known, and guessing was forbidden. -/
  | unresolved (label : Label)
deriving DecidableEq

/-- The cause in words. -/
def Cause.message : Cause → String
  | .fault f => f.message
  | .unresolved label => "unresolvable control flow from " ++ label.text

/-- A cause, and the node it was met at once that is known. -/
structure Failure where
  cause : Cause
  node : Option Node
deriving DecidableEq

/-- The failure with a node, unless it names one already. -/
def Failure.attach (f : Failure) (n : Node) : Failure :=
  { f with node := f.node <|> some n }

end CodeReach
