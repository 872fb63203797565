/-
  CodeReach.Explore.Settings

  The switches of an exploration.
-/

namespace CodeReach

/-- A length of time in nanoseconds. -/
abbrev Duration := Nat

/-- How an exploration is to be carried out. -/
structure Settings where
  /-- Follow a goto with unknown target to every code address. -/
  allEdges : Bool := false
  /-- Fail at a goto with unknown target. -/
  debug : Bool := false
  /-- How long a run may take. -/
  timeout : Option Duration := none
  /-- Give up as soon as a goto could not be resolved. -/
  failFast : Bool := false
  /-- Record the reachability tree to explain failures. -/
  errorTrace : Bool := false
  /-- Record the reachability tree to list instructions. -/
  asmTrace : Bool := false
  /-- How many states are visited from one housekeeping to the next. -/
  stepThreshold : Nat := 1000
  /-- Add an edge from each call to the label after it. -/
  callReturnEdges : Bool := true
deriving DecidableEq

namespace Settings

/-- The settings with another step threshold, at least one. -/
def withStepThreshold (s : Settings) (n : Nat) : Settings :=
  { s with stepThreshold := max n 1 }

/-- Whether the settings ask for a reachability tree. -/
def needsTree (s : Settings) : Bool :=
  s.errorTrace || s.asmTrace

end Settings

end CodeReach
