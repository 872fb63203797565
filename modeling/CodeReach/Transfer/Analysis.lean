/-
  CodeReach.Transfer.Analysis

  Composite analyses: the product of a location analysis and any list of further
  components.  All operations work position by position; a merge goes through only
  if every component either joins or is already covered.
-/
import CodeReach.Transfer.Component

namespace CodeReach

/-- The direction in which edges are followed. -/
inductive Direction where
  | forward
  | backward
deriving DecidableEq

/-- How the locations of states are tracked. -/
structure Placement where
  direction : Direction := .forward
  /-- The register whose value splits locations, if there is one. -/
  vpc : Option Reg := none
deriving DecidableEq

namespace Placement

/-- What the location analysis is called. -/
def name (p : Placement) : String :=
  match p.direction with
  | .forward => "location"
  | .backward => "backward-location"

/-- The location after an edge.  With a virtual program counter, it is split by the value of that
    register after the edge whenever this is known exactly. -/
def step (p : Placement) (s : State) (e : Edge) : Location :=
  let next := match p.direction with
    | .forward => e.target
    | .backward => e.source
  match p.vpc with
  | none => next
  | some r =>
    match s.values?.bind fun v => (v.after e.stmt r).single? with
    | some w => .split next.label w
    | none => .plain next.label

end Placement

/-- A location analysis with the analyses of the further components. -/
structure Analysis where
  placement : Placement
  components : List ComponentAnalysis

namespace Analysis

/-- The names of all components, the location first. -/
def names (a : Analysis) : List String :=
  a.placement.name :: a.components.map ComponentAnalysis.name

/-- Whether locations are split by a virtual program counter. -/
def tracksVpc (a : Analysis) : Bool :=
  a.placement.vpc.isSome

/-- The state from which an exploration starts at `l`. -/
def start (a : Analysis) (l : Location) : State :=
  ⟨l, a.components.map ComponentAnalysis.start⟩

/-- The precision of a location that has not been visited. -/
def precision (a : Analysis) : Precision :=
  .null :: a.components.map ComponentAnalysis.precision

/-! ## Successors -/

/-- The components after an edge, for the analyses from position `i` on. -/
def postFrom (s : State) (e : Edge) :
    Nat → List ComponentAnalysis → Except Fault (Option (List Component))
  | _, [] => return some []
  | i, a :: rest => do
    match ← a.post s i e with
    | none => return none
    | some c => return (← postFrom s e (i + 1) rest).map (c :: ·)

/-- The state after an edge, or nothing if some component cannot take the edge.  Components are
    asked in order, and the first that faults or refuses decides. -/
def post (a : Analysis) (s : State) (e : Edge) : Except Fault (Option State) := do
  return (← postFrom s e 1 a.components).map fun cs => ⟨a.placement.step s e, cs⟩

/-! ## Order and merge -/

/-- Whether each component of `cs` is covered by the one of `ds`. -/
def componentsLe : List ComponentAnalysis → List Component → List Component → Bool
  | a :: as, c :: cs, d :: ds => a.le c d && componentsLe as cs ds
  | _, _, _ => true

/-- Whether `s` is covered by `t`. -/
def le (a : Analysis) (s t : State) : Bool :=
  s.location == t.location && s.components.length == t.components.length &&
    componentsLe a.components s.components t.components

/-- The components of `cs` put into those of `ds`; nothing if some component is neither joined nor
    covered. -/
def mergeComponents : List ComponentAnalysis → List Component → List Component →
    Option (List Component)
  | a :: as, c :: cs, d :: ds =>
    let m := a.merge c d
    if m = d ∧ !a.le c d then none else (mergeComponents as cs ds).map (m :: ·)
  | _, _, _ => some []

/-- The state in which `s` has been put into the reached state `t`, or nothing if `t` stays as it
    is: across locations, where a component keeps the two apart, and where nothing changes. -/
def merge (a : Analysis) (s t : State) : Option State :=
  if s.location = t.location then
    match mergeComponents a.components s.components t.components with
    | some cs => if cs = t.components.take cs.length then none else some ⟨t.location, cs⟩
    | none => none
  else none

/-! ## Precision -/

/-- The components adjusted to the precision, for the analyses from position `i` on. -/
def refineFrom (s : State) (p : Precision) :
    Nat → List ComponentAnalysis → Except Fault (List (Component × ComponentPrecision))
  | _, [] => return []
  | i, a :: rest => do
    let c ← a.refine s i (p.component i)
    return c :: (← refineFrom s p (i + 1) rest)

/-- The state adjusted to the precision of its location, with the precision after that. -/
def refine (a : Analysis) (s : State) (p : Precision) : Except Fault (State × Precision) := do
  let refined ← refineFrom s p 1 a.components
  return (⟨s.location, refined.map (·.1)⟩, .null :: refined.map (·.2))

end Analysis

end CodeReach
