/-
  CodeReach.Transfer.Component

  One component of a composite analysis.  Its operations receive the whole state and
  the position of the component in it, and refuse a state that has something else at
  that position.
-/
import CodeReach.Transfer.Calls
import CodeReach.Transfer.Values

namespace CodeReach

/-- An analysis that contributes one component to a state. -/
inductive ComponentAnalysis where
  | values (a : ValueAnalysis)
  | calls (a : CallAnalysis)

namespace ComponentAnalysis

/-- What the analysis is called. -/
def name : ComponentAnalysis → String
  | .values _ => "value"
  | .calls _ => "call-stack"

/-- The component of a start state. -/
def start : ComponentAnalysis → Component
  | .values _ => .values .unknown
  | .calls _ => .calls .empty

/-- The precision of a location that has not been visited. -/
def precision : ComponentAnalysis → ComponentPrecision
  | .values a => .values (.fresh a.threshold)
  | .calls _ => .null

/-- The refusal of a state whose component at `index` is not the analysis' own. -/
def mismatch (a : ComponentAnalysis) (index : Nat) : Fault :=
  .componentMismatch a.name index

/-- The registers at `index`. -/
def registersAt (a : ComponentAnalysis) (s : State) (index : Nat) : Except Fault Registers :=
  match (s.component? index).bind Component.values? with
  | some r => .ok r
  | none => .error (a.mismatch index)

/-- The call stack at `index`. -/
def callsAt (a : ComponentAnalysis) (s : State) (index : Nat) : Except Fault CallStack :=
  match (s.component? index).bind Component.calls? with
  | some c => .ok c
  | none => .error (a.mismatch index)

/-- The component after an edge, or nothing if the edge cannot be taken. -/
def post (a : ComponentAnalysis) (s : State) (index : Nat) (e : Edge) :
    Except Fault (Option Component) :=
  match a with
  | .values v => do return (← v.step (← a.registersAt s index) e.stmt).map Component.values
  | .calls c => do return (c.step (← a.callsAt s index) e).map Component.calls

/-- The new component `c` put into the reached component `d`; the result is `d` where they are
    kept apart. -/
def merge : ComponentAnalysis → Component → Component → Component
  | .values a, .values s, .values t => .values (a.combine s t)
  | _, _, d => d

/-- Whether `c` is covered by `d`. -/
def le : ComponentAnalysis → Component → Component → Bool
  | .values _, .values s, .values t => s.le t
  | _, c, d => c == d

/-- The component at `index` adjusted to the precision, with the precision after that. -/
def refine (a : ComponentAnalysis) (s : State) (index : Nat) (p : ComponentPrecision) :
    Except Fault (Component × ComponentPrecision) :=
  match a with
  | .values _ => do
    let r ← a.registersAt s index
    match p with
    | .values q =>
      let (r, q) := ValueAnalysis.widen r q
      return (.values r, .values q)
    | .null => return (.values r, .null)
  | .calls _ =>
    match s.component? index with
    | some c => .ok (c, p)
    | none => .error (a.mismatch index)

end ComponentAnalysis

end CodeReach
