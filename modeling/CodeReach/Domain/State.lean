/-
  CodeReach.Domain.State

  Composite abstract states: a location and, beside it, the states of further
  components.  States are compared by what they say.  A `Node` gives a state an
  identity, which tells apart two occurrences of the same state.
-/
import CodeReach.Domain.CallStack
import CodeReach.Domain.Registers

namespace CodeReach

/-- The part of a state that one analysis is responsible for. -/
inductive Component where
  | location (l : Location)
  | values (r : Registers)
  | calls (s : CallStack)
deriving DecidableEq

namespace Component

/-- The location, if the component is one. -/
def location? : Component → Option Location
  | .location l => some l
  | _ => none

/-- The registers, if the component tracks them. -/
def values? : Component → Option Registers
  | .values r => some r
  | _ => none

/-- The call stack, if the component is one. -/
def calls? : Component → Option CallStack
  | .calls s => some s
  | _ => none

/-- The text of what the component holds. -/
def text : Component → String
  | .location l => l.text
  | .values r => r.text
  | .calls s => s.text

end Component

/-- A location with the components that describe the machine there. -/
structure State where
  location : Location
  components : List Component
deriving DecidableEq

namespace State

/-- All components; the location is the one at position zero. -/
def parts (s : State) : List Component :=
  .location s.location :: s.components

/-- The component at a position. -/
def component? (s : State) (i : Nat) : Option Component :=
  s.parts[i]?

/-- The first component that tracks registers. -/
def values? (s : State) : Option Registers :=
  s.components.findSome? Component.values?

/-- The first component that is a call stack. -/
def calls? (s : State) : Option CallStack :=
  s.components.findSome? Component.calls?

/-- The components, separated by bars. -/
def text (s : State) : String :=
  " | ".intercalate (s.parts.map Component.text)

end State

/-- A state with an identity. -/
structure Node where
  id : Nat
  state : State
deriving DecidableEq

namespace Node

/-- The location of the state. -/
def location (n : Node) : Location :=
  n.state.location

end Node

end CodeReach
