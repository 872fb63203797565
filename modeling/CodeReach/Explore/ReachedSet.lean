/-
  CodeReach.Explore.ReachedSet

  The nodes accepted so far, one for each state.  They are stored by location and,
  if asked for, a second time by the component at one chosen position.  A location or a
  component under which nothing is left is forgotten.
-/
import CodeReach.Data.Buckets
import CodeReach.Domain.State

namespace CodeReach

/-- The nodes accepted so far. -/
structure ReachedSet where
  /-- The position of the component by which nodes are found quickly. -/
  index : Option Nat
  byLocation : Buckets Location Node
  byComponent : Buckets Component Node
  size : Nat

namespace ReachedSet

/-- No node, with an index on the component at a position if one is given. -/
def empty (index : Option Nat) : ReachedSet :=
  ⟨index, .empty, .empty, 0⟩

/-- The component under which a state is indexed; position zero is the location and needs no index
    of its own. -/
def indexKey? (r : ReachedSet) (s : State) : Option Component :=
  match r.index with
  | some (i + 1) => s.component? (i + 1)
  | _ => none

/-- The nodes at a location. -/
def atLocation (r : ReachedSet) (l : Location) : List Node :=
  r.byLocation.get l

/-- Whether a node with this state is there. -/
def contains (r : ReachedSet) (s : State) : Bool :=
  (r.atLocation s.location).any (·.state == s)

/-- Whether no node is there. -/
def isEmpty (r : ReachedSet) : Bool :=
  r.size == 0

/-- A table with a node in the bucket of a key, unless one with its state is there already. -/
def file {κ : Type} [DecidableEq κ] (table : Buckets κ Node) (k : κ) (n : Node) :
    Buckets κ Node :=
  if (table.get k).any (·.state == n.state) then table else table.push k n

/-- The set with one more node, unless its state is there already.  Each table looks for the state
    in its own bucket. -/
def insert (r : ReachedSet) (n : Node) : ReachedSet :=
  { r with
    byLocation := file r.byLocation n.location n
    byComponent :=
      match r.indexKey? n.state with
      | some c => file r.byComponent c n
      | none => r.byComponent
    size := if r.contains n.state then r.size else r.size + 1 }

/-- The set without the node of a state. -/
def erase (r : ReachedSet) (s : State) : ReachedSet :=
  if r.contains s then
    { r with
      byLocation := r.byLocation.prune s.location (·.state != s)
      byComponent :=
        match r.indexKey? s with
        | some c => r.byComponent.prune c (·.state != s)
        | none => r.byComponent
      size := r.size - 1 }
  else r

/-- Whether the state of a node is new, and the set with the node. -/
def add (r : ReachedSet) (n : Node) : Bool × ReachedSet :=
  (!r.contains n.state, r.insert n)

/-- Whether there is a node with the state, and the set without it. -/
def remove (r : ReachedSet) (s : State) : Bool × ReachedSet :=
  (r.contains s, r.erase s)

/-- All nodes. -/
def toList (r : ReachedSet) : List Node :=
  r.byLocation.values

/-- The locations with at least one node. -/
def locations (r : ReachedSet) : OrdSet Location :=
  OrdSet.ofList r.byLocation.keys

/-- The nodes whose component at position `i` is `c`. -/
def withComponent (r : ReachedSet) (i : Nat) (c : Component) : List Node :=
  if i = 0 then (c.location?.map r.atLocation).getD []
  else if r.index = some i then r.byComponent.get c
  else r.toList.filter fun n => n.state.component? i == some c

end ReachedSet

end CodeReach
