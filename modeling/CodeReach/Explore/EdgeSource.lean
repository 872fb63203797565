/-
  CodeReach.Explore.EdgeSource

  Where the edges of an exploration come from: a graph that is known from the start,
  or a resolver that finds them on the way.
-/
import CodeReach.Explore.Resolver
import CodeReach.Transfer.Analysis

namespace CodeReach

/-- The edges of a known graph, followed in one direction from an initial location. -/
structure StaticEdges where
  graph : Graph
  initial : Location
  direction : Direction

namespace StaticEdges

/-- The edges at a location, in the direction of travel. -/
def edgesAt (s : StaticEdges) (l : Location) : List Edge :=
  match s.direction with
  | .forward => s.graph.outEdges l
  | .backward => s.graph.inEdges l

/-- The edges to follow from a location.  A split location without edges of its own has those of
    its label. -/
def edgesFrom (s : StaticEdges) (l : Location) : List Edge :=
  match s.edgesAt l, l with
  | [], .split label _ => s.edgesAt (.plain label)
  | es, _ => es

end StaticEdges

/-- Where the edges of an exploration come from. -/
inductive EdgeSource where
  | static (s : StaticEdges)
  | resolving (r : Resolver)

namespace EdgeSource

/-- Where the exploration starts. -/
def initial : EdgeSource → Location
  | .static s => s.initial
  | .resolving r => .plain r.program.startLabel

/-- The edges to follow from a node, and the source after it was asked. -/
def edges (source : EdgeSource) (n : Node) : EdgeSource × Except Failure (List Edge) :=
  match source with
  | .static s => (source, .ok (s.edgesFrom n.location))
  | .resolving r =>
    let (r, answer) := r.edges n
    (.resolving r, answer)

/-- Whether every goto met so far could be resolved. -/
def sound : EdgeSource → Bool
  | .static _ => true
  | .resolving r => r.sound

/-- The labels of the gotos that could not be resolved. -/
def unresolved : EdgeSource → OrdSet Label
  | .static _ => .empty
  | .resolving r => r.unresolved

/-- The number of instructions met so far, where instructions are counted. -/
def instructionCount? : EdgeSource → Option Nat
  | .static _ => none
  | .resolving r => some r.discovered.size

/-- All edges known so far. -/
def graph : EdgeSource → Graph
  | .static s => s.graph
  | .resolving r => r.graph

end EdgeSource

end CodeReach
