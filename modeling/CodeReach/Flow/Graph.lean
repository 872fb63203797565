/-
  CodeReach.Flow.Graph

  Control-flow graphs that grow edge by edge.  The edges are kept in the order in
  which they were added, each once.  Beside them stand the set of known edges, by which
  a repeated one is recognised, and, for every location, the positions of the edges that
  leave and that enter it.
-/
import CodeReach.Data.Buckets
import CodeReach.Data.OrdSet
import CodeReach.Flow.Edge

namespace CodeReach

/-- A set of edges with its adjacency in both directions. -/
structure Graph where
  edges : Array Edge
  /-- The edges once more, without an order. -/
  known : List Edge
  /-- Positions of the edges that leave a location. -/
  leaving : Buckets Location Nat
  /-- Positions of the edges that enter a location. -/
  entering : Buckets Location Nat
  known_perm : known.Perm edges.toList

namespace Graph

/-- The graph without edges. -/
def empty : Graph :=
  ⟨#[], [], .empty, .empty, .refl _⟩

instance : Inhabited Graph :=
  ⟨empty⟩

/-- Whether the edge is in the graph. -/
def contains (g : Graph) (e : Edge) : Bool :=
  g.known.contains e

/-- The graph with one more edge; an edge that is there is not repeated. -/
def insert (g : Graph) (e : Edge) : Graph :=
  if g.contains e then g
  else
    let position := g.edges.size
    { edges := g.edges.push e
      known := e :: g.known
      leaving := g.leaving.push e.source position
      entering := g.entering.push e.target position
      known_perm := by
        rw [Array.toList_push]
        exact (g.known_perm.cons e).trans (List.perm_append_singleton e _).symm }

/-- Whether the edge is new, and the graph with it. -/
def add (g : Graph) (e : Edge) : Bool × Graph :=
  (!g.contains e, g.insert e)

/-- The graph with the edges of a list added in order. -/
def insertAll (g : Graph) (es : List Edge) : Graph :=
  es.foldl insert g

/-- The graph of the edges of a list. -/
def ofList (es : List Edge) : Graph :=
  empty.insertAll es

/-- The edges at the given positions. -/
def select (g : Graph) (positions : List Nat) : List Edge :=
  positions.filterMap (g.edges[·]?)

/-- The edges that leave `l`, in the order in which they were added. -/
def outEdges (g : Graph) (l : Location) : List Edge :=
  g.select (g.leaving.get l)

/-- The edges that enter `l`, in the order in which they were added. -/
def inEdges (g : Graph) (l : Location) : List Edge :=
  g.select (g.entering.get l)

/-- All locations that some edge leaves or enters. -/
def nodes (g : Graph) : OrdSet Location :=
  OrdSet.ofList (g.leaving.keys ++ g.entering.keys)

/-- The locations that a must edge enters and none leaves: where the certain part of the graph
    ends. -/
def mustLeaves (g : Graph) : OrdSet Location :=
  (OrdSet.ofList g.entering.keys).filter fun l =>
    (g.inEdges l).any (·.kind == .must) && !(g.outEdges l).any (·.kind == .must)

end Graph

end CodeReach
