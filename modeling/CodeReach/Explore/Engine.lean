/-
  CodeReach.Explore.Engine

  The engine that explores a program, and what it does with one new state.  A
  successor is first put into the reached states at its location, each of which may
  absorb it and is then replaced; afterwards it is added itself, unless some reached
  state covers it.

  The reached states at a location are a set and come in no particular order.  Where that
  shows, in what is replaced first, an engine has an `Enumeration` that decides.
-/
import CodeReach.Explore.EdgeSource
import CodeReach.Explore.Metric
import CodeReach.Explore.ReachedSet
import CodeReach.Explore.Tree
import CodeReach.Explore.Worklist

namespace CodeReach

/-- Whether a reached node at the location of the state covers it. -/
def Analysis.covers (a : Analysis) (r : ReachedSet) (s : State) : Bool :=
  (r.atLocation s.location).any fun n => a.le s n.state

/-- An order in which the nodes of a set are gone through.  It may be another one at each moment. -/
structure Enumeration where
  arrange : Nat → List Node → List Node
  perm : ∀ moment nodes, (arrange moment nodes).Perm nodes

/-- Nodes in the order in which they were inserted. -/
def Enumeration.inserted : Enumeration :=
  ⟨fun _ nodes => nodes, fun _ nodes => .refl nodes⟩

/-- An engine with everything it has found out so far. -/
structure Engine where
  analysis : Analysis
  settings : Settings
  source : EdgeSource
  /-- How the reached nodes at a location are gone through. -/
  order : Enumeration
  worklist : Worklist
  reached : ReachedSet
  /-- How the nodes were reached, if that is recorded. -/
  tree : Option Tree
  status : RunStatus
  /-- Whether a stop was requested; that is never taken back. -/
  stopped : Bool
  /-- The number of states visited in the latest run. -/
  visited : Nat
  /-- How often the source was asked for edges, in all runs. -/
  queries : Nat
  /-- The identity of the next node. -/
  nextId : Nat

namespace Engine

/-- An engine that has not run yet.  The tree is recorded if the settings ask for it or locations
    are split. -/
def fresh (analysis : Analysis) (source : EdgeSource) (policy : Policy) (settings : Settings)
    (order : Enumeration) : Engine :=
  { analysis, settings, source, order
    worklist := .empty policy
    reached := .empty none
    tree := if settings.needsTree || analysis.tracksVpc then some .empty else none
    status := .idle
    stopped := false
    visited := 0
    queries := 0
    nextId := 0 }

/-- An engine over a known graph, followed from `initial` in one direction. -/
def overGraph (direction : Direction) (graph : Graph) (initial : Location)
    (components : List ComponentAnalysis) (order : Enumeration) : Engine :=
  fresh ⟨{ direction := direction }, components⟩ (.static ⟨graph, initial, direction⟩) .fifo {}
    order

/-- The engine after a request to stop. -/
def stop (e : Engine) : Engine :=
  { e with stopped := true }

/-- Whether the latest run ended with nothing left to do. -/
def isCompleted (e : Engine) : Bool :=
  e.status == .completed

/-- Whether every goto met so far could be resolved. -/
def isSound (e : Engine) : Bool :=
  e.source.sound

/-- A node with a new identity. -/
def newNode (e : Engine) (s : State) : Node × Engine :=
  (⟨e.nextId, s⟩, { e with nextId := e.nextId + 1 })

/-- Records in the tree that `child` was reached from `parent`. -/
def recordChild (e : Engine) (parent : Node) (edge : Edge) (child : Node) : Engine :=
  { e with tree := e.tree.map fun t => (t.addChild parent edge child).2 }

/-- Makes a node reached and pending. -/
def enter (e : Engine) (n : Node) : Engine :=
  { e with worklist := e.worklist.insert n, reached := e.reached.insert n }

/-- Takes a state out of the reached and the pending ones. -/
def discard (e : Engine) (s : State) : Engine :=
  { e with worklist := e.worklist.erase s, reached := e.reached.erase s }

/-- Enters a merged state, unless it has been reached already. -/
def enterMerged (e : Engine) (parent : Node) (edge : Edge) (s : State) : Engine :=
  let (n, e) := e.newNode s
  if e.reached.contains s then e else (e.enter n).recordChild parent edge n

/-- The reached nodes that absorb a successor, each with the state that takes its place.  Successors
    have identities of their own, so that no moment comes twice and any order can be met at each. -/
def absorbers (e : Engine) (s : State) : List (Node × State) :=
  (e.order.arrange e.nextId (e.reached.atLocation s.location)).filterMap fun r =>
    (e.analysis.merge s r.state).map (r, ·)

/-- The engine after a successor of `parent` was found. -/
def accept (e : Engine) (parent : Node) (edge : Edge) (s : State) : Engine :=
  let (n, e) := e.newNode s
  let absorbers := e.absorbers s
  let e := absorbers.foldl (fun e (r, _) => e.discard r.state) e
  let e := absorbers.foldl (fun e (_, m) => e.enterMerged parent edge m) e
  if e.analysis.covers e.reached s then e else (e.enter n).recordChild parent edge n

/-- Accepts the successors of `node` along the edges.  The tree shows them as reached from
    `parent`, the node before its precision was adjusted; so does it show `node` itself when a
    fault is met and the adjustment had changed it. -/
def expand (e : Engine) (parent node : Node) : List Edge → Engine × Except Failure Unit
  | [] => (e, .ok ())
  | edge :: rest =>
    match e.analysis.post node.state edge with
    | .error f =>
      let e := if node.state = parent.state then e else e.recordChild parent edge node
      (e, .error ⟨.fault f, some node⟩)
    | .ok none => expand e parent node rest
    | .ok (some s) => expand (e.accept parent edge s) parent node rest

end Engine

end CodeReach
