/-
  CodeReach.Explore.Run

  Runs of an engine.  A run enters the start state and then visits pending nodes until
  none is left, a stop is requested, a failure is met, or, under fail-fast, a goto
  could not be resolved.  To visit a node means to adjust it to the precision of its
  location, to ask for the edges that leave it, and to accept its successors.

  What comes from outside while a run is going, requests to stop and the time, is
  given by `Surroundings`.
-/
import CodeReach.Data.Loop
import CodeReach.Explore.Engine

namespace CodeReach

/-- What happens around a run. -/
structure Surroundings where
  /-- Whether a stop has been requested by the time edges are asked for the given number of times,
      counted over all runs. -/
  stopRequested : Nat → Bool
  /-- How long the run has taken when the given number of states has been visited. -/
  elapsed : Nat → Duration

namespace Surroundings

/-- A stop is requested when edges are asked for the given number of times, if at all; time goes by
    at one nanosecond a state. -/
def stopAfter (queries : Option Nat) : Surroundings :=
  ⟨fun n => queries.any (· ≤ n), fun n => n⟩

end Surroundings

/-- A question to the source of edges, with its answer. -/
structure Query where
  node : Node
  answer : Except Failure (List Edge)

/-- A run under way. -/
structure Exploration where
  engine : Engine
  /-- The precisions of the locations visited in this run. -/
  precisions : Std.TreeMap Location Precision
  /-- The number of states visited since the last housekeeping. -/
  sinceReport : Nat
  events : List MetricEvent
  trace : List Query

/-- What a run leaves behind beside the engine. -/
structure Report where
  result : Except Failure Unit
  events : List MetricEvent
  trace : List Query

namespace Exploration

/-- The exploration after the start state was entered. -/
def start (e : Engine) : Exploration :=
  let (n, e) := e.newNode (e.analysis.start e.source.initial)
  let e := e.enter n
  let e := { e with tree := e.tree.map (·.setRoot n), status := .running, visited := 0 }
  ⟨e, (∅ : Std.TreeMap Location Precision).insert n.location e.analysis.precision, 0, [], []⟩

/-- Whether another node is to be visited. -/
def goesOn (x : Exploration) : Bool :=
  !x.engine.worklist.isEmpty && !x.engine.stopped &&
    (!x.engine.settings.failFast || x.engine.isSound)

/-- Drops stale entries of the worklist, reports progress and looks at the clock. -/
def housekeeping (x : Exploration) (w : Surroundings) : Exploration :=
  let e := x.engine
  let late := e.settings.timeout.any (· < w.elapsed e.visited)
  { x with
    engine := { e with worklist := e.worklist.compact, stopped := e.stopped || late }
    sinceReport := 0
    events := x.events ++
      MetricEvent.progress e.reached.size x.sinceReport e.source.instructionCount? }

/-- Counts one more visited state, with a housekeeping if it is due. -/
def tick (x : Exploration) (w : Surroundings) : Exploration :=
  let x :=
    { x with
      engine := { x.engine with visited := x.engine.visited + 1 }
      sinceReport := x.sinceReport + 1 }
  if x.engine.settings.stepThreshold ≤ x.sinceReport then x.housekeeping w else x

/-- Asks for the edges that leave a node.  A stop request that has arrived by then is seen. -/
def query (x : Exploration) (w : Surroundings) (n : Node) :
    Exploration × Except Failure (List Edge) :=
  let e := x.engine
  let queries := e.queries + 1
  let (source, answer) := e.source.edges n
  ({ x with
      engine := { e with source, queries, stopped := e.stopped || w.stopRequested queries }
      trace := x.trace ++ [⟨n, answer⟩] },
    answer)

/-- Adjusts a node to the precision of its location; a node that changes gets a new identity. -/
def adjust (x : Exploration) (n : Node) : Except Fault (Node × Exploration) := do
  let e := x.engine
  let (s, p) ← e.analysis.refine n.state (x.precisions.getD n.location e.analysis.precision)
  let (m, e) := if s = n.state then (n, e) else e.newNode s
  return (m, { x with engine := e, precisions := x.precisions.insert s.location p })

/-- Visits a node that has just been picked. -/
def visit (x : Exploration) (w : Surroundings) (n : Node) : Exploration × Except Failure Unit :=
  match x.adjust n with
  | .error f => (x, .error ⟨.fault f, some n⟩)
  | .ok (m, x) =>
    match x.query w m with
    | (x, .error f) => (x, .error (f.attach m))
    | (x, .ok edges) =>
      let (e, result) := x.engine.expand n m edges
      ({ x with engine := e }, result)

/-- One round of the loop. -/
def step (w : Surroundings) (x : Exploration) :
    Progress Exploration (Exploration × Except Failure Unit) :=
  if x.goesOn then
    let x := x.tick w
    let (picked, rest) := x.engine.worklist.pick
    let x := { x with engine := { x.engine with worklist := rest } }
    match picked with
    | none => .done (x, .ok ())
    | some n =>
      match x.visit w n with
      | (x, .ok ()) => .next x
      | (x, .error f) => .done (x, .error f)
  else .done (x, .ok ())

end Exploration

namespace ComponentAnalysis

/-- The number of bits that are enough to write down any component the analysis can reach: 32 sets
    of at most sixteen words, or a stack of bounded depth. -/
def stateBits : ComponentAnalysis → Nat
  | .values _ => trackedRegs * (64 * maxConstants + 8)
  | .calls a => 64 * a.maxDepth + 64

end ComponentAnalysis

namespace Engine

/-- The number of bits that are enough to write down any state the engine can reach. -/
def stateBits (e : Engine) : Nat :=
  e.analysis.components.foldl (fun bits a => bits + a.stateBits) 160

/-- How many rounds of doubling length a run is given.  Only finitely many states can be reached,
    each is entered only finitely often, and these rounds are long enough for all of that. -/
def rounds (e : Engine) : Nat :=
  4 * e.stateBits

/-- The status in which a run ends. -/
def finalStatus (e : Engine) (result : Except Failure Unit) : RunStatus :=
  match result with
  | .error _ => .failed
  | .ok () => if e.worklist.isEmpty then .completed else .interrupted

/-- The engine and the report at the end of a run. -/
def finish (x : Exploration) (result : Except Failure Unit) : Engine × Report :=
  let status := x.engine.finalStatus result
  ({ x.engine with status }, ⟨result, x.events ++ [.runDuration status], x.trace⟩)

/-- Runs the engine until nothing is left to do, a stop is requested or a failure is met. -/
def run (e : Engine) (w : Surroundings) : Engine × Report :=
  match Loop.deepen (Exploration.step w) e.rounds 1 (Exploration.start e) with
  | .done (x, result) => finish x result
  | .next x => finish x (.ok ())

end Engine

end CodeReach
