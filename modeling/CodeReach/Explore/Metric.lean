/-
  CodeReach.Explore.Metric

  What an exploration reports about itself.  Counters are exact; gauges are floating
  point numbers, so a large count is shown as the nearest of them.  Measurements that
  depend on the clock carry no value.
-/

namespace CodeReach

/-- The life of an engine: where it stands between and during runs. -/
inductive RunStatus where
  | idle
  | running
  /-- Nothing was left to do. -/
  | completed
  /-- The run ended early, on request or because it gave up. -/
  | interrupted
  /-- The run met a failure. -/
  | failed
deriving DecidableEq

/-- The word for the status. -/
def RunStatus.text : RunStatus → String
  | .idle => "idle"
  | .running => "running"
  | .completed => "completed"
  | .interrupted => "interrupted"
  | .failed => "failed"

/-- The nearest number with 53 significant bits; of two equally near ones the even one. -/
def nearestGauge (n : Nat) : Nat :=
  let excess := n.log2 - 52
  let unit := 1 <<< excess
  let low := n / unit
  let rest := n % unit
  if unit < 2 * rest ∨ (unit = 2 * rest ∧ low % 2 = 1) then (low + 1) * unit else low * unit

/-- What kind of measurement a metric is. -/
inductive MetricKind where
  | counter
  | gauge
  | histogram
deriving DecidableEq

/-- The word for the kind. -/
def MetricKind.text : MetricKind → String
  | .counter => "counter"
  | .gauge => "gauge"
  | .histogram => "histogram"

/-- A metric with its kind, its unit and what it is about. -/
structure MetricInfo where
  kind : MetricKind
  name : String
  unit : String
  description : String
deriving DecidableEq

namespace MetricInfo

/-- The size of the reached set. -/
def reached : MetricInfo :=
  ⟨.gauge, "bincpa_reached_states", "count", "States in the reached set"⟩

/-- The number of states visited. -/
def visited : MetricInfo :=
  ⟨.counter, "bincpa_states_visited_total", "count", "States taken from the worklist"⟩

/-- The speed of the exploration. -/
def throughput : MetricInfo :=
  ⟨.gauge, "bincpa_states_per_second", "count_per_second",
    "Worklist throughput since the last report"⟩

/-- The number of instructions met. -/
def instructions : MetricInfo :=
  ⟨.gauge, "bincpa_discovered_instructions", "count",
    "Instructions reached by control flow reconstruction"⟩

/-- The time runs take. -/
def runDuration : MetricInfo :=
  ⟨.histogram, "bincpa_run_duration_seconds", "seconds", "Wall-clock duration of analysis runs"⟩

/-- All metrics. -/
def all : List MetricInfo :=
  [reached, visited, throughput, instructions, runDuration]

end MetricInfo

/-- One report of a metric. -/
inductive MetricEvent where
  /-- The size of the reached set. -/
  | reached (count : Nat)
  /-- The number of states visited since the last report. -/
  | visited (count : Nat)
  /-- The speed since the last report. -/
  | throughput
  /-- The number of instructions met so far. -/
  | instructions (count : Nat)
  /-- The time a run took, with the status it ended in. -/
  | runDuration (status : RunStatus)
deriving DecidableEq

namespace MetricEvent

/-- The metric that is reported. -/
def info : MetricEvent → MetricInfo
  | .reached _ => .reached
  | .visited _ => .visited
  | .throughput => .throughput
  | .instructions _ => .instructions
  | .runDuration _ => .runDuration

/-- The name of the metric, followed by the status of a run. -/
def name (m : MetricEvent) : String :=
  match m with
  | .runDuration status => m.info.name ++ " status=" ++ status.text
  | _ => m.info.name

/-- The reported number, unless it depends on the clock. -/
def value? : MetricEvent → Option Nat
  | .reached n => some (nearestGauge n)
  | .visited n => some n
  | .instructions n => some (nearestGauge n)
  | .throughput | .runDuration _ => none

/-- What is reported at a housekeeping. -/
def progress (reachedCount visitedCount : Nat) (instructionCount : Option Nat) : List MetricEvent :=
  [.reached reachedCount, .visited visitedCount, .throughput] ++
    (instructionCount.map MetricEvent.instructions).toList

end MetricEvent

end CodeReach
