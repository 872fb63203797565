/-
  CodeReach.Explore.Resolver

  Control flow found on the way.  The edges that leave a state are computed from the
  statement at its label; a goto is resolved by asking the state which values its
  condition and its target can take.  The resolver keeps the graph of all edges it
  has handed out, and whether every goto could be resolved.
-/
import CodeReach.Domain.Projection
import CodeReach.Explore.Failure
import CodeReach.Explore.Settings
import CodeReach.Flow.Graph

namespace CodeReach

/-- What one combination of a condition value and a target value contributes to a goto. -/
inductive Turn where
  /-- The edges that are known to exist, at most one. -/
  | certain (edges : List Edge)
  /-- The target is unknown, and these edges stand for it. -/
  | spread (edges : List Edge)
  /-- The target is unknown, and no edge stands for it. -/
  | lost
deriving DecidableEq

namespace Turn

/-- The edges of the turn. -/
def edges : Turn → List Edge
  | .certain es => es
  | .spread es => es
  | .lost => []

/-- Whether the target was known or not needed. -/
def isCertain : Turn → Bool
  | .certain _ => true
  | _ => false

end Turn

namespace Goto

/-- The condition has the given value. -/
def conditionIs (g : Goto) (w : Word) : Expr :=
  Expr.mkBinary .eq g.condition (.imm w)

/-- The target has the given value. -/
def targetIs (g : Goto) (w : Word) : Expr :=
  Expr.mkBinary .eq g.target (.imm w)

/-- The edges for one combination of values.  With a condition of zero control falls through; else
    it goes to the target, or to every code address if the target is unknown and that is wanted. -/
def turn (g : Goto) (site : PlacedStmt) (codeAddresses : List Word) (allEdges : Bool)
    (condition : Word) (target : Option Word) : Turn :=
  let origin := some ⟨g.kind, site.next⟩
  if condition = 0 then
    match site.next with
    | some next => .certain [.must site.label next (.assume (g.conditionIs 0).simplify none)]
    | none => .certain []
  else
    match target with
    | some t =>
      let assumption := Expr.mkBinary .logicalAnd (g.conditionIs condition) (g.targetIs t)
      .certain [.must site.label (Label.start t) (.assume assumption.simplify origin)]
    | none =>
      if allEdges then
        .spread (codeAddresses.map fun a =>
          .may site.label (Label.start a) (.assume (g.targetIs a) origin))
      else .lost

/-- The values of condition and target to look at.  An open condition can be zero or one. -/
def cases (pairs : List Valuation) : List (Word × Option Word) :=
  pairs.flatMap fun pair =>
    let target := pair[1]?.join
    match pair[0]?.join with
    | some w => [(w, target)]
    | none => [(0, target), (1, target)]

end Goto

/-- The edge to the label after a statement that is no goto.  A halt has none. -/
def PlacedStmt.straightEdges (s : PlacedStmt) : List Edge :=
  if s.stmt = .halt then []
  else (s.next.map fun next => Edge.must s.label next s.stmt).toList

/-- Finds the edges of a program while it is explored. -/
structure Resolver where
  program : Program
  settings : Settings
  /-- Whether every goto met so far could be resolved. -/
  sound : Bool
  /-- The labels of the gotos that could not be resolved. -/
  unresolved : OrdSet Label
  /-- Every edge handed out so far. -/
  graph : Graph
  /-- The addresses of the instructions met so far. -/
  discovered : OrdSet Word

namespace Resolver

/-- The resolver that has met nothing yet. -/
def fresh (program : Program) (settings : Settings) : Resolver :=
  ⟨program, settings, true, .empty, .empty, .empty⟩

/-- The edge over a whole call, if it is wanted and the label after the call is known.  Inside the
    entry harness, the harness knows it. -/
def callReturnEdges (r : Resolver) (site : PlacedStmt) (g : Goto) : List Edge :=
  if g.kind = .call ∧ r.settings.callReturnEdges then
    let address := site.label.address
    let next := ((r.program.harness.bind (·.next? address)).map Label.start) <|> site.next
    (next.map fun l => Edge.must site.label l .callReturn).toList
  else []

/-- What each combination of values in the state contributes to a goto. -/
def turns (r : Resolver) (s : State) (site : PlacedStmt) (g : Goto) : List Turn :=
  (Goto.cases (s.projection r.program [g.condition, g.target])).map fun (condition, target) =>
    g.turn site r.program.codeAddresses r.settings.allEdges condition target

/-- The resolver after handing out edges. -/
def record (r : Resolver) (es : List Edge) : Resolver :=
  { r with graph := r.graph.insertAll es }

/-- The edges of a goto.  If a target is lost, the goto is noted, and in debug mode that is a
    failure, in which case no edges are handed out. -/
def resolveGoto (r : Resolver) (n : Node) (site : PlacedStmt) (g : Goto) :
    Resolver × Except Failure (List Edge) :=
  let turns := r.turns n.state site g
  let lost := turns.contains .lost
  let r :=
    { r with
      sound := r.sound && turns.all Turn.isCertain
      unresolved := if lost then r.unresolved.insert site.label else r.unresolved }
  if lost && r.settings.debug then (r, .error ⟨.unresolved site.label, some n⟩)
  else
    let es := (r.callReturnEdges site g ++ turns.flatMap Turn.edges).eraseDups
    (r.record es, .ok es)

/-- The edges that leave a node, in the order in which they are found. -/
def edges (r : Resolver) (n : Node) : Resolver × Except Failure (List Edge) :=
  let label := n.location.label
  match r.program.statement? label with
  | none => (r, .error ⟨.fault (.missingStatement label), none⟩)
  | some site =>
    let r := { r with discovered := r.discovered.insert label.address }
    match site.stmt.goto? with
    | some g => r.resolveGoto n site g
    | none =>
      let es := site.straightEdges
      (r.record es, .ok es)

end Resolver

end CodeReach
