/-
  CodeReach.Flow.Edge

  Transitions between locations, each labelled with the statement it executes.
-/
import CodeReach.Code.Stmt

namespace CodeReach

/-- Whether a transition is known to exist or was added to be on the safe side. -/
inductive EdgeKind where
  /-- The transition exists wherever its assumption holds. -/
  | must
  /-- The transition was added because its goto could not be resolved. -/
  | may
deriving DecidableEq

/-- A transition from `source` to `target` that executes `stmt`. -/
structure Edge where
  source : Location
  target : Location
  stmt : Stmt
  kind : EdgeKind
deriving DecidableEq

namespace Edge

/-- A transition between labels that is known to exist. -/
def must (source target : Label) (stmt : Stmt) : Edge :=
  ⟨.plain source, .plain target, stmt, .must⟩

/-- A transition between labels that was added to be on the safe side. -/
def may (source target : Label) (stmt : Stmt) : Edge :=
  ⟨.plain source, .plain target, stmt, .may⟩

/-- The same transition between other locations. -/
def between (e : Edge) (source target : Location) : Edge :=
  { e with source := source, target := target }

/-- Both locations and the statement; the arrow shows the kind. -/
def text (e : Edge) : String :=
  let arrow := match e.kind with
    | .must => " -> "
    | .may => " ~> "
  e.source.text ++ arrow ++ e.target.text ++ " [" ++ e.stmt.text ++ "]"

/-- The text of the edge, followed by the origin of its assumption. -/
def fullText (e : Edge) : String :=
  e.text ++ e.stmt.originSuffix

end Edge

end CodeReach
